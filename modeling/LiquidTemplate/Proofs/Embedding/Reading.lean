import LiquidTemplate.Proofs.Embedding.Depth
import LiquidTemplate.Proofs.Geometry.Reading
import LiquidTemplate.Proofs.Shift.Reading

namespace LiquidTemplate

open Text
open Peg (Pair Grown)

namespace Token

/-- The tokens are those of a text of its own, moved to where the span has it. -/
def ReadAlone (text : List Char) (mode : Mode) (entry : Entry) (word : List Char) (s : Span)
    (ts : List Token) : Prop :=
  s.Holds text word ∧ ∃ alone, read ⟨0, mode⟩ entry word = .ok alone ∧ ts = alone.map (shift s.lo)

end Token

def RawElement.ReadsAlone (text : List Char) (e : RawElement) (body : List Token) : Prop :=
  Token.ReadAlone text .tolerant .liquid e.body.toList e.bodySpan body

def RawTag.ReadsAlone (text : List Char) (t : RawTag) (body : List Token) : Prop :=
  t.name = "style" → Token.ReadAlone text .tolerant .liquid t.body.toList t.bodySpan body

def LiquidMarkup (text : List Char) (trim : Trim) (s : Span) (markup : List Char) (start : Nat) : Prop :=
  ∃ lead trail, s.Holds text (lead ++ (markup ++ trail)) ∧
    TagText trim "liquid".toList lead markup trail ∧ start = s.lo + byteLength lead

def Statements.ReadsAlone (text : List Char) (mode : Mode) (s : Statements) (body : List Token) : Prop :=
  ∃ markup, LiquidMarkup text s.trim s.span markup s.markupSpan.lo ∧
    Token.ReadAlone text mode .statements markup s.markupSpan body

def Tag.Unread (text : List Char) (mode : Mode) (t : Tag) : Prop :=
  t.name = "liquid" → ∃ markup start, LiquidMarkup text t.trim t.span markup start ∧
    t.markup = .text (Token.trimmed markup) ∧ ∃ e, Token.read ⟨0, mode⟩ .statements markup = .error e

namespace Token

def isAtom : Token → Bool
  | text _ | frontmatter .. | doctype .. | comment .. | elementClose .. | bareAttribute .. | output _
  | tagOpen _ | tagClose _ | docParam _ | docExample .. | docDescription .. => true
  | _ => false

/-- In the token, which was read in the mode, every embedded text was read as a text of its own:
Liquid in the bodies of raw elements and `style` tags, and statements in the markup of `liquid`
tags. -/
inductive Standalone (text : List Char) : Mode → Token → Prop
  | atom {mode t} : t.isAtom → Standalone text mode t
  | rawElement {mode e attributes body} : e.ReadsAlone text body →
      (∀ t ∈ attributes, Standalone text mode t) → (∀ t ∈ body, Standalone text .tolerant t) →
      Standalone text mode (rawElement e attributes body)
  | voidElement {mode name attributes span} : (∀ t ∈ attributes, Standalone text mode t) →
      Standalone text mode (voidElement name attributes span)
  | selfClosing {mode name attributes span} : (∀ t ∈ attributes, Standalone text mode t) →
      Standalone text mode (selfClosing name attributes span)
  | elementOpen {mode name attributes span} : (∀ t ∈ attributes, Standalone text mode t) →
      Standalone text mode (elementOpen name attributes span)
  | valueAttribute {mode quotes name value valueSpan span} : (∀ t ∈ value, Standalone text mode t) →
      Standalone text mode (valueAttribute quotes name value valueSpan span)
  | tag {mode tag} : tag.Unread text mode → Standalone text mode (.tag tag)
  | statements {mode head body} : head.ReadsAlone text mode body →
      (∀ t ∈ body, Standalone text mode t) → Standalone text mode (statements head body)
  | rawTag {mode tag body} : tag.ReadsAlone text body → (∀ t ∈ body, Standalone text .tolerant t) →
      Standalone text mode (rawTag tag body)

variable {text part : List Char} {read : ReadText} {region : Region} {p : Pair Rule}

/-- Texts shorter than the length that are read in their place are read as texts of their own, and
so are the texts embedded in them. Documentation has none, so its mode does not matter. -/
def ReadsAlone (text : List Char) (length : Nat) (read : ReadText) : Prop :=
  ∀ (region : Region) (entry : Entry) (word : List Char),
    Sits text region.offset word → word.length < length →
      read region entry word =
          moved region.offset (List.map (shift region.offset)) (Token.read ⟨0, region.mode⟩ entry word) ∧
        ∀ ts, read region entry word = .ok ts → ∀ mode, (mode = region.mode ∨ entry = .doc) →
          ∀ t ∈ ts, Standalone text mode t

theorem ReadsAlone.readAlone {length : Nat} {read : ReadText} (h : ReadsAlone text length read)
    {s : Span} {mode : Mode} {entry : Entry} {word : List Char} {ts : List Token}
    (hholds : s.Holds text word) (hlength : word.length < length)
    (hts : read ⟨s.lo, mode⟩ entry word = .ok ts) :
    ReadAlone text mode entry word s ts ∧ ∀ t ∈ ts, Standalone text mode t := by
  obtain ⟨halone, hall⟩ := h ⟨s.lo, mode⟩ entry word hholds.1 hlength
  refine ⟨⟨hholds, ?_⟩, hall ts hts mode (.inl rfl)⟩
  rw [halone] at hts
  exact moved_eq_ok hts

theorem standalone_verbatim (body : List Char) (start : Nat) (mode : Mode) :
    ∀ t ∈ verbatim body start, Standalone text mode t := by
  intro t ht
  rw [mem_verbatim ht]
  exact .atom rfl

theorem standalone_tagRead {build : Tag → Token} {name : String} {markup : List Char}
    {markupSpan span : Span} {trim : Trim} {t : Token} (hread : ReadsAlone text part.length read)
    (hbuild : ∀ tag, tag.Unread text region.mode → Standalone text region.mode (build tag))
    (hliquid : name = "liquid" → LiquidMarkup text trim span markup markupSpan.lo ∧
      markupSpan.Holds text markup ∧ markup.length < part.length)
    (h : TagRead read region build name markup markupSpan trim span t) :
    Standalone text region.mode t := by
  cases h with
  | unknown hnamed =>
      apply hbuild
      intro (hname : name = "liquid")
      have hliquid : NamedTag.ofName? "liquid" = some .liquid := NamedTag.ofName?_name .liquid
      rw [hname, hliquid] at hnamed
      cases hnamed
  | known hnamed hrule _ =>
      apply hbuild
      intro (hname : name = "liquid")
      rw [(NamedTag.markupRule?_eq_none_iff hnamed).mpr hname] at hrule
      cases hrule
  | statements hname hbody =>
      obtain ⟨hmarkup, hholds, hlength⟩ := hliquid hname
      obtain ⟨halone, hall⟩ := hread.readAlone hholds hlength hbody
      exact .statements ⟨markup, hmarkup, halone⟩ hall
  | unread hname he =>
      obtain ⟨hmarkup, hholds, hlength⟩ := hliquid hname
      apply hbuild
      intro _
      refine ⟨markup, markupSpan.lo, hmarkup, rfl, ?_⟩
      obtain ⟨halone, _⟩ := hread ⟨markupSpan.lo, region.mode⟩ .statements markup hholds.1 hlength
      rw [he] at halone
      exact moved_eq_error halone.symm

theorem MarkupAt.of_parts {offset : Nat} {name name' : Pair Rule} {lead markup markup' trail : List Char} {s : Span}
    (htext : byteLength text < Span.limit) (hp : Seated text offset p) (hparts : TagParts p name lead markup trail)
    (hname : p.children.find? (isTagNameRule ·.rule) = some name') (h : MarkupAt offset p name' markup' s) :
    name' = name ∧ markup' = markup ∧ s.lo = (p.span offset).lo + byteLength lead := by
  cases hparts.name_eq.symm.trans hname
  have hplo := hp.lo_span htext
  rcases hparts.markup_eq with ⟨m, hm, rfl, hstart⟩ | ⟨hm, rfl, hstop⟩
  · cases h with
    | found hfound =>
        cases hm.symm.trans hfound
        have hmlo := (hp.child (List.mem_of_find?_eq_some hm)).lo_span htext
        exact ⟨rfl, rfl, by omega⟩
    | missing hnone => cases hm.symm.trans hnone
  · cases h with
    | found hfound => cases hm.symm.trans hfound
    | missing =>
        have hchild := hp.child (List.mem_of_find?_eq_some hname)
        have hnhi := hchild.hi_span htext
        have hlo := Span.lo_point htext hchild.boundary_stop
        refine ⟨rfl, rfl, ?_⟩
        rw [hnhi, hlo]
        omega

section Readers

variable (htext : byteLength text < Span.limit) (hread : ReadsAlone text part.length read)
  (hpart : Sits text region.offset part)

include htext hpart

/-- The markup of a `liquid` tag stands in the tag where its pairs say. -/
theorem liquidMarkup_of_parts {name : Pair Rule} {lead markup trail : List Char} {start : Nat}
    (hp : Grown grammar part p) (hparts : TagParts p name lead markup trail)
    (hname : name.string = "liquid") (hstart : start = (p.span region.offset).lo + byteLength lead) :
    LiquidMarkup text (trimOfPairs p.children) (p.span region.offset) markup start ∧
      markup.length < part.length := by
  obtain ⟨hsits, hend⟩ := Seated.fills_span htext ⟨part, hpart, hp⟩
  rw [hparts.text_eq] at hsits hend
  have hliquid : name.text = "liquid".toList := by
    rw [← hname, Pair.string, String.toList_ofList]
  have hwritten := hparts.written
  rw [hliquid] at hwritten
  refine ⟨⟨lead, trail, ⟨hsits, hend⟩, hwritten, hstart⟩, ?_⟩
  obtain ⟨before, after, hbefore, _⟩ := hp.text_eq
  have hlead := List.length_pos_iff.mpr (hwritten.lead_ne_nil (by decide))
  have hlength := congrArg List.length hbefore
  rw [hparts.text_eq] at hlength
  simp only [List.length_append] at hlength
  omega

include hread

theorem standalone_tagOfPair {build : Tag → Token} {t : Token}
    (hbuild : ∀ tag, tag.Unread text region.mode → Standalone text region.mode (build tag))
    (hp : Grown grammar part p) (hrule : p.rule ∈ Rule.markedRules)
    (hparts : ∃ name lead markup trail, TagParts p name lead markup trail)
    (h : tagOfPair read region build p = .ok t) : Standalone text region.mode t := by
  obtain ⟨name, lead, markup, trail, hparts⟩ := hparts
  have hseated : Seated text region.offset p := ⟨part, hpart, hp⟩
  obtain ⟨name', markup', markupSpan, hname, hmarkup, h⟩ := tagOfPair_parts hp hrule h
  obtain ⟨_, hholds⟩ := hmarkup.holds htext hseated (List.mem_of_find?_eq_some hname)
  obtain ⟨rfl, rfl, hlo⟩ := hmarkup.of_parts htext hseated hparts hname
  refine standalone_tagRead hread hbuild ?_ h
  intro hliquid
  obtain ⟨hmarkup, hlength⟩ := liquidMarkup_of_parts htext hpart hp hparts hliquid hlo
  exact ⟨hmarkup, hholds, hlength⟩

theorem standalone_liquidOfPair {t : Token} (hp : Grown grammar part p)
    (h : liquidOfPair read region p = .ok t) : Standalone text region.mode t := by
  have hopen : ∀ tag, tag.Unread text region.mode → Standalone text region.mode (tagOpen tag) :=
    fun tag _ => .atom rfl
  have htag : ∀ t, t.Unread text region.mode → Standalone text region.mode (tag t) :=
    fun t ht => .tag ht
  cases LiquidRead.of_pair hp h with
  | output | tagClose => exact .atom rfl
  | tagOpen hrule h =>
      refine standalone_tagOfPair htext hread hpart hopen hp (Rule.mem_markedRules_of_open hrule) ?_ h
      rcases hrule with hrule | hrule
      · exact tag_parts (r := .blockName) hp (by rw [hrule]; rfl) (by rw [hrule]; rfl) rfl
      · exact statement_parts (r := .blockName) hp (by rw [hrule]; rfl) (by rw [hrule]; rfl) rfl
  | tag hrule h =>
      refine standalone_tagOfPair htext hread hpart htag hp (Rule.mem_markedRules_of_tag hrule) ?_ h
      rcases hrule with hrule | hrule
      · exact tag_parts (r := .tagName) hp (by rw [hrule]; rfl) (by rw [hrule]; rfl) rfl
      · exact statement_parts (r := .statementName) hp (by rw [hrule]; rfl) (by rw [hrule]; rfl) rfl
  | @rawTag _ body _ _ _ _ ts hrule hchildren _ _ hts =>
      obtain ⟨_, _, _, hchildren', hlength⟩ := rawTag_body_lt hp hrule
      cases hchildren.symm.trans hchildren'
      have hbody : Seated text region.offset body := ⟨part, hpart, hp.children body (by simp [hchildren])⟩
      have hholds := hbody.fills_span htext
      rcases rawTagBody_ok hts with ⟨hname, hts⟩ | ⟨_, hts⟩ | ⟨hstyle, rfl⟩
      · obtain ⟨_, hall⟩ := hread ⟨_, region.mode⟩ _ _ hholds.1 hlength
        refine .rawTag ?_ (hall ts hts _ (.inr rfl))
        intro hstyle
        exact absurd (hname.symm.trans hstyle) (by decide)
      · obtain ⟨halone, hall⟩ := hread.readAlone hholds hlength hts
        refine .rawTag ?_ hall
        intro _
        simp only [Pair.string, String.toList_ofList]
        exact halone
      · exact .rawTag (fun hname => absurd hname hstyle) (standalone_verbatim _ _ _)
  | comment =>
      have hname : "comment" ≠ "style" := by decide
      exact .rawTag (fun h => absurd h hname) (standalone_verbatim _ _ _)

theorem standalone_valueOfPair {t : Token} (hp : Grown grammar part p)
    (h : valueOfPair read region p = .ok t) : Standalone text region.mode t := by
  cases ValueRead.of_pair h with
  | text => exact .atom rfl
  | liquid h => exact standalone_liquidOfPair htext hread hpart hp h

theorem standalone_attributeOfPair {t : Token} (hp : Grown grammar part p)
    (h : attributeOfPair read region p = .ok t) : Standalone text region.mode t := by
  cases AttributeRead.of_pair hp h with
  | @value _ _ value _ _ _ _ hchildren _ hparts =>
      have hvalue := hp.children value (by simp [hchildren])
      apply Standalone.valueAttribute
      refine forall_mapM_ok ?_ hparts
      intro q hq t ht
      exact standalone_valueOfPair htext hread hpart (hvalue.children q hq) ht
  | bare => exact .atom rfl
  | liquid h => exact standalone_liquidOfPair htext hread hpart hp h

theorem standalone_attributes {ps : List (Pair Rule)} {ts : List Token} (hp : Grown grammar part p)
    (hps : ps ⊆ p.children) (h : ps.mapM (attributeOfPair read region) = .ok ts) :
    ∀ t ∈ ts, Standalone text region.mode t := by
  refine forall_mapM_ok ?_ h
  intro q hq t ht
  exact standalone_attributeOfPair htext hread hpart (hp.children q (hps hq)) ht

theorem standalone_ofPair {t : Token} (hp : Grown grammar part p)
    (h : ofPair read region p = .ok t) : Standalone text region.mode t := by
  cases PairRead.of_pair hp h with
  | @rawElement _ _ body _ _ hrule hchildren hlast has hts =>
      obtain ⟨_, _, _, _, hlast', hlength⟩ := rawElement_body_lt hp hrule
      cases hlast.symm.trans hlast'
      have hbody : Seated text region.offset body := ⟨part, hpart, hp.children body (List.mem_of_getLast? hlast)⟩
      obtain ⟨halone, hall⟩ := hread.readAlone (hbody.fills_span htext) hlength hts
      refine .rawElement ?_ (standalone_attributes htext hread hpart hp (dropLast_subset hchildren) has) hall
      simp only [RawElement.ReadsAlone, Pair.string, String.toList_ofList]
      exact halone
  | voidElement _ hchildren has =>
      exact .voidElement (standalone_attributes htext hread hpart hp (by simp [hchildren]) has)
  | selfClosing _ hchildren _ has =>
      exact .selfClosing (standalone_attributes htext hread hpart hp (by simp [hchildren]) has)
  | elementOpen _ hchildren _ has =>
      exact .elementOpen (standalone_attributes htext hread hpart hp (by simp [hchildren]) has)
  | liquid h => exact standalone_liquidOfPair htext hread hpart hp h
  | _ => exact .atom rfl

end Readers

/-- A text that is read in its place gives what the text alone gives, moved there. -/
theorem readWithin_alone (htext : byteLength text < Span.limit) {depth : Nat} (entry : Entry)
    (hpart : Sits text region.offset part) (hdepth : part.length < depth) :
    readWithin depth region entry part =
      moved region.offset (List.map (shift region.offset)) (Token.read ⟨0, region.mode⟩ entry part) := by
  have hend := hpart.boundary_end.le
  have hmoves := moves_readWithin region.offset depth 0 region.mode entry part (by omega)
  rw [Nat.zero_add, readWithin_eq_read hdepth, readWithin_eq_read hdepth] at hmoves
  rwa [readWithin_eq_read hdepth]

theorem standalone_of_documents {mode : Mode} {t : Token} (hgrown : Grown grammar part p) (hp : p.rule.documents)
    (hend : p.rule ≠ .endOfInput) (h : ofPair read region p = .ok t) : Standalone text mode t := by
  rcases Rule.documents_cases p.rule hp hend with hrule | hrule | hrule | hrule
  · simp only [ofPair, hrule] at h
    obtain ⟨_, rfl, _⟩ := docParamOfPair_ok hgrown hrule h
    exact .atom rfl
  all_goals
    simp only [ofPair, hrule] at h
    cases h
    exact .atom rfl

/-- Texts embedded in a text that is read in its place are read as texts of their own. -/
theorem readsAlone_readWithin (htext : byteLength text < Span.limit) (depth : Nat) :
    ReadsAlone text depth (readWithin depth) := by
  induction depth with
  | zero =>
      intro region entry part _ hlength
      cases hlength
  | succ depth ih =>
      intro region entry part hpart hlength
      refine ⟨readWithin_alone htext entry hpart hlength, ?_⟩
      intro ts h mode hmode
      have hread : ReadsAlone text part.length (readWithin depth) := by
        intro region entry word hword hshorter
        exact ih region entry word hword (by omega)
      rw [readWithin] at h
      split at h
      · cases h
      · rename_i pairs hparse
        have hgrown := (Peg.Grammar.grown_parse hparse).1
        refine forall_mapM_ok ?_ h
        intro q hq t ht
        obtain ⟨hq, hend⟩ := List.mem_filter.mp hq
        obtain ⟨p, hp, hq⟩ := List.mem_flatMap.mp hq
        rcases hmode with rfl | rfl
        · exact standalone_ofPair htext hread hpart ((hgrown p hp).children q hq) ht
        · have hrule := Peg.Grammar.parse_rule hparse (by decide) p hp
          have hdocuments := docContents_children (hgrown p hp) hrule q hq
          exact standalone_of_documents ((hgrown p hp).children q hq) hdocuments (by simpa using hend) ht

/-- Texts embedded in a text are read as texts of their own. -/
theorem standalone_read (htext : byteLength text < Span.limit) {mode : Mode} {entry : Entry}
    {ts : List Token} (h : Token.read ⟨0, mode⟩ entry text = .ok ts) :
    ∀ t ∈ ts, Standalone text mode t :=
  (readsAlone_readWithin htext _ _ _ _ (Sits.self text) (Nat.lt_succ_self _)).2 ts h mode (.inl rfl)

end Token

end LiquidTemplate
