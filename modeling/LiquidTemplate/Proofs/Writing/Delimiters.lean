import LiquidTemplate.Proofs.Embedding.Reading
import LiquidTemplate.Proofs.Origin.Dash
import LiquidTemplate.Proofs.Rule.Delimiters
import LiquidTemplate.Proofs.Writing.Text

namespace LiquidTemplate

open Text Rule
open Peg (Pair Grown)

/-- In the source, the tag is its delimiters, its dashes just as the flags say, its name and its markup, with
blanks between them, and the markup stands where its span says. -/
structure TagWritten (source : String) (name : List Char) (markupSpan : Span) (trim : Trim) (span : Span) :
    Prop where
  text_eq : ∃ before between after lead, (∀ x ∈ before ++ between ++ after, x ∈ spaceLetters) ∧
    lead = ['{', '%'] ++ dash trim.before ++ before ++ name ++ between ∧
    (span.slice source).toList =
      lead ++ (markupSpan.slice source).toList ++ after ++ dash trim.after ++ ['%', '}'] ∧
    markupSpan.lo = span.lo + byteLength lead
  flagged : Flagged ['{', '%'] ['%', '}'] trim (span.slice source).toList
  markup : MarkupText ['%', '}'] (markupSpan.slice source).toList

/-- What was read from the markup: a variable, which is all of it, or else its text, less white space of any
kind at its ends. -/
def OutputMarkup.ReadFrom (markup : List Char) : OutputMarkup → Prop
  | .value v => v.source.toList = markup
  | .raw text => text = Token.trimmed markup

/-- In the source, the output is its delimiters, its dashes just as the flags say, and its markup, with blanks
between them. -/
def Output.Written (source : String) (o : Output) : Prop :=
  ∃ markup, Enclosed ['{', '{'] ['}', '}'] o.trim markup (o.span.slice source).toList ∧
    MarkupText ['}', '}'] markup ∧ o.markup.ReadFrom markup

namespace Token

def pieces : Token → List Piece
  | selfClosing name _ _ | elementOpen name _ _ | elementClose name _ | valueAttribute _ name _ _ _
  | bareAttribute name _ => name
  | _ => []

def Written (source : String) : Token → Prop
  | tagOpen t | tag t => TagWritten source t.name.toList t.markupSpan t.trim t.span
  | statements s _ => TagWritten source "liquid".toList s.markupSpan s.trim s.span
  | tagClose c =>
    Enclosed ['{', '%'] ['%', '}'] c.trim ("end".toList ++ c.name.toList) (c.span.slice source).toList
  | output o => o.Written source
  | t => ∀ o, Piece.output o ∈ t.pieces → o.Written source

inductive Exposed (P : Token → Prop) : Token → Prop
  | statements {head body} : P (statements head body) → Exposed P (statements head body)
  | mk {t : Token} : P t → (∀ u ∈ t.nested, Exposed P u) → Exposed P t

end Token

def Rule.isStatement : Rule → Bool
  | liquidTagContents | statementComment | statementClose | statementOpen | statementTag => true
  | _ => false

theorem not_isStatement_places (r : Rule) (hr : r.isStatement = false) :
    ∀ place ∈ r.places, ∀ s ∈ place.rules, s.isStatement = false := by
  revert hr
  cases r <;> decide

structure Freestanding (text : List Char) (offset : Nat) (p : Pair Rule) : Prop where
  seated : Seated text offset p
  rule : p.rule.isStatement = false

theorem Freestanding.child {text : List Char} {offset : Nat} {p q : Pair Rule} (h : Freestanding text offset p)
    (hp : (grammar.kind p.rule).branches) (hq : q ∈ p.children) : Freestanding text offset q := by
  refine ⟨h.seated.child hq, ?_⟩
  obtain ⟨_, _, hgrown⟩ := h.seated
  exact (arranged_children hgrown rfl hp).forall_rules (not_isStatement_places p.rule h.rule) q hq

namespace Token

variable {source : String} {read : ReadText} {region : Region} {p : Pair Rule} {t : Token}

/-- Every text that is read in its place gives tokens that are written as they should be, statements apart. -/
def ReadsWritten (source : String) (read : ReadText) : Prop :=
  ∀ (region : Region) (entry : Entry) (part : List Char) (ts : List Token), entry ≠ .statements →
    Sits source.toList region.offset part → read region entry part = .ok ts → ∀ t ∈ ts, t.Exposed (Written source)

theorem exposed_text (run : TextRun) : Exposed (Written source) (text run) := by
  constructor
  · rintro o ⟨⟩
  · rintro u ⟨⟩

theorem exposed_verbatim (body : List Char) (start : Nat) :
    ∀ t ∈ verbatim body start, Exposed (Written source) t := by
  intro t ht
  rw [mem_verbatim ht]
  exact exposed_text _

/-- A variable that is read from the markup of an output is all of it, and has no white space at its ends. -/
theorem value_outputMarkup {text : List Char} {v : Variable} (hp : Grown grammar text p)
    (hrule : p.rule = .dropMarkup) (h : outputMarkup region p = .ok (.value v)) :
    v.source.toList = p.text ∧ trim p.text = p.text := by
  have hmarkup := trimmed_markup hp (by simp [Rule.isMarkup, hrule])
  obtain heq | ⟨q, value, rest, v, hq, hparts, hv, heq⟩ := outputMarkup_ok h
  · cases heq
  · cases heq
    obtain ⟨pairs, hparse⟩ := Markup.parse_of_matchRule hq
    obtain ⟨_, _, hpairs, hparts', htext⟩ := text_markupVariable hmarkup hparse
    cases hpairs
    cases hparts.symm.trans hparts'
    obtain ⟨_, _, hpairs, hparts', _, htrim⟩ := parts_markupVariable hmarkup hparse
    cases hpairs
    cases hparts.symm.trans hparts'
    rw [Variable.source_ofPair hv, Pair.string, String.toList_ofList, ← htext]
    exact ⟨rfl, htrim⟩

theorem readFrom_outputMarkup {m : OutputMarkup} (hp : Seated source.toList region.offset p)
    (hrule : p.rule = .dropMarkup) (h : outputMarkup region p = .ok m) : m.ReadFrom p.text := by
  obtain ⟨_, _, hgrown⟩ := hp
  cases m with
  | value v => exact (value_outputMarkup hgrown hrule h).1
  | raw word =>
      rcases outputMarkup_ok h with heq | ⟨_, _, _, _, _, _, _, heq⟩
      · cases heq
        rfl
      · cases heq

section Readers

variable (hsource : byteLength source.toList < Span.limit)

include hsource

theorem written_outputOfPair {o : Output} (hp : Seated source.toList region.offset p) (hrule : p.rule = .liquidDrop)
    (h : outputOfPair region p = .ok o) : o.Written source := by
  have hslice := (hp.fills_span hsource).slice_eq
  have ⟨_, _, hgrown⟩ := hp
  obtain ⟨markup, henclosed, hmarkup, hfound⟩ := output_written hgrown hrule
  obtain ⟨m, rfl, hread⟩ := outputOfPair_ok hgrown hrule h
  refine ⟨markup, ?_, hmarkup, ?_⟩
  · rwa [hslice, String.toList_ofList]
  · rcases hfound with ⟨q, hq, rfl⟩ | ⟨hq, rfl⟩
    · rw [hq] at hread
      obtain ⟨q, hq', hm⟩ | ⟨hq', _⟩ := hread
      · cases hq'
        have hrule := List.find?_some hq
        exact readFrom_outputMarkup (hp.child (List.mem_of_find?_eq_some hq)) (by simpa using hrule) hm
      · cases hq'
    · rw [hq] at hread
      obtain ⟨_, hq', _⟩ | ⟨_, rfl⟩ := hread
      · cases hq'
      · rfl

theorem written_nameOfPair {name : List Piece} (hp : Seated source.toList region.offset p)
    (h : nameOfPair region p = .ok name) : ∀ o, Piece.output o ∈ name → o.Written source := by
  intro o ho
  obtain ⟨q, hq, hpiece⟩ := mem_mapM_ok h ho
  rcases pieceOfPair_cases hpiece with ⟨hrule, o', ho', heq⟩ | ⟨_, heq⟩
  · cases heq
    exact written_outputOfPair hsource (hp.child hq) hrule ho'
  · cases heq

theorem exposed_tagOfPair {build : Tag → Token} {r : Rule} (hp : Seated source.toList region.offset p)
    (hrule : p.rule ∈ [liquidTagOpen, liquidTag]) (hbody : grammar.body p.rule = tagBody r)
    (hr : r ∈ [blockName, tagName])
    (hbuild : ∀ tag, TagWritten source tag.name.toList tag.markupSpan tag.trim tag.span →
      Exposed (Written source) (build tag))
    (h : tagOfPair read region build p = .ok t) : Exposed (Written source) t := by
  have hslice := (hp.fills_span hsource).slice_eq
  have ⟨_, _, hgrown⟩ := hp
  obtain ⟨_, before, between, _, after, hblanks, hmarkup, hflagged, hparts⟩ := tag_spelled hgrown hbody hrule hr
  have hmarked : ∀ r ∈ [liquidTagOpen, liquidTag], r ∈ markedRules := by decide
  obtain ⟨name, markup, markupSpan, hname, hplace, h⟩ := tagOfPair_parts hgrown (hmarked _ hrule) h
  obtain ⟨_, hholds⟩ := hplace.holds hsource hp (List.mem_of_find?_eq_some hname)
  obtain ⟨rfl, rfl, hlo⟩ := hplace.of_parts hsource hp hparts hname
  have hwritten : TagWritten source name.string.toList markupSpan (trimOfPairs p.children) (p.span region.offset) := by
    refine ⟨⟨before, between, after, _, hblanks, rfl, ?_, ?_⟩, ?_, ?_⟩
    · rw [hslice, String.toList_ofList, hparts.text_eq, hholds.slice_eq, String.toList_ofList]
      simp [Pair.string]
    · rw [hlo, Pair.string, String.toList_ofList]
    · rwa [hslice, String.toList_ofList]
    · rwa [hholds.slice_eq, String.toList_ofList]
  cases h with
  | unknown | known | unread => exact hbuild _ hwritten
  | statements hliquid =>
      rw [hliquid] at hwritten
      exact .statements hwritten

theorem written_tagClose {name : Pair Rule} (hp : Seated source.toList region.offset p)
    (hrule : p.rule = .liquidTagClose)
    (hname : p.children.find? (isTagNameRule ·.rule) = some name) :
    Written source (.tagClose ⟨name.string, trimOfPairs p.children, p.span region.offset⟩) := by
  have hslice := (hp.fills_span hsource).slice_eq
  have ⟨_, _, hgrown⟩ := hp
  obtain ⟨_, hname', hwritten⟩ := close_written hgrown hrule
  cases hname.symm.trans hname'
  simpa [Written, hslice, Pair.string] using hwritten

variable (hread : ReadsWritten source read)

include hread

omit hsource in
theorem exposed_rawTagBody {name : String} {body : List Char} {start : Nat} {ts : List Token}
    (hsits : Sits source.toList start body) (h : rawTagBody read region name body start = .ok ts) :
    ∀ t ∈ ts, Exposed (Written source) t := by
  rcases rawTagBody_ok h with ⟨_, h⟩ | ⟨_, h⟩ | ⟨_, rfl⟩
  · exact hread _ _ _ _ (by decide) hsits h
  · exact hread _ _ _ _ (by decide) hsits h
  · exact exposed_verbatim _ _

theorem exposed_liquidOfPair (hp : Freestanding source.toList region.offset p)
    (h : liquidOfPair read region p = .ok t) : Exposed (Written source) t := by
  have hstatement : ∀ r : Rule, r.isStatement → p.rule ≠ r := by
    rintro r hr rfl
    exact Bool.false_ne_true (hp.rule.symm.trans hr)
  obtain ⟨_, _, hgrown⟩ := hp.seated
  cases LiquidRead.of_pair hgrown h with
  | output hrule ho => exact .mk (written_outputOfPair hsource hp.seated hrule ho) (by rintro u ⟨⟩)
  | tagOpen hrule h =>
      have hrule := hrule.resolve_right (hstatement _ rfl)
      refine exposed_tagOfPair (r := .blockName) hsource hp.seated (by simp [hrule]) (by rw [hrule]; rfl) (by simp) ?_ h
      exact fun tag htag => .mk htag (by rintro u ⟨⟩)
  | tag hrule h =>
      have hrule := hrule.resolve_right (hstatement _ rfl)
      refine exposed_tagOfPair (r := .tagName) hsource hp.seated (by simp [hrule]) (by rw [hrule]; rfl) (by simp) ?_ h
      exact fun tag htag => .mk htag (by rintro u ⟨⟩)
  | tagClose hrule hname =>
      have hrule := hrule.resolve_right (hstatement _ rfl)
      exact .mk (written_tagClose hsource hp.seated hrule hname) (by rintro u ⟨⟩)
  | @rawTag _ body _ _ _ _ _ _ hchildren _ _ hts =>
      have hbody : Seated source.toList region.offset body := hp.seated.child (by simp [hchildren])
      exact .mk (by rintro o ⟨⟩) (exposed_rawTagBody hread (hbody.fills_span hsource).1 hts)
  | comment hrule => exact absurd hrule (hstatement _ rfl)

theorem exposed_valueOfPair (hp : Freestanding source.toList region.offset p)
    (h : valueOfPair read region p = .ok t) : Exposed (Written source) t := by
  cases ValueRead.of_pair h with
  | text => exact exposed_text _
  | liquid h => exact exposed_liquidOfPair hsource hread hp h

theorem exposed_attributeOfPair (hp : Freestanding source.toList region.offset p)
    (h : attributeOfPair read region p = .ok t) : Exposed (Written source) t := by
  obtain ⟨_, _, hgrown⟩ := hp.seated
  cases AttributeRead.of_pair hgrown h with
  | @value _ name value _ _ _ hrule hchildren hpieces hparts =>
      have hvalue : value ∈ p.children := by simp [hchildren]
      have hkind : ∀ r ∈ [attrDoubleQuoted, attrSingleQuoted, attrUnquoted], (grammar.kind r).branches := by decide
      have hkind' : ∀ r ∈ [attrName, attrDqValue, attrSqValue, attrUqValue], (grammar.kind r).branches := by decide
      have hvalueRule : value.rule ∈ [attrName, attrDqValue, attrSqValue, attrUqValue] :=
        children_within hgrown hrule _ (by decide) value hvalue
      refine .mk (written_nameOfPair hsource (hp.seated.child (by simp [hchildren])) hpieces) ?_
      refine forall_mapM_ok ?_ hparts
      intro q hq _
      exact exposed_valueOfPair hsource hread ((hp.child (hkind _ hrule) hvalue).child (hkind' _ hvalueRule) hq)
  | bare _ hchildren hpieces =>
      exact .mk (written_nameOfPair hsource (hp.seated.child (by simp [hchildren])) hpieces) (by rintro u ⟨⟩)
  | liquid h => exact exposed_liquidOfPair hsource hread hp h

theorem exposed_attributes {ps : List (Pair Rule)} {ts : List Token} (hp : Freestanding source.toList region.offset p)
    (hkind : (grammar.kind p.rule).branches) (hps : ps ⊆ p.children)
    (h : ps.mapM (attributeOfPair read region) = .ok ts) : ∀ t ∈ ts, Exposed (Written source) t := by
  refine forall_mapM_ok ?_ h
  intro q hq _
  exact exposed_attributeOfPair hsource hread (hp.child hkind (hps hq))

theorem exposed_ofPair (hp : Freestanding source.toList region.offset p) (h : ofPair read region p = .ok t) :
    Exposed (Written source) t := by
  obtain ⟨_, _, hgrown⟩ := hp.seated
  cases PairRead.of_pair hgrown h with
  | text => exact exposed_text _
  | @rawElement _ _ body _ _ hrule hchildren hlast has hts =>
      have hbody : Seated source.toList region.offset body := hp.seated.child (List.mem_of_getLast? hlast)
      refine .mk (by rintro o ⟨⟩) (List.forall_mem_append.mpr ⟨?_, ?_⟩)
      · exact exposed_attributes hsource hread hp (by rw [hrule]; rfl) (dropLast_subset hchildren) has
      · exact hread _ _ _ _ (by decide) (hbody.fills_span hsource).1 hts
  | voidElement hrule hchildren has =>
      refine .mk (by rintro o ⟨⟩) ?_
      exact exposed_attributes hsource hread hp (by rw [hrule]; rfl) (by simp [hchildren]) has
  | selfClosing hrule hchildren hpieces has | elementOpen hrule hchildren hpieces has =>
      refine .mk (written_nameOfPair hsource (hp.seated.child (by simp [hchildren])) hpieces) ?_
      exact exposed_attributes hsource hread hp (by rw [hrule]; rfl) (by simp [hchildren]) has
  | elementClose _ hchildren hpieces =>
      exact .mk (written_nameOfPair hsource (hp.seated.child (by simp [hchildren])) hpieces) (by rintro u ⟨⟩)
  | liquid h => exact exposed_liquidOfPair hsource hread hp h
  | frontmatter | doctype | comment | docParam | docExample | docDescription =>
      exact .mk (by rintro o ⟨⟩) (by rintro u ⟨⟩)

end Readers

theorem readsWritten_readWithin (hsource : byteLength source.toList < Span.limit) (depth : Nat) :
    ReadsWritten source (readWithin depth) := by
  induction depth with
  | zero =>
      intro region entry part ts _ _ h
      cases h
  | succ depth ih =>
      intro region entry part ts hentry hpart h t ht
      rw [readWithin] at h
      split at h
      · cases h
      · rename_i pairs hparse
        have hkind : (grammar.kind entry.startRule).branches := by cases entry <;> rfl
        obtain ⟨p, _, rfl, hrule, _⟩ := Peg.Grammar.parse_ok hparse hkind
        obtain ⟨q, hq, ht⟩ := mem_mapM_ok h ht
        obtain ⟨p', hp, hchild⟩ := List.mem_flatMap.mp (List.mem_filter.mp hq).1
        obtain rfl := List.mem_singleton.mp hp
        have hroot : Freestanding source.toList region.offset p' := by
          refine ⟨⟨part, hpart, (Peg.Grammar.grown_parse hparse).1 _ hp⟩, ?_⟩
          rw [hrule]
          cases entry with
          | statements => exact absurd rfl hentry
          | _ => rfl
        exact exposed_ofPair hsource ih (hroot.child (by rw [hrule]; exact hkind) hchild) ht

/-- In a document, the delimiters, dashes, names and markups of Liquid are all that it is written with. -/
theorem written_read {mode : Mode} {html : Bool} {ts : List Token} (hsource : byteLength source.toList < Span.limit)
    (h : Token.read ⟨0, mode⟩ (documentEntry html) source.toList = .ok ts) :
    ∀ t ∈ ts, t.Exposed (Written source) := by
  refine readsWritten_readWithin hsource _ _ _ _ _ ?_ (Sits.self _) h
  cases html <;> decide

def dashedText : String :=
  "\x7b%-if a-b --%\x7d<\x7b\x7b-t-\x7d\x7d x=\x22\x7b\x7b- y -- \x7d\x7d\x22 \x7b% \t echo- z%\x7d>" ++
    "\x7b%style%\x7d\x7b\x7b-\x7d\x7d\x7b%endstyle%\x7d\x7b%- endif-%\x7d"

theorem written_dashedText :
    byteLength dashedText.toList < Span.limit ∧
      ∃ ts, Token.read ⟨0, .tolerant⟩ (documentEntry true) dashedText.toList = .ok ts ∧
        ts.map Token.span = [.between 0 14, .between 14 54, .between 54 80, .between 80 92] ∧
        ∀ t ∈ ts, t.Exposed (Written dashedText) := by
  have hsource : byteLength dashedText.toList < Span.limit := by decide +kernel
  have hspans : (Token.read ⟨0, .tolerant⟩ (documentEntry true) dashedText.toList).toOption.map (List.map Token.span) =
      some [.between 0 14, .between 14 54, .between 54 80, .between 80 92] := by decide +kernel
  cases h : Token.read ⟨0, .tolerant⟩ (documentEntry true) dashedText.toList with
  | error e =>
      rw [h] at hspans
      cases hspans
  | ok ts =>
      rw [h] at hspans
      exact ⟨hsource, ts, rfl, Option.some.inj hspans, written_read hsource h⟩

end Token

end LiquidTemplate
