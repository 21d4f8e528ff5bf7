import LiquidTemplate.Proofs.Embedding.Depth
import LiquidTemplate.Proofs.Fallback.Markup
import LiquidTemplate.Proofs.Token.Reader

namespace LiquidTemplate

open Text Rule
open Peg (Pair Grown)

variable {text part : List Char} {size base offset : Nat} {p q : Pair Rule}

namespace Rule

def outputless : List Rule :=
  [statementComment, statementClose, statementOpen, statementTag, docParam, docExample, docDescription, docText]

def liquidRules : List Rule :=
  liquidParts ++ [statementComment, statementClose, statementOpen, statementTag]

def plainRules : List Rule :=
  [textNode, liquidTextNode, docText, yamlFrontmatter, htmlDoctype, htmlComment, htmlRawTag,
    htmlVoidElement, htmlSelfClosing, htmlTagOpen, htmlTagClose, docParam, docExample, docDescription]

end Rule

/-- The pair comes from a part of a text that starts at `base`.  The part is the whole text, unless the
pair holds no outputs. -/
def Stands (size : Nat) (text : List Char) (base offset : Nat) (p : Pair Rule) : Prop :=
  ∃ part, Grown grammar part p ∧ part.length ≤ size ∧ part <:+: text ∧
    (p.rule ∉ outputless → part = text ∧ offset = base)

namespace Stands

theorem part_child (h : Stands size text base offset p) (hq : q ∈ p.children) : q.text <:+: text := by
  obtain ⟨part, hp, _, hpart, _⟩ := h
  obtain ⟨before, after, htext, _⟩ := (hp.children q hq).text_eq
  exact List.IsInfix.trans ⟨before, after, by rw [htext, List.append_assoc]⟩ hpart

theorem grown (h : Stands size text base offset p) (hp : p.rule ∉ outputless) :
    Grown grammar text p ∧ offset = base := by
  obtain ⟨part, hgrown, _, _, hhere⟩ := h
  obtain ⟨rfl, hoffset⟩ := hhere hp
  exact ⟨hgrown, hoffset⟩

theorem child (h : Stands size text base offset p) (hp : p.rule ∉ outputless) (hq : q ∈ p.children) :
    Stands size text base offset q := by
  obtain ⟨part, hgrown, hsize, hpart, hhere⟩ := h
  exact ⟨part, hgrown.children q hq, hsize, hpart, fun _ => hhere hp⟩

end Stands

namespace Token

abbrev LenientToken (text : List Char) (base : Nat) (f : Mode → Except Error Token) : Prop :=
  Lenient (byteLength text < Span.limit) (Token.Alike text) (Token.Structured text base) f

abbrev LenientTokens (text : List Char) (base : Nat) (f : Mode → Except Error (List Token)) : Prop :=
  Lenient (byteLength text < Span.limit) (List.Forall₂ (Token.Alike text))
    (fun ts => ∀ t ∈ ts, t.Structured text base) f

/-- Texts that are shorter than `size` are read leniently.  The reading of documentation is the same in
each mode. -/
structure ReadsLeniently (size : Nat) (read : ReadText) : Prop where
  lenient {text part : List Char} (base offset : Nat) (entry : Entry) : part.length < size → part <:+: text →
    (entry ∈ [.liquidHtml, .liquid] → part = text ∧ offset = base) →
    LenientTokens text base fun mode => read ⟨offset, mode⟩ entry part
  doc (offset : Nat) (mode mode' : Mode) (part : List Char) :
    read ⟨offset, mode⟩ .doc part = read ⟨offset, mode'⟩ .doc part

theorem lenient_outputOfPair (hp : Stands size text base offset p) (hrule : p.rule = .liquidDrop) :
    Lenient (byteLength text < Span.limit) (Output.Alike text) (Output.Structured text base)
      fun mode => outputOfPair ⟨offset, mode⟩ p := by
  obtain ⟨hgrown, rfl⟩ := hp.grown (by rw [hrule]; decide)
  simp only [fun mode => outputOfPair_eq ⟨offset, mode⟩ hgrown hrule]
  cases hmarkup : p.children.find? (·.rule == .dropMarkup) with
  | some m =>
      have hmem := List.mem_of_find?_eq_some hmarkup
      refine (lenient_outputMarkup (hp.part_child hmem) offset).map ?_ ?_ ?_
      · intro a b h
        exact ⟨rfl, rfl, h⟩
      · intro a ha part hpart
        exact absurd hpart (ha part)
      · rintro htext a ha part rfl
        have hno := not_marked_of_hollow_span hgrown hrule htext (ha part rfl)
        exact hno m hmem (by simpa using List.find?_some hmarkup)
  | none =>
      refine .ok ⟨rfl, rfl, .inl rfl⟩ fun part _ => hollow_span hgrown hrule fun q hq => ?_
      simpa using List.find?_eq_none.mp hmarkup q hq

theorem lenient_pieceOfPair (hp : Stands size text base offset p)
    (hrule : p.rule ∈ [.liquidDrop, .nameText, .attrNameText]) :
    Lenient (byteLength text < Span.limit) (Piece.Alike text) (Piece.Structured text base)
      fun mode => pieceOfPair ⟨offset, mode⟩ p := by
  simp only [List.mem_cons, List.not_mem_nil, or_false] at hrule
  rcases hrule with hrule | hrule | hrule
  · simp only [pieceOfPair, hrule]
    exact (lenient_outputOfPair hp hrule).map (fun _ _ => .output) (fun _ h => h) fun _ _ h => h
  · simp only [pieceOfPair, hrule]
    exact .ok (.text _) trivial
  · simp only [pieceOfPair, hrule]
    exact .ok (.text _) trivial

theorem lenient_nameOfPair (hp : Stands size text base offset p) (hrule : p.rule ∈ [htmlName, attrName]) :
    Lenient (byteLength text < Span.limit) (List.Forall₂ (Piece.Alike text))
      (fun name => ∀ piece ∈ name, piece.Structured text base) fun mode => nameOfPair ⟨offset, mode⟩ p := by
  have hplain : ∀ r ∈ [htmlName, attrName], r ∉ outputless := by decide
  have hpieces := children_within (hp.grown (hplain _ hrule)).1 hrule
    [.liquidDrop, .nameText, .attrNameText] (by decide)
  exact .mapM fun q hq => lenient_pieceOfPair (hp.child (hplain _ hrule) hq) (hpieces q hq)

/-- Statements that cannot be read are kept as text, but not in strict mode. -/
theorem outcomes_statements {room : Prop} {x y z : Except Error (List Token)} {kept : Token}
    (head : Statements) (hkept : ¬kept.Structured text base) :
    Outcomes room (List.Forall₂ (Token.Alike text)) (fun ts => ∀ t ∈ ts, t.Structured text base) x y z →
    Outcomes room (Token.Alike text) (Token.Structured text base)
      (match x with | .ok body => .ok (.statements head body) | .error e => .error e)
      (match y with | .ok body => .ok (.statements head body) | .error _ => .ok kept)
      (match z with | .ok body => .ok (.statements head body) | .error _ => .ok kept) := by
  intro h
  cases h with
  | read h hstructured => exact .read (.statements head h) (allStructured_iff.mpr hstructured)
  | kept he h hno =>
      exact .kept he (.statements head h) fun hroom hall => hno hroom (allStructured_iff.mp hall)
  | failed he _ => exact .kept he (.same kept) fun _ => hkept

theorem structured_verbatim (body : List Char) (start : Nat) :
    ∀ t ∈ verbatim body start, t.Structured text base := by
  intro t ht
  rw [mem_verbatim ht]
  trivial

theorem lenient_tagCloseOfPair (hp : Stands size text base offset p)
    (hrule : p.rule = liquidTagClose ∨ p.rule = statementClose) :
    LenientToken text base fun _ => tagCloseOfPair offset p := by
  obtain ⟨part, hgrown, _⟩ := hp
  obtain ⟨name, _, heq⟩ := tagCloseOfPair_eq hgrown hrule
  simp only [heq]
  exact .ok (.same _) trivial

theorem lenient_commentOfPair (hp : Stands size text base offset p) (hrule : p.rule = .statementComment) :
    LenientToken text base fun _ => commentOfPair offset p := by
  obtain ⟨part, hgrown, _⟩ := hp
  obtain ⟨body, _, heq⟩ := commentOfPair_eq hgrown hrule
  simp only [heq]
  exact .ok (.same _) fun _ => allStructured_iff.mpr (structured_verbatim _ _)

theorem lenient_docParamOfPair (hp : Stands size text base offset p) (hrule : p.rule = .docParam) :
    LenientToken text base fun _ => docParamOfPair offset p := by
  obtain ⟨part, hgrown, _⟩ := hp
  obtain ⟨name, _, heq⟩ := docParamOfPair_eq hgrown hrule
  simp only [heq]
  exact .ok (.same _) trivial

theorem lenient_closingOfPair (read : ReadText) (hp : Stands size text base offset p)
    (hrule : p.rule = .htmlTagClose) :
    LenientToken text base fun mode =>
      elementOfPair read ⟨offset, mode⟩ (fun name _ span => .elementClose name span) p := by
  have hplain : p.rule ∉ outputless := by rw [hrule]; decide
  obtain ⟨hgrown, _⟩ := hp.grown hplain
  obtain ⟨name, _, hchildren, hname, rfl⟩ := arranged_children hgrown hrule rfl
  obtain ⟨name', _, hchildren', _, _, heq⟩ := elementOfPair_eq hgrown (by simp [hrule])
  rw [hchildren] at hchildren'
  cases hchildren'
  have hstands : Stands size text base offset name := hp.child hplain (by simp [hchildren])
  simp only [heq, List.mapM_nil, bind_pure_comp]
  exact (lenient_nameOfPair hstands (by simp [List.mem_singleton.mp hname])).map
    (fun _ _ => .elementClose _) (fun _ h => h) fun _ _ h => h

section Readers

variable {read : ReadText} (hread : ReadsLeniently size read)

include hread

theorem lenient_tagOfParts {build : Tag → Token} {name : String} {markup : List Char} {markupSpan span : Span}
    {trim : Trim} (hbuild : build = .tagOpen ∨ build = .tag) (hmarkup : markup <:+: text)
    (hlt : markup.length < size) :
    LenientToken text base fun mode =>
      tagOfParts read ⟨offset, mode⟩ build name markup markupSpan trim span := by
  have halike : ∀ {t t' : Tag}, t.Alike text t' → (build t).Alike text (build t') := by
    intro t t' h
    rcases hbuild with rfl | rfl
    · exact .tagOpen h
    · exact .tag h
  have hstructured : ∀ t : Tag, (build t).Structured text base ↔ t.Structured := by
    intro t
    rcases hbuild with rfl | rfl <;> rfl
  unfold tagOfParts
  cases hnamed : NamedTag.ofName? name with
  | none =>
      refine .ok (.same _) ((hstructured _).mpr fun hsome => ?_)
      exact absurd hnamed hsome
  | some named =>
      have hregistered : NamedTag.ofName? name ≠ none := by simp [hnamed]
      cases hrule : named.markupRule? with
      | some rule =>
          simp only [hrule]
          refine (Markup.lenient_read hrule hmarkup offset markupSpan.lo).map ?_ ?_ ?_
          · intro m m' h
            exact halike ⟨rfl, rfl, rfl, rfl, h⟩
          · intro m hm
            exact (hstructured _).mpr fun _ => hm
          · intro _ m hm
            exact (hstructured _).mp hm hregistered
      | none =>
          simp only [hrule]
          have hkept : ¬(build ⟨name, .text (trimmed markup), markupSpan, trim, span⟩).Structured text base :=
            fun hkept => (hstructured _).mp hkept hregistered _ rfl
          exact outcomes_statements ⟨markupSpan, trim, span⟩ hkept
            (hread.lenient base markupSpan.lo .statements hlt hmarkup (by simp))

theorem lenient_tagOfPair {build : Tag → Token} (hbuild : build = .tagOpen ∨ build = .tag)
    (hp : Stands size text base offset p) (hrule : p.rule ∈ markedRules) :
    LenientToken text base fun mode => tagOfPair read ⟨offset, mode⟩ build p := by
  obtain ⟨part, hgrown, hsize, hpart, _⟩ := id hp
  obtain ⟨name, hname⟩ := find_name hgrown (List.mem_append_left _ hrule)
  have hmem := List.mem_of_find?_eq_some hname
  have hnamed := List.find?_some hname
  have hsolid : name.rule.solid := solid_of_isTagNameRule _ hnamed
  cases hmarkup : p.children.find? (isTagMarkupRule ·.rule) with
  | some m =>
      have hmem' := List.mem_of_find?_eq_some hmarkup
      have hne : name.rule ≠ m.rule := by
        intro heq
        have hm := List.find?_some hmarkup
        rw [← heq, not_isTagMarkupRule _ hnamed] at hm
        cases hm
      have hlt := length_lt_of_beside hgrown hmem hmem' hne hsolid
      have htag : ∀ mode, tagOfPair read ⟨offset, mode⟩ build p = tagOfParts read ⟨offset, mode⟩ build name.string
          m.text (m.span offset) (trimOfPairs p.children) (p.span offset) :=
        fun _ => tagOfPair_eq hgrown hrule hname (.found hmarkup)
      simp only [htag]
      exact lenient_tagOfParts hread hbuild (hp.part_child hmem') (by omega)
  | none =>
      have hpos := text_pos (hgrown.children name hmem) hsolid
      have htag : ∀ mode, tagOfPair read ⟨offset, mode⟩ build p = tagOfParts read ⟨offset, mode⟩ build name.string
          [] (.point (name.span offset).hi) (trimOfPairs p.children) (p.span offset) :=
        fun _ => tagOfPair_eq hgrown hrule hname (.missing hmarkup)
      simp only [htag]
      exact lenient_tagOfParts hread hbuild List.nil_infix (by rw [List.length_nil]; omega)

theorem errorsIn_rawBody {body : List Char} (hlt : body.length < size) (start : Nat) :
    ErrorsIn Error.Syntactic (read ⟨start, .tolerant⟩ .liquid body) :=
  (hread.lenient start start .liquid hlt List.infix_rfl fun _ => ⟨rfl, rfl⟩).errorsIn .tolerant

/-- The body of a raw tag is the same in each mode. -/
theorem lenient_rawTagBody {body : List Char} (hbody : body <:+: text) (hlt : body.length < size)
    (base offset start : Nat) (name : String) :
    Lenient (byteLength text < Span.limit) Eq
      (fun ts => name ≠ "style" → ∀ t ∈ ts, t.Structured text base)
      fun mode => rawTagBody read ⟨offset, mode⟩ name body start := by
  unfold rawTagBody
  -- documentation is read the same in each mode, and a style sheet tolerantly in each
  split
  · have hdoc := hread.lenient base start .doc hlt hbody (by simp)
    simp only [fun mode => hread.doc start mode .tolerant body] at hdoc ⊢
    exact hdoc.of_same fun _ h _ => h
  · refine .same (errorsIn_rawBody hread hlt start) fun ts _ => ⟨rfl, ?_⟩
    intro h
    exact absurd rfl h
  · exact .ok rfl fun _ => structured_verbatim _ _

theorem lenient_rawTagOfPair (hp : Stands size text base offset p) (hrule : p.rule = .liquidRawTag) :
    LenientToken text base fun mode => rawTagOfPair read ⟨offset, mode⟩ p := by
  obtain ⟨part, hgrown, hsize, hpart, _⟩ := id hp
  obtain ⟨opening, body, closing, name, hchildren, hopening, hbody, _, _, heq⟩ := rawTagOfPair_eq hgrown hrule
  have hlt : body.text.length < part.length := by
    have hmem : opening ∈ p.children := by simp [hchildren]
    apply length_lt_of_beside hgrown hmem (by simp [hchildren])
    · rw [hopening, hbody]
      decide
    · rw [hopening]
      rfl
  simp only [heq, bind_pure_comp]
  have hbody : body.text <:+: text := hp.part_child (by simp [hchildren])
  have htokens := lenient_rawTagBody hread hbody (by omega) base offset (body.span offset).lo name.string
  refine htokens.map ?_ ?_ ?_
  · rintro a _ rfl
    exact .same _
  · intro ts h hstyle
    exact allStructured_iff.mpr (h hstyle)
  · intro _ ts h hstyle
    exact allStructured_iff.mp (h hstyle)

theorem lenient_liquidOfPair (hp : Stands size text base offset p) (hrule : p.rule ∈ liquidRules) :
    LenientToken text base fun mode => liquidOfPair read ⟨offset, mode⟩ p := by
  unfold liquidOfPair
  simp only [liquidRules, liquidParts, List.cons_append, List.nil_append, List.mem_cons, List.not_mem_nil,
    or_false] at hrule
  rcases hrule with hrule | hrule | hrule | hrule | hrule | hrule | hrule | hrule | hrule
  · simp only [hrule]
    exact lenient_rawTagOfPair hread hp hrule
  · simp only [hrule]
    exact lenient_tagCloseOfPair hp (by simp [hrule])
  · simp only [hrule]
    exact lenient_tagOfPair hread (.inl rfl) hp (mem_markedRules_of_open (.inl hrule))
  · simp only [hrule]
    exact lenient_tagOfPair hread (.inr rfl) hp (mem_markedRules_of_tag (.inl hrule))
  · simp only [hrule]
    exact (lenient_outputOfPair hp hrule).map (fun _ _ => .output) (fun _ h => h) fun _ _ h => h
  · simp only [hrule]
    exact lenient_commentOfPair hp hrule
  · simp only [hrule]
    exact lenient_tagCloseOfPair hp (by simp [hrule])
  · simp only [hrule]
    exact lenient_tagOfPair hread (.inl rfl) hp (mem_markedRules_of_open (.inr hrule))
  · simp only [hrule]
    exact lenient_tagOfPair hread (.inr rfl) hp (mem_markedRules_of_tag (.inr hrule))

theorem lenient_valueOfPair (hp : Stands size text base offset p)
    (hrule : p.rule ∈ [attrDqText, attrSqText, attrUqText] ++ liquidParts) :
    LenientToken text base fun mode => valueOfPair read ⟨offset, mode⟩ p := by
  unfold valueOfPair
  split
  · exact .ok (.same _) trivial
  · exact .ok (.same _) trivial
  · exact .ok (.same _) trivial
  · refine lenient_liquidOfPair hread hp (List.mem_append_left _ ?_)
    simp_all

theorem lenient_attributeOfParts {quotes : Quotes} (hp : Stands size text base offset p)
    (hrule : p.rule ∈ [attrDoubleQuoted, attrSingleQuoted, attrUnquoted]) :
    LenientToken text base fun mode => attributeOfParts read ⟨offset, mode⟩ quotes p := by
  have hplain : ∀ r ∈ [attrDoubleQuoted, attrSingleQuoted, attrUnquoted], r ∉ outputless := by decide
  have hplainValue : ∀ r ∈ [attrDqValue, attrSqValue, attrUqValue], r ∉ outputless := by decide
  obtain ⟨name, value, hchildren, hname, hvalue⟩ := attribute_children (hp.grown (hplain _ hrule)).1 hrule
  have hstands : ∀ q ∈ p.children, Stands size text base offset q := fun q => hp.child (hplain _ hrule)
  rw [hchildren] at hstands
  have hstandsValue := hstands value (by simp)
  have hparts := children_within (hstandsValue.grown (hplainValue _ hvalue)).1 hvalue
    ([attrDqText, attrSqText, attrUqText] ++ liquidParts) (by decide)
  have hvalues := Lenient.mapM fun q hq =>
    lenient_valueOfPair hread (hstandsValue.child (hplainValue _ hvalue) hq) (hparts q hq)
  simp only [attributeOfParts_eq read _ quotes hchildren hname hvalue]
  refine (lenient_nameOfPair (hstands name (by simp)) (by simp [hname])).map₂ hvalues ?_ ?_
  · intro _ _ _ _ hname hvalue
    exact .valueAttribute quotes _ _ hname hvalue
  · intro _ _
    simp only [Token.Structured, allStructured_iff]

theorem lenient_attributeOfPair (hp : Stands size text base offset p) (hrule : p.rule ∈ attributeParts) :
    LenientToken text base fun mode => attributeOfPair read ⟨offset, mode⟩ p := by
  unfold attributeOfPair
  split
  case h_1 hrule | h_2 hrule | h_3 hrule => exact lenient_attributeOfParts hread hp (by simp [hrule])
  case h_4 hempty =>
    obtain ⟨hgrown, _⟩ := hp.grown (by rw [hempty]; decide)
    obtain ⟨name, _, hchildren, hname, rfl⟩ := arranged_children hgrown hempty rfl
    have hstands : Stands size text base offset name :=
      hp.child (by rw [hempty]; decide) (by simp [hchildren])
    simp only [hchildren, bind_pure_comp]
    exact (lenient_nameOfPair hstands (by simp [List.mem_singleton.mp hname])).map
      (fun _ _ => .bareAttribute _) (fun _ h => h) fun _ _ h => h
  case h_5 =>
    refine lenient_liquidOfPair hread hp (List.mem_append_left _ ?_)
    simp_all [attributeParts]

theorem lenient_attributes {ps : List (Pair Rule)} (hp : Stands size text base offset p)
    (hplain : p.rule ∉ outputless) (hps : ∀ q ∈ ps, q ∈ p.children ∧ q.rule ∈ attributeParts) :
    LenientTokens text base fun mode => ps.mapM (attributeOfPair read ⟨offset, mode⟩) :=
  .mapM fun q hq => lenient_attributeOfPair hread (hp.child hplain (hps q hq).1) (hps q hq).2

theorem lenient_elementOfPair {build : List Piece → List Token → Span → Token}
    (hp : Stands size text base offset p) (hrule : p.rule = .htmlSelfClosing ∨ p.rule = .htmlTagOpen)
    (hbuild : build = .selfClosing ∨ build = .elementOpen) :
    LenientToken text base fun mode => elementOfPair read ⟨offset, mode⟩ build p := by
  have hplain : p.rule ∉ outputless := by
    rcases hrule with hrule | hrule <;> rw [hrule] <;> decide
  obtain ⟨hgrown, _⟩ := hp.grown hplain
  obtain ⟨name, attributes, hchildren, hname, hattributes, heq⟩ :=
    elementOfPair_eq hgrown (by rcases hrule with hrule | hrule <;> simp [hrule])
  have hstands : Stands size text base offset name := hp.child hplain (by simp [hchildren])
  simp only [heq]
  refine (lenient_nameOfPair hstands (by simp [hname])).map₂
    (lenient_attributes hread hp hplain fun q hq => ⟨by simp [hchildren, hq], hattributes q hq⟩) ?_ ?_
  · intro _ _ _ _ hname hattributes
    rcases hbuild with rfl | rfl
    · exact .selfClosing _ hname hattributes
    · exact .elementOpen _ hname hattributes
  · intro _ _
    rcases hbuild with rfl | rfl <;> simp only [Token.Structured, allStructured_iff]

theorem lenient_voidElementOfPair (hp : Stands size text base offset p) (hrule : p.rule = .htmlVoidElement) :
    LenientToken text base fun mode => voidElementOfPair read ⟨offset, mode⟩ p := by
  have hplain : p.rule ∉ outputless := by rw [hrule]; decide
  obtain ⟨name, attributes, hchildren, _, hattributes, heq⟩ := voidElementOfPair_eq (hp.grown hplain).1 hrule
  simp only [heq, bind_pure_comp]
  refine (lenient_attributes hread hp hplain fun q hq => ⟨by simp [hchildren, hq], hattributes q hq⟩).map
    ?_ ?_ ?_
  · intro _ _ h
    exact .voidElement _ _ h
  · intro _ h
    exact allStructured_iff.mpr h
  · intro _ _ h
    exact allStructured_iff.mp h

theorem lenient_rawElementOfPair (hp : Stands size text base offset p) (hrule : p.rule = .htmlRawTag) :
    LenientToken text base fun mode => rawElementOfPair read ⟨offset, mode⟩ p := by
  have hplain : p.rule ∉ outputless := by rw [hrule]; decide
  obtain ⟨part, hgrown, hsize, hpart, _⟩ := id hp
  obtain ⟨name, attributes, body, hchildren, hname, hattributes, hbody, heq⟩ := rawElementOfPair_eq hgrown hrule
  have hlt : body.text.length < part.length := by
    have hmem : name ∈ p.children := by simp [hchildren]
    apply length_lt_of_beside hgrown hmem (by simp [hchildren])
    · rw [hname, hbody]
      decide
    · rw [hname]
      rfl
  have hattributes := lenient_attributes hread hp hplain
    fun q hq => ⟨by simp [hchildren, hq], hattributes q hq⟩
  have htokens : Lenient (byteLength text < Span.limit) Eq (fun _ => True) fun _ =>
      read ⟨(body.span offset).lo, .tolerant⟩ .liquid body.text :=
    .same (errorsIn_rawBody hread (by omega) _) fun _ _ => ⟨rfl, trivial⟩
  simp only [heq]
  refine hattributes.map₂ htokens ?_ ?_
  · rintro _ _ _ _ h rfl
    exact .rawElement _ _ h
  · intro _ _
    simp only [Token.Structured, allStructured_iff, and_true]

theorem lenient_ofPair (hp : Stands size text base offset p) (hrule : p.rule ∈ plainRules ++ liquidRules) :
    LenientToken text base fun mode => ofPair read ⟨offset, mode⟩ p := by
  unfold ofPair
  simp only
  split
  case h_7 hrule => exact lenient_rawElementOfPair hread hp hrule
  case h_8 hrule => exact lenient_voidElementOfPair hread hp hrule
  case h_9 hrule => exact lenient_elementOfPair hread hp (.inl hrule) (.inl rfl)
  case h_10 hrule => exact lenient_elementOfPair hread hp (.inr hrule) (.inr rfl)
  case h_11 hrule => exact lenient_closingOfPair read hp hrule
  case h_12 hrule => exact lenient_docParamOfPair hp hrule
  case h_15 =>
    refine lenient_liquidOfPair hread hp ((List.mem_append.mp hrule).resolve_left ?_)
    simp_all [plainRules]
  all_goals exact .ok (.same _) trivial

end Readers

/-- The parts of a text that is read are tokens; those of statements and documentation hold no outputs. -/
theorem entry_children {entry : Entry} (hp : Grown grammar part p) (hrule : p.rule = entry.startRule) :
    ∀ q ∈ p.children, q.rule ≠ .endOfInput →
      q.rule ∈ plainRules ++ liquidRules ∧ (entry ∈ [.liquidHtml, .liquid] ∨ q.rule ∈ outputless) := by
  intro q hq hend
  have houtputless : ∀ r ∈ outputless, r ∈ plainRules ++ liquidRules := by decide
  have hallowed : q.rule ∈ endOfInput :: (if entry ∈ [.liquidHtml, .liquid] then plainRules ++ liquidRules
      else outputless) := by
    refine children_within hp (List.mem_singleton.mpr hrule) _ ?_ q hq
    cases entry <;> decide
  have hallowed := (List.mem_cons.mp hallowed).resolve_left hend
  split at hallowed
  · rename_i hentry
    exact ⟨hallowed, .inl hentry⟩
  · exact ⟨houtputless _ hallowed, .inr hallowed⟩

theorem ofPair_documents {read : ReadText} {mode mode' : Mode} (hrule : p.rule.documents)
    (hend : p.rule ≠ .endOfInput) : ofPair read ⟨offset, mode⟩ p = ofPair read ⟨offset, mode'⟩ p := by
  rcases documents_cases _ hrule hend with hrule | hrule | hrule | hrule <;> simp only [ofPair, hrule]

/-- By induction on the depth: what a text holds is shorter than it, and is read one level deeper. -/
theorem readsLeniently_readWithin (depth : Nat) : ReadsLeniently depth (readWithin depth) := by
  induction depth with
  | zero => exact ⟨fun _ _ _ hlt => absurd hlt (Nat.not_lt_zero _), fun _ _ _ _ => rfl⟩
  | succ depth ih =>
      constructor
      · intro text part base offset entry hlt hpart hhere
        rcases parse_cases entry.starts_startRule part with
          ⟨surprises, failure, hparse⟩ | ⟨p, hparse, hp, hgrown⟩
        · simp only [readWithin, hparse]
          exact .failed ⟨_, .inr ⟨surprises, rfl⟩⟩ ⟨_, .inr ⟨surprises, rfl⟩⟩
        · simp only [readWithin, hparse, List.flatMap_singleton]
          apply Lenient.mapM
          intro q hq
          obtain ⟨hq, hend⟩ := List.mem_filter.mp hq
          obtain ⟨hrule, hentry⟩ := entry_children hgrown hp q hq (bne_iff_ne.mp hend)
          have hstands : Stands depth text base offset q :=
            ⟨part, hgrown.children q hq, Nat.le_of_lt_succ hlt, hpart,
              fun hplain => hhere (hentry.resolve_right hplain)⟩
          exact lenient_ofPair ih hstands hrule
      · intro offset mode mode' part
        rcases parse_cases Entry.doc.starts_startRule part with ⟨_, _, hparse⟩ | ⟨p, hparse, hp, hgrown⟩
        · simp only [readWithin, hparse]
        · simp only [readWithin, hparse, List.flatMap_singleton]
          apply mapM_congr
          intro q hq
          obtain ⟨hq, hend⟩ := List.mem_filter.mp hq
          exact ofPair_documents (docContents_children hgrown hp q hq) (bne_iff_ne.mp hend)

theorem lenient_read (text : List Char) (entry : Entry) (offset : Nat) :
    LenientTokens text offset fun mode => read ⟨offset, mode⟩ entry text :=
  (readsLeniently_readWithin (text.length + 1)).lenient offset offset entry (Nat.lt_succ_self _)
    List.infix_rfl fun _ => ⟨rfl, rfl⟩

theorem syntactic_read (region : Region) (entry : Entry) (text : List Char) :
    ErrorsIn Error.Syntactic (read region entry text) :=
  (lenient_read text entry region.offset).errorsIn region.mode

theorem syntactic_ofPair (hp : Grown grammar text p) (hrule : p.rule ∈ plainRules ++ liquidRules) (region : Region) :
    ErrorsIn Error.Syntactic (ofPair read region p) := by
  have hagree : Agree text (readWithin text.length) read := fun _ _ _ hpart => readWithin_eq_read hpart
  have hstands : Stands text.length text region.offset region.offset p :=
    ⟨text, hp, Nat.le_refl _, List.infix_rfl, fun _ => ⟨rfl, rfl⟩⟩
  rw [← ofPair_congr hagree hp]
  exact (lenient_ofPair (readsLeniently_readWithin text.length) hstands hrule).errorsIn region.mode

end Token

end LiquidTemplate
