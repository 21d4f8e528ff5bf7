import LiquidTemplate.Proofs.Embedding.Reading
import LiquidTemplate.Proofs.Intact.Markup

namespace LiquidTemplate

open Text
open Peg (Pair Grown)

inductive Cut (entry : Entry) (part : List Char) : Pair Rule → Prop
  | root {pairs p} : grammar.parse entry.startRule part = .ok pairs → p ∈ pairs → Cut entry part p
  | child {p q} : Cut entry part p → q ∈ p.children → Cut entry part q

theorem Cut.grown {entry : Entry} {part : List Char} {p : Pair Rule} (h : Cut entry part p) :
    Grown grammar part p := by
  induction h with
  | root hparse hp => exact (Peg.Grammar.grown_parse hparse).1 _ hp
  | child _ hq ih => exact ih.children _ hq

inductive Site where
  | text
  | markup

/-- In the text, which is read at an offset, something does not match its rule: where the mismatch is
found, and where it is reported. -/
inductive MismatchAt (surprises : Peg.Surprises Rule) :
    Site → Nat → Entry → List Char → Nat → Nat → Prop
  | whole {entry base part failure} :
      grammar.parse entry.startRule part = .error (.unmatched failure surprises) →
      MismatchAt surprises .text base entry part (base + failure) (base + failure)
  | output {entry base part p m failure} : Cut entry part p → p.rule = .liquidDrop → m ∈ p.children →
      grammar.parse .markupVariable m.text = .error (.unmatched failure surprises) →
      MismatchAt surprises .markup base entry part (base + m.start + failure) (base + failure)
  | tag {entry base part p name lead markup trail failure} {tag : NamedTag} {rule : Rule} :
      Cut entry part p → TagParts p name lead markup trail → NamedTag.ofName? name.string = some tag →
      tag.markupRule? = some rule → grammar.parse rule markup = .error (.unmatched failure surprises) →
      MismatchAt surprises .markup base entry part (base + (p.start + byteLength lead) + failure)
        (base + failure)
  | statements {site entry base part p name lead markup trail found reported} :
      Cut entry part p → TagParts p name lead markup trail → name.string = "liquid" →
      MismatchAt surprises site (base + (p.start + byteLength lead)) .statements markup found reported →
      MismatchAt surprises site base entry part found reported
  | body {site entry base part p found reported} {inner : Entry} :
      Cut entry part p → p.rule = .rawBody ∨ p.rule = .htmlRawBody →
      MismatchAt surprises site (base + p.start) inner p.text found reported →
      MismatchAt surprises site base entry part found reported

/-- The markup of an output stands after the start of the output. -/
theorem output_markup_pos {part : List Char} {p m : Pair Rule} (hp : Grown grammar part p)
    (hrule : p.rule = .liquidDrop) (hm : m ∈ p.children) : 0 < m.start := by
  obtain ⟨_, hrow⟩ := hp.starts_word (w := ['{', '{']) (by rw [hrule]; rfl) (by rw [hrule]; rfl)
  have hle := (hrow.mem hm).1
  have hword : byteLength ['{', '{'] = 2 := rfl
  omega

/-- The markup of a tag stands after the name of the tag. -/
theorem tag_lead_pos {part lead markup trail : List Char} {p name : Pair Rule} (hp : Grown grammar part p)
    (hparts : TagParts p name lead markup trail) : 0 < byteLength lead := by
  have hname := hp.children name (List.mem_of_find?_eq_some hparts.name_eq)
  have hrule : Token.isTagNameRule name.rule = true := by
    exact List.find?_some (p := fun q : Pair Rule => Token.isTagNameRule q.rule) hparts.name_eq
  have hlt := grown_lt hname (solid_of_isTagNameRule _ hrule)
  obtain ⟨_, _, _, _, hstop⟩ := hname.text_eq
  apply Peg.byteLength_pos
  apply hparts.written.lead_ne_nil
  intro hnil
  rw [hnil, byteLength_nil] at hstop
  omega

namespace MismatchAt

variable {surprises : Peg.Surprises Rule} {site : Site} {base found reported : Nat} {entry : Entry}
  {part : List Char}

theorem reported_eq (h : MismatchAt surprises site base entry part found reported)
    (hsite : site = .text) : reported = found := by
  induction h with
  | whole => rfl
  | output => cases hsite
  | tag => cases hsite
  | statements _ _ _ _ ih => exact ih hsite
  | body _ _ _ ih => exact ih hsite

/-- A mismatch in markup is reported before the place where it is. -/
theorem reported_lt (h : MismatchAt surprises site base entry part found reported)
    (hsite : site = .markup) : reported < found := by
  induction h with
  | whole => cases hsite
  | output hcut hrule hm _ =>
      have hpos := output_markup_pos hcut.grown hrule hm
      omega
  | tag hcut hparts _ _ _ =>
      have hpos := tag_lead_pos hcut.grown hparts
      omega
  | statements _ _ _ _ ih => exact ih hsite
  | body _ _ _ ih => exact ih hsite

end MismatchAt

def Error.Blames (base : Nat) (entry : Entry) (part : List Char) (e : Error) : Prop :=
  ∀ surprises span, e = .unreadable (.unmatched surprises) span →
    ∃ site found reported, MismatchAt surprises site base entry part found reported ∧ span = .point reported

section

variable {base : Nat} {entry : Entry} {part : List Char} {region : Region}

/-- Only mismatches are blamed on a text. -/
theorem Error.blames_of_ne {cause : Unreadable} {span : Span} (hcause : ∀ surprises, cause ≠ .unmatched surprises) :
    (Error.unreadable cause span).Blames base entry part := by
  intro surprises span' heq
  cases heq
  exact absurd rfl (hcause surprises)

theorem Markup.errorsIn_matchRule {start : Nat} {rule : Rule} {markup : List Char}
    (h : ∀ surprises failure, grammar.parse rule markup = .error (.unmatched failure surprises) →
      ∃ found, MismatchAt surprises .markup region.offset entry part found (region.offset + failure)) :
    ErrorsIn (Error.Blames region.offset entry part) (matchRule region start rule markup) := by
  unfold matchRule
  split
  · rename_i mismatch hparse
    split
    · apply errorsIn_error
      cases mismatch with
      | unmatched failure surprises =>
          obtain ⟨found, hfound⟩ := h surprises failure hparse
          intro surprises' span heq
          cases heq
          exact ⟨.markup, found, _, hfound, rfl⟩
      | fault f => exact Error.blames_of_ne fun _ => Unreadable.noConfusion
    · exact errorsIn_ok _
  · simp only
    split
    · split
      · exact errorsIn_error (Error.blames_of_ne fun _ => Unreadable.noConfusion)
      · exact errorsIn_ok _
    · split
      · exact errorsIn_ok _
      · exact errorsIn_error (Error.blames_of_ne fun _ => Unreadable.noConfusion)

end

namespace Token

def ReadsBlame (read : ReadText) : Prop :=
  ∀ (region : Region) (entry : Entry) (part : List Char),
    region.offset + byteLength part < Span.limit →
      ErrorsIn (Error.Blames region.offset entry part) (read region entry part)

variable {entry : Entry} {part : List Char} {read : ReadText} {region : Region} {p : Pair Rule}

theorem errorsIn_outputMarkup {m : Pair Rule} (hp : Cut entry part p) (hrule : p.rule = .liquidDrop)
    (hm : m ∈ p.children) :
    ErrorsIn (Error.Blames region.offset entry part) (outputMarkup region m) := by
  unfold outputMarkup
  apply errorsIn_bind
  · apply Markup.errorsIn_matchRule
    intro surprises failure hparse
    exact ⟨_, .output hp hrule hm hparse⟩
  · intro matched hmatched
    cases matched with
    | none => exact errorsIn_ok _
    | some q =>
        obtain ⟨value, hparts, hvalue, hgrown⟩ := Markup.variable_matchRule hmatched
        simp only [hparts, List.getElem?_cons_zero, expect_some, ok_bind, bind_pure_comp]
        exact errorsIn_map (Variable.succeeds_ofPair hgrown hvalue).errorsIn

theorem errorsIn_outputOfPair (hp : Cut entry part p) (hrule : p.rule = .liquidDrop) :
    ErrorsIn (Error.Blames region.offset entry part) (outputOfPair region p) := by
  rw [outputOfPair_eq region hp.grown hrule]
  apply errorsIn_map
  cases hm : p.children.find? (·.rule == .dropMarkup) with
  | none => exact errorsIn_ok _
  | some m => exact errorsIn_outputMarkup hp hrule (List.mem_of_find?_eq_some hm)

theorem errorsIn_unexpected {α : Type} (p : Pair Rule) :
    ErrorsIn (Error.Blames region.offset entry part) (.error (unexpected region.offset p) : Except Error α) :=
  errorsIn_error (Error.blames_of_ne fun _ => Unreadable.noConfusion)

theorem errorsIn_nameOfPair (hp : Cut entry part p) :
    ErrorsIn (Error.Blames region.offset entry part) (nameOfPair region p) := by
  unfold nameOfPair
  apply errorsIn_mapM
  intro q hq
  unfold pieceOfPair
  split
  · rename_i hrule
    exact errorsIn_map (errorsIn_outputOfPair (hp.child hq) hrule)
  · exact errorsIn_ok _
  · exact errorsIn_ok _
  · exact errorsIn_unexpected _

theorem errorsIn_tagCloseOfPair (hp : Cut entry part p)
    (hrule : p.rule = .liquidTagClose ∨ p.rule = .statementClose) :
    ErrorsIn (Error.Blames region.offset entry part) (tagCloseOfPair region.offset p) := by
  obtain ⟨name, _, heq⟩ := tagCloseOfPair_eq hp.grown hrule
  rw [heq]
  exact errorsIn_ok _

theorem errorsIn_commentOfPair (hp : Cut entry part p) (hrule : p.rule = .statementComment) :
    ErrorsIn (Error.Blames region.offset entry part) (commentOfPair region.offset p) := by
  obtain ⟨body, _, heq⟩ := commentOfPair_eq hp.grown hrule
  rw [heq]
  exact errorsIn_ok _

theorem errorsIn_docParamOfPair (hp : Cut entry part p) (hrule : p.rule = .docParam) :
    ErrorsIn (Error.Blames region.offset entry part) (docParamOfPair region.offset p) := by
  obtain ⟨name, _, heq⟩ := docParamOfPair_eq hp.grown hrule
  rw [heq]
  exact errorsIn_ok _

section Readers

variable (hread : ReadsBlame read) (hroom : region.offset + byteLength part < Span.limit)

include hread hroom

theorem errorsIn_tagOfParts {build : Tag → Token} {name : Pair Rule} {lead markup trail : List Char}
    {markupSpan span : Span} {trim : Trim} (hp : Cut entry part p)
    (hparts : TagParts p name lead markup trail)
    (hlo : markupSpan.lo = region.offset + (p.start + byteLength lead)) :
    ErrorsIn (Error.Blames region.offset entry part)
      (tagOfParts read region build name.string markup markupSpan trim span) := by
  unfold tagOfParts
  simp only
  split
  · exact errorsIn_ok _
  · rename_i named hnamed
    split
    · rename_i rule hrule
      apply errorsIn_map
      unfold Markup.read
      apply errorsIn_bind
      · apply Markup.errorsIn_matchRule
        intro surprises failure hparse
        exact ⟨_, .tag hp hparts hnamed hrule hparse⟩
      · intro matched hmatched
        cases matched with
        | none => exact errorsIn_ok _
        | some m =>
            have hbranches := NamedTag.branches_markupRule hrule
            have hmrule : m.rule = rule := Markup.rule_matchRule hbranches hmatched
            exact (Markup.succeeds_ofPair (Markup.grown_matchRule hmatched) (hmrule ▸ hrule)).errorsIn
    · rename_i hrule
      have hliquid := (NamedTag.markupRule?_eq_none_iff hnamed).mp hrule
      split
      · exact errorsIn_ok _
      · rename_i e he
        split
        · apply errorsIn_error
          intro surprises s heq
          have hinner : markupSpan.lo + byteLength markup < Span.limit := by
            have hstop := hp.grown.stop_le
            obtain ⟨_, _, _, _, hlength⟩ := hp.grown.text_eq
            rw [hparts.text_eq, byteLength_append, byteLength_append] at hlength
            omega
          obtain ⟨site, found, reported, hfound, hspan⟩ :=
            hread ⟨markupSpan.lo, region.mode⟩ .statements markup hinner e he surprises s heq
          simp only [hlo] at hfound
          exact ⟨site, found, reported, .statements hp hparts hliquid hfound, hspan⟩
        · exact errorsIn_ok _

theorem errorsIn_tagOfPair {build : Tag → Token} (hp : Cut entry part p) (hrule : p.rule ∈ Rule.markedRules)
    (hparts : ∃ name lead markup trail, TagParts p name lead markup trail) :
    ErrorsIn (Error.Blames region.offset entry part) (tagOfPair read region build p) := by
  obtain ⟨name, lead, markup, trail, hparts⟩ := hparts
  have hname := (hp.child (List.mem_of_find?_eq_some hparts.name_eq)).grown
  rcases hparts.markup_eq with ⟨m, hm, rfl, hstart⟩ | ⟨hm, rfl, hstop⟩
  · have hmarkup := (hp.child (List.mem_of_find?_eq_some hm)).grown
    rw [tagOfPair_eq hp.grown hrule hparts.name_eq (.found hm)]
    apply errorsIn_tagOfParts hread hroom hp hparts
    rw [lo_span (k := 0) hroom hmarkup, hstart]
  · have hle := hname.stop_le
    rw [tagOfPair_eq hp.grown hrule hparts.name_eq (.missing hm)]
    apply errorsIn_tagOfParts hread hroom hp hparts
    rw [hi_span (k := 0) hroom hname, ← hstop]
    exact Span.lo_between _ (by omega)

theorem errorsIn_body {mode : Mode} {inner : Entry} (hp : Cut entry part p)
    (hrule : p.rule = .rawBody ∨ p.rule = .htmlRawBody) :
    ErrorsIn (Error.Blames region.offset entry part)
      (read ⟨(p.span region.offset).lo, mode⟩ inner p.text) := by
  intro e he surprises s heq
  obtain ⟨site, found, reported, hfound, hspan⟩ :=
    hread ⟨(p.span region.offset).lo, mode⟩ inner p.text (room (k := 0) hroom hp.grown) e he surprises s heq
  simp only [lo_span (k := 0) hroom hp.grown] at hfound
  exact ⟨site, found, reported, .body hp hrule hfound, hspan⟩

theorem errorsIn_rawTagOfPair (hp : Cut entry part p) (hrule : p.rule = .liquidRawTag) :
    ErrorsIn (Error.Blames region.offset entry part) (rawTagOfPair read region p) := by
  obtain ⟨opening, body, closing, name, hchildren, _, hbody, _, _, heq⟩ := rawTagOfPair_eq hp.grown hrule
  have hcut : Cut entry part body := hp.child (by simp [hchildren])
  rw [heq]
  apply errorsIn_bind
  · unfold rawTagBody
    split
    · exact errorsIn_body hread hroom hcut (.inl hbody)
    · exact errorsIn_body hread hroom hcut (.inl hbody)
    · exact errorsIn_ok _
  · intro ts _
    exact errorsIn_ok _

theorem errorsIn_liquidOfPair (hp : Cut entry part p) :
    ErrorsIn (Error.Blames region.offset entry part) (liquidOfPair read region p) := by
  unfold liquidOfPair
  split
  case h_10 => exact errorsIn_unexpected _
  all_goals rename_i hrule
  · exact errorsIn_map (errorsIn_outputOfPair hp hrule)
  · exact errorsIn_tagOfPair hread hroom hp (by simp [hrule, Rule.markedRules])
      (tag_parts (r := .blockName) hp.grown (by rw [hrule]; rfl) (by rw [hrule]; rfl) rfl)
  · exact errorsIn_tagOfPair hread hroom hp (by simp [hrule, Rule.markedRules])
      (statement_parts (r := .blockName) hp.grown (by rw [hrule]; rfl) (by rw [hrule]; rfl) rfl)
  · exact errorsIn_tagOfPair hread hroom hp (by simp [hrule, Rule.markedRules])
      (tag_parts (r := .tagName) hp.grown (by rw [hrule]; rfl) (by rw [hrule]; rfl) rfl)
  · exact errorsIn_tagOfPair hread hroom hp (by simp [hrule, Rule.markedRules])
      (statement_parts (r := .statementName) hp.grown (by rw [hrule]; rfl) (by rw [hrule]; rfl) rfl)
  · exact errorsIn_tagCloseOfPair hp (by simp [hrule])
  · exact errorsIn_tagCloseOfPair hp (by simp [hrule])
  · exact errorsIn_rawTagOfPair hread hroom hp hrule
  · exact errorsIn_commentOfPair hp hrule

theorem errorsIn_valueOfPair (hp : Cut entry part p) :
    ErrorsIn (Error.Blames region.offset entry part) (valueOfPair read region p) := by
  unfold valueOfPair
  split
  case h_4 => exact errorsIn_liquidOfPair hread hroom hp
  all_goals exact errorsIn_ok _

theorem errorsIn_attributeOfParts {quotes : Quotes} (hp : Cut entry part p)
    (hrule : p.rule ∈ [.attrDoubleQuoted, .attrSingleQuoted, .attrUnquoted]) :
    ErrorsIn (Error.Blames region.offset entry part) (attributeOfParts read region quotes p) := by
  obtain ⟨name, value, hchildren, hname, hvalue⟩ := attribute_children hp.grown hrule
  have hcut : Cut entry part value := hp.child (by simp [hchildren])
  rw [attributeOfParts_eq _ _ _ hchildren hname hvalue]
  apply errorsIn_bind (errorsIn_nameOfPair (hp.child (q := name) (by simp [hchildren])))
  intro pieces _
  apply errorsIn_bind
  · apply errorsIn_mapM
    intro q hq
    exact errorsIn_valueOfPair hread hroom (hcut.child hq)
  · intro parts _
    exact errorsIn_ok _

theorem errorsIn_attributeOfPair (hp : Cut entry part p) :
    ErrorsIn (Error.Blames region.offset entry part) (attributeOfPair read region p) := by
  unfold attributeOfPair
  split
  case h_1 hrule | h_2 hrule | h_3 hrule => exact errorsIn_attributeOfParts hread hroom hp (by simp [hrule])
  case h_5 => exact errorsIn_liquidOfPair hread hroom hp
  split
  · rename_i name rest hchildren
    apply errorsIn_bind (errorsIn_nameOfPair (hp.child (q := name) (by simp [hchildren])))
    intro pieces _
    exact errorsIn_ok _
  · exact errorsIn_ok _

theorem errorsIn_attributes {ps : List (Pair Rule)} (hp : Cut entry part p)
    (hps : ∀ q ∈ ps, q ∈ p.children) :
    ErrorsIn (Error.Blames region.offset entry part) (ps.mapM (attributeOfPair read region)) := by
  apply errorsIn_mapM
  intro q hq
  exact errorsIn_attributeOfPair hread hroom (hp.child (hps q hq))

theorem errorsIn_elementOfPair {build : List Piece → List Token → Span → Token} (hp : Cut entry part p)
    (hrule : p.rule ∈ [.htmlSelfClosing, .htmlTagOpen, .htmlTagClose]) :
    ErrorsIn (Error.Blames region.offset entry part) (elementOfPair read region build p) := by
  obtain ⟨name, attributes, hchildren, _, _, heq⟩ := elementOfPair_eq hp.grown hrule
  rw [heq]
  apply errorsIn_bind (errorsIn_nameOfPair (hp.child (q := name) (by simp [hchildren])))
  intro pieces _
  apply errorsIn_bind (errorsIn_attributes hread hroom hp fun q hq => by simp [hchildren, hq])
  intro attributes _
  exact errorsIn_ok _

theorem errorsIn_voidElementOfPair (hp : Cut entry part p) (hrule : p.rule = .htmlVoidElement) :
    ErrorsIn (Error.Blames region.offset entry part) (voidElementOfPair read region p) := by
  obtain ⟨name, attributes, hchildren, _, _, heq⟩ := voidElementOfPair_eq hp.grown hrule
  rw [heq]
  apply errorsIn_bind (errorsIn_attributes hread hroom hp fun q hq => by simp [hchildren, hq])
  intro attributes _
  exact errorsIn_ok _

theorem errorsIn_rawElementOfPair (hp : Cut entry part p) (hrule : p.rule = .htmlRawTag) :
    ErrorsIn (Error.Blames region.offset entry part) (rawElementOfPair read region p) := by
  obtain ⟨name, attributes, body, hchildren, _, _, hbody, heq⟩ := rawElementOfPair_eq hp.grown hrule
  have hcut : Cut entry part body := hp.child (by simp [hchildren])
  rw [heq]
  apply errorsIn_bind (errorsIn_attributes hread hroom hp fun q hq => by simp [hchildren, hq])
  intro attributes _
  apply errorsIn_bind (errorsIn_body hread hroom hcut (.inr hbody))
  intro ts _
  exact errorsIn_ok _

theorem errorsIn_ofPair (hp : Cut entry part p) :
    ErrorsIn (Error.Blames region.offset entry part) (ofPair read region p) := by
  unfold ofPair
  simp only
  split
  case h_15 => exact errorsIn_liquidOfPair hread hroom hp
  case h_7 hrule => exact errorsIn_rawElementOfPair hread hroom hp hrule
  case h_8 hrule => exact errorsIn_voidElementOfPair hread hroom hp hrule
  case h_9 hrule | h_10 hrule | h_11 hrule => exact errorsIn_elementOfPair hread hroom hp (by simp [hrule])
  case h_12 hrule => exact errorsIn_docParamOfPair hp hrule
  all_goals exact errorsIn_ok _

end Readers

theorem readsBlame_readWithin (depth : Nat) : ReadsBlame (readWithin depth) := by
  induction depth with
  | zero =>
      intro region entry part _ e h surprises span heq
      cases h
      cases heq
  | succ depth ih =>
      intro region entry part hroom
      rw [readWithin]
      split
      · rename_i mismatch hparse
        apply errorsIn_error
        intro surprises span heq
        cases mismatch with
        | fault f => cases heq
        | unmatched failure surprises' =>
            cases heq
            exact ⟨.text, _, _, .whole hparse, rfl⟩
      · rename_i pairs hparse
        apply errorsIn_mapM
        intro q hq
        obtain ⟨p, hp, hq⟩ := List.mem_flatMap.mp (List.mem_filter.mp hq).1
        exact errorsIn_ofPair ih hroom (.child (.root hparse hp) hq)

/-- A mismatch that stops the reading is one of a whole text, the outermost or one inside it, or of
markup. Of a whole text it is reported where it is; of markup it is reported too far to the left, as it
is counted from the start of the text around the markup and not from the start of the markup. -/
theorem mismatchAt_read {source : List Char} {offset : Nat} {mode : Mode}
    {surprises : Peg.Surprises Rule} {s : Span} (hroom : offset + byteLength source < Span.limit)
    (h : Token.read ⟨offset, mode⟩ entry source = .error (.unreadable (.unmatched surprises) s)) :
    ∃ site found reported, MismatchAt surprises site offset entry source found reported ∧
      s = .point reported ∧ (site = .text → reported = found) ∧ (site = .markup → reported < found) := by
  obtain ⟨site, found, reported, hfound, hspan⟩ :=
    readsBlame_readWithin _ ⟨offset, mode⟩ entry source hroom _ h surprises s rfl
  exact ⟨site, found, reported, hfound, hspan, hfound.reported_eq, hfound.reported_lt⟩

def brokenOutput : List Char := "ab\x7b\x7b ! \x7d\x7d".toList

theorem mismatchAt_brokenOutput :
    ∃ surprises, Token.read ⟨0, .strict⟩ .liquidHtml brokenOutput =
        .error (.unreadable (.unmatched surprises) (.point 0)) ∧
      ∃ site found reported, MismatchAt surprises site 0 .liquidHtml brokenOutput found reported ∧
        Span.point 0 = .point reported ∧ (site = .text → reported = found) ∧
        (site = .markup → reported < found) := by
  have hread : Token.read ⟨0, .strict⟩ .liquidHtml brokenOutput =
      .error (.unreadable (.unmatched ⟨[.liquidVariable], []⟩) (.point 0)) := by rfl
  exact ⟨_, hread, mismatchAt_read (by decide +kernel) hread⟩

/-- The markup starts at the fifth byte and does not match there; the start of the text is reported. -/
theorem brokenOutput_reported :
    Sits brokenOutput 5 ['!'] ∧ ∃ surprises,
      grammar.parse .markupVariable ['!'] = .error (.unmatched 0 surprises) ∧
      Token.read ⟨0, .strict⟩ .liquidHtml brokenOutput =
        .error (.unreadable (.unmatched surprises) (.point 0)) :=
  ⟨⟨"ab\x7b\x7b ".toList, " \x7d\x7d".toList, rfl, rfl⟩, ⟨[.liquidVariable], []⟩, by rfl, by rfl⟩

end Token

end LiquidTemplate
