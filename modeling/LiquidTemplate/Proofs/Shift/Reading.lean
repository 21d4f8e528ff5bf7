import LiquidTemplate.Proofs.Geometry.Reading
import LiquidTemplate.Proofs.Shift.Markup

namespace LiquidTemplate

open Text
open Peg (Pair Grown)

variable {text : List Char} {offset k : Nat} {mode : Mode} {p : Pair Rule}

theorem lo_span (hk : offset + byteLength text + k < Span.limit) (hp : Grown grammar text p) :
    (p.span offset).lo = offset + p.start := by
  have hstop := hp.stop_le
  obtain ⟨_, _, _, _, hlength⟩ := hp.text_eq
  exact Span.lo_between _ (by omega)

theorem hi_span (hk : offset + byteLength text + k < Span.limit) (hp : Grown grammar text p) :
    (p.span offset).hi = offset + p.stop := by
  have hstop := hp.stop_le
  exact Span.hi_between _ (by omega)

theorem lo_span_add (hk : offset + byteLength text + k < Span.limit) (hp : Grown grammar text p) :
    (p.span (offset + k)).lo = (p.span offset).lo + k := by
  have hk' : offset + k + byteLength text + 0 < Span.limit := by omega
  rw [lo_span hk hp, lo_span hk' hp]
  omega

theorem hi_span_add (hk : offset + byteLength text + k < Span.limit) (hp : Grown grammar text p) :
    (p.span (offset + k)).hi = (p.span offset).hi + k := by
  have hk' : offset + k + byteLength text + 0 < Span.limit := by omega
  rw [hi_span hk hp, hi_span hk' hp]
  omega

/-- The text of a pair has room where the text around it has. -/
theorem room (hk : offset + byteLength text + k < Span.limit) (hp : Grown grammar text p) :
    (p.span offset).lo + byteLength p.text + k < Span.limit := by
  have hstop := hp.stop_le
  obtain ⟨_, _, _, _, hlength⟩ := hp.text_eq
  rw [lo_span hk hp]
  omega

theorem hi_room (hk : offset + byteLength text + k < Span.limit) (hp : Grown grammar text p) :
    (p.span offset).hi + k < Span.limit := by
  have hstop := hp.stop_le
  rw [hi_span hk hp]
  omega

namespace Token

theorem outputMarkup_add (hk : offset + byteLength text + k < Span.limit)
    (hp : Grown grammar text p) :
    outputMarkup ⟨offset + k, mode⟩ p =
      moved k (OutputMarkup.shift k) (outputMarkup ⟨offset, mode⟩ p) := by
  have hroom := room hk hp
  have hlo : offset ≤ (p.span offset).lo := by
    rw [lo_span hk hp]
    omega
  unfold outputMarkup
  simp only [lo_span_add hk hp, Markup.matchRule_add hroom hlo]
  apply moved_bind
  intro q? hq
  cases q? with
  | none => rfl
  | some q =>
      obtain ⟨value, hparts, _, hgrown⟩ := Markup.variable_matchRule hq
      simp only [id, hparts, List.getElem?_cons_zero, expect_some, ok_bind, bind_pure_comp]
      rw [Variable.ofPair_add hroom hgrown]
      exact moved_map fun _ => rfl

theorem outputOfPair_add (hk : offset + byteLength text + k < Span.limit) (hp : Grown grammar text p)
    (hrule : p.rule = .liquidDrop) :
    outputOfPair ⟨offset + k, mode⟩ p = moved k (Output.shift k) (outputOfPair ⟨offset, mode⟩ p) := by
  rw [outputOfPair_eq _ hp hrule, outputOfPair_eq _ hp hrule, span_add hk hp]
  cases hmarkup : p.children.find? (·.rule == .dropMarkup) with
  | none => rfl
  | some markup =>
      rw [Option.elim_some, Option.elim_some,
        outputMarkup_add hk (hp.children markup (List.mem_of_find?_eq_some hmarkup))]
      exact moved_map fun _ => rfl

theorem pieceOfPair_add (hk : offset + byteLength text + k < Span.limit)
    (hp : Grown grammar text p) :
    pieceOfPair ⟨offset + k, mode⟩ p = moved k (Piece.shift k) (pieceOfPair ⟨offset, mode⟩ p) := by
  unfold pieceOfPair
  split
  · rename_i hrule
    rw [outputOfPair_add hk hp hrule]
    apply moved_map
    intro o
    rfl
  · rw [runOfPair, span_add hk hp]
    rfl
  · rw [runOfPair, span_add hk hp]
    rfl
  · rw [unexpected_add hk hp]
    rfl

theorem nameOfPair_add (hk : offset + byteLength text + k < Span.limit)
    (hp : Grown grammar text p) :
    nameOfPair ⟨offset + k, mode⟩ p =
      moved k (List.map (Piece.shift k)) (nameOfPair ⟨offset, mode⟩ p) :=
  moved_mapM fun q hq => pieceOfPair_add hk (hp.children q hq)

theorem tagCloseOfPair_add (hk : offset + byteLength text + k < Span.limit) (hp : Grown grammar text p)
    (hrule : p.rule = .liquidTagClose ∨ p.rule = .statementClose) :
    tagCloseOfPair (offset + k) p = moved k (shift k) (tagCloseOfPair offset p) := by
  obtain ⟨name, _, heq⟩ := tagCloseOfPair_eq hp hrule
  rw [heq, heq, span_add hk hp]
  rfl

theorem docParamOfPair_add (hk : offset + byteLength text + k < Span.limit) (hp : Grown grammar text p)
    (hrule : p.rule = .docParam) :
    docParamOfPair (offset + k) p = moved k (shift k) (docParamOfPair offset p) := by
  obtain ⟨name, _, heq⟩ := docParamOfPair_eq hp hrule
  rw [heq, heq, span_add hk hp]
  rfl

theorem verbatim_add {body : List Char} {start : Nat}
    (hk : start + byteLength body + k < Span.limit) :
    verbatim body (start + k) = (verbatim body start).map (shift k) := by
  obtain ⟨before, after, hbody, hbefore⟩ := sits_trim body
  have hlength := congrArg byteLength hbody
  rw [byteLength_append, byteLength_append, hbefore] at hlength
  unfold verbatim
  split
  · rfl
  · simp only [List.map_cons, List.map_nil, shift, TextRun.shift]
    rw [Span.shift_between (by omega) (by omega)]
    congr 4
    · omega
    · omega

theorem blockAround_add {q : Pair Rule} (hk : offset + byteLength text + k < Span.limit)
    (hp : Grown grammar text p) (hq : Grown grammar text q) :
    blockAround (p.span (offset + k)) (q.span (offset + k)) =
      (blockAround (p.span offset) (q.span offset)).shift k := by
  have hplo := room hk hp
  have hqlo := room hk hq
  have hphi := hi_room hk hp
  have hqhi := hi_room hk hq
  unfold blockAround Block.shift
  rw [Span.shift_between (by omega) (by omega), Span.shift_between (by omega) (by omega),
    lo_span_add hk hp, lo_span_add hk hq, hi_span_add hk hp, hi_span_add hk hq, span_add hk hp]

theorem commentOfPair_add (hk : offset + byteLength text + k < Span.limit) (hp : Grown grammar text p)
    (hrule : p.rule = .statementComment) :
    commentOfPair (offset + k) p = moved k (shift k) (commentOfPair offset p) := by
  obtain ⟨body, hchildren, heq⟩ := commentOfPair_eq hp hrule
  have hbody := hp.children body (by simp [hchildren])
  rw [heq, heq, lo_span_add hk hbody, verbatim_add (room hk hbody), blockAround_add hk hp hbody, span_add hk hbody,
    moved_ok, shift, shiftAll_eq_map]
  rfl

def Moves (k : Nat) (read : ReadText) : Prop :=
  ∀ (offset : Nat) (mode : Mode) (entry : Entry) (part : List Char),
    offset + byteLength part + k < Span.limit →
      read ⟨offset + k, mode⟩ entry part = moved k (List.map (shift k)) (read ⟨offset, mode⟩ entry part)

section Readers

variable {read : ReadText} (hread : Moves k read)

include hread

theorem tagOfParts_add {build : Tag → Token} (hbuild : ∀ tag, build (tag.shift k) = (build tag).shift k)
    (name : String) {markup : List Char} {markupSpan : Span} (trim : Trim) (span : Span)
    (hlo : (markupSpan.shift k).lo = markupSpan.lo + k) (hoffset : offset ≤ markupSpan.lo)
    (hroom : markupSpan.lo + byteLength markup + k < Span.limit) :
    tagOfParts read ⟨offset + k, mode⟩ build name markup (markupSpan.shift k) trim (span.shift k) =
      moved k (shift k) (tagOfParts read ⟨offset, mode⟩ build name markup markupSpan trim span) := by
  unfold tagOfParts
  simp only
  split
  · simp only [moved_ok, ← hbuild]
    rfl
  · split
    · rename_i rule hrule
      rw [hlo, Markup.read_add hrule hroom hoffset]
      apply moved_map
      intro m
      rw [← hbuild]
      rfl
    · rw [hlo, hread _ _ _ _ hroom]
      cases read ⟨markupSpan.lo, mode⟩ .statements markup with
      | ok body =>
          simp only [moved_ok, shift, shiftAll_eq_map]
          rfl
      | error e =>
          simp only [moved_error]
          split
          · rfl
          · simp only [moved_ok, ← hbuild]
            rfl

theorem tagOfPair_add {build : Tag → Token} (hbuild : ∀ tag, build (tag.shift k) = (build tag).shift k)
    (hk : offset + byteLength text + k < Span.limit) (hp : Grown grammar text p) (hrule : p.rule ∈ Rule.markedRules) :
    tagOfPair read ⟨offset + k, mode⟩ build p =
      moved k (shift k) (tagOfPair read ⟨offset, mode⟩ build p) := by
  obtain ⟨name, hname⟩ := find_name hp (List.mem_append_left _ hrule)
  have hgrown := hp.children name (List.mem_of_find?_eq_some hname)
  cases hmarkup : p.children.find? (isTagMarkupRule ·.rule) with
  | some markup =>
      have hgrown' := hp.children markup (List.mem_of_find?_eq_some hmarkup)
      rw [tagOfPair_eq hp hrule hname (.found hmarkup), tagOfPair_eq hp hrule hname (.found hmarkup), span_add hk hp,
        span_add hk hgrown']
      apply tagOfParts_add hread hbuild
      · rw [← span_add hk hgrown', lo_span_add hk hgrown']
      · rw [lo_span hk hgrown']
        omega
      · exact room hk hgrown'
  | none =>
      have hroom := hi_room hk hgrown
      have hpoint : Span.point ((name.span offset).hi + k) = (Span.point (name.span offset).hi).shift k :=
        point_add (by omega)
      have hlo : (Span.point (name.span offset).hi).lo = (name.span offset).hi :=
        Span.lo_between _ (by omega)
      rw [tagOfPair_eq hp hrule hname (.missing hmarkup), tagOfPair_eq hp hrule hname (.missing hmarkup),
        span_add hk hp, hi_span_add hk hgrown, hpoint]
      apply tagOfParts_add hread hbuild
      · rw [← hpoint, hlo]
        exact Span.lo_between _ hroom
      · rw [hlo, hi_span hk hgrown]
        omega
      · rw [hlo]
        exact hroom

theorem rawTagBody_add (name : String) {body : List Char} {start : Nat}
    (hk : start + byteLength body + k < Span.limit) :
    rawTagBody read ⟨offset + k, mode⟩ name body (start + k) =
      moved k (List.map (shift k)) (rawTagBody read ⟨offset, mode⟩ name body start) := by
  unfold rawTagBody
  split
  · exact hread _ _ _ _ hk
  · exact hread _ _ _ _ hk
  · rw [verbatim_add hk]
    rfl

theorem rawTagOfPair_add (hk : offset + byteLength text + k < Span.limit) (hp : Grown grammar text p)
    (hrule : p.rule = .liquidRawTag) :
    rawTagOfPair read ⟨offset + k, mode⟩ p =
      moved k (shift k) (rawTagOfPair read ⟨offset, mode⟩ p) := by
  obtain ⟨opening, body, closing, name, hchildren, _, _, _, _, heq⟩ := rawTagOfPair_eq hp hrule
  have hopening := hp.children opening (by simp [hchildren])
  have hbody := hp.children body (by simp [hchildren])
  have hclosing := hp.children closing (by simp [hchildren])
  rw [heq, heq, lo_span_add hk hbody, rawTagBody_add hread _ (room hk hbody), span_add hk hp, span_add hk hopening,
    span_add hk hbody, span_add hk hclosing]
  apply moved_bind
  intro ts _
  simp only [moved_ok, shift, shiftAll_eq_map, pure, Except.pure]
  rfl

theorem liquidOfPair_add (hk : offset + byteLength text + k < Span.limit)
    (hp : Grown grammar text p) :
    liquidOfPair read ⟨offset + k, mode⟩ p =
      moved k (shift k) (liquidOfPair read ⟨offset, mode⟩ p) := by
  have hopen : ∀ tag : Tag, tagOpen (tag.shift k) = (tagOpen tag).shift k := fun tag => by rw [shift]
  have htag : ∀ t : Tag, tag (t.shift k) = (tag t).shift k := fun t => by rw [shift]
  unfold liquidOfPair
  split
  case h_10 =>
    rw [unexpected_add hk hp]
    rfl
  all_goals rename_i hrule
  · rw [outputOfPair_add hk hp hrule]
    apply moved_map
    intro o
    rw [shift]
  · exact tagOfPair_add hread hopen hk hp (by simp [hrule, Rule.markedRules])
  · exact tagOfPair_add hread hopen hk hp (by simp [hrule, Rule.markedRules])
  · exact tagOfPair_add hread htag hk hp (by simp [hrule, Rule.markedRules])
  · exact tagOfPair_add hread htag hk hp (by simp [hrule, Rule.markedRules])
  · exact tagCloseOfPair_add hk hp (.inl hrule)
  · exact tagCloseOfPair_add hk hp (.inr hrule)
  · exact rawTagOfPair_add hread hk hp hrule
  · exact commentOfPair_add hk hp hrule

theorem valueOfPair_add (hk : offset + byteLength text + k < Span.limit)
    (hp : Grown grammar text p) :
    valueOfPair read ⟨offset + k, mode⟩ p = moved k (shift k) (valueOfPair read ⟨offset, mode⟩ p) := by
  unfold valueOfPair
  split
  case h_4 => exact liquidOfPair_add hread hk hp
  all_goals
    rw [runOfPair, span_add hk hp, moved_ok, shift]
    rfl

theorem attributeOfParts_add (quotes : Quotes) (hk : offset + byteLength text + k < Span.limit)
    (hp : Grown grammar text p) (hrule : p.rule ∈ [.attrDoubleQuoted, .attrSingleQuoted, .attrUnquoted]) :
    attributeOfParts read ⟨offset + k, mode⟩ quotes p =
      moved k (shift k) (attributeOfParts read ⟨offset, mode⟩ quotes p) := by
  obtain ⟨name, value, hchildren, hname, hvalue⟩ := attribute_children hp hrule
  have hgrown := hp.children name (by simp [hchildren])
  have hgrown' := hp.children value (by simp [hchildren])
  rw [attributeOfParts_eq _ _ _ hchildren hname hvalue, attributeOfParts_eq _ _ _ hchildren hname hvalue,
    nameOfPair_add hk hgrown, moved_mapM fun q hq => valueOfPair_add hread hk (hgrown'.children q hq),
    span_add hk hp, span_add hk hgrown']
  apply moved_bind
  intro pieces _
  apply moved_bind
  intro parts _
  simp only [pure, Except.pure, moved_ok, shift, shiftAll_eq_map]

theorem attributeOfPair_add (hk : offset + byteLength text + k < Span.limit)
    (hp : Grown grammar text p) :
    attributeOfPair read ⟨offset + k, mode⟩ p =
      moved k (shift k) (attributeOfPair read ⟨offset, mode⟩ p) := by
  unfold attributeOfPair
  split
  case h_1 hrule | h_2 hrule | h_3 hrule => exact attributeOfParts_add hread _ hk hp (by simp [hrule])
  case h_5 => exact liquidOfPair_add hread hk hp
  split
  · rename_i name rest hchildren
    rw [nameOfPair_add hk (hp.children name (by simp [hchildren])), span_add hk hp]
    apply moved_bind
    intro pieces _
    simp only [pure, Except.pure, moved_ok, shift]
  · rw [span_add hk hp, moved_ok, shift]
    rfl

theorem attributes_add {qs : List (Pair Rule)} (hk : offset + byteLength text + k < Span.limit)
    (hp : Grown grammar text p) (hqs : ∀ q ∈ qs, q ∈ p.children) :
    qs.mapM (attributeOfPair read ⟨offset + k, mode⟩) =
      moved k (List.map (shift k)) (qs.mapM (attributeOfPair read ⟨offset, mode⟩)) :=
  moved_mapM fun q hq => attributeOfPair_add hread hk (hp.children q (hqs q hq))

theorem elementOfPair_add {build : List Piece → List Token → Span → Token}
    (hbuild : ∀ name attributes span,
      build (name.map (Piece.shift k)) (attributes.map (shift k)) (span.shift k) =
        (build name attributes span).shift k)
    (hk : offset + byteLength text + k < Span.limit) (hp : Grown grammar text p)
    (hrule : p.rule ∈ [.htmlSelfClosing, .htmlTagOpen, .htmlTagClose]) :
    elementOfPair read ⟨offset + k, mode⟩ build p =
      moved k (shift k) (elementOfPair read ⟨offset, mode⟩ build p) := by
  obtain ⟨name, attributes, hchildren, _, _, heq⟩ := elementOfPair_eq hp hrule
  rw [heq, heq, nameOfPair_add hk (hp.children name (by simp [hchildren])),
    attributes_add hread hk hp fun q hq => by simp [hchildren, hq], span_add hk hp]
  apply moved_bind
  intro pieces _
  apply moved_bind
  intro ts _
  rw [hbuild]
  rfl

theorem voidElementOfPair_add (hk : offset + byteLength text + k < Span.limit) (hp : Grown grammar text p)
    (hrule : p.rule = .htmlVoidElement) :
    voidElementOfPair read ⟨offset + k, mode⟩ p =
      moved k (shift k) (voidElementOfPair read ⟨offset, mode⟩ p) := by
  obtain ⟨name, attributes, hchildren, _, _, heq⟩ := voidElementOfPair_eq hp hrule
  rw [heq, heq, attributes_add hread hk hp fun q hq => by simp [hchildren, hq], runOfPair, span_add hk hp,
    span_add hk (hp.children name (by simp [hchildren]))]
  apply moved_bind
  intro ts _
  simp only [pure, Except.pure, moved_ok, shift, shiftAll_eq_map]
  rfl

theorem rawElementOfPair_add (hk : offset + byteLength text + k < Span.limit) (hp : Grown grammar text p)
    (hrule : p.rule = .htmlRawTag) :
    rawElementOfPair read ⟨offset + k, mode⟩ p =
      moved k (shift k) (rawElementOfPair read ⟨offset, mode⟩ p) := by
  obtain ⟨name, attributes, body, hchildren, _, _, _, heq⟩ := rawElementOfPair_eq hp hrule
  have hname := hp.children name (by simp [hchildren])
  have hbody := hp.children body (by simp [hchildren])
  rw [heq, heq, lo_span_add hk hbody, blockAround_add hk hp hbody,
    attributes_add hread hk hp fun q hq => by simp [hchildren, hq], hread _ _ _ _ (room hk hbody), runOfPair,
    span_add hk hbody, span_add hk hname]
  apply moved_bind
  intro ts _
  apply moved_bind
  intro ts' _
  simp only [pure, Except.pure, moved_ok, shift, shiftAll_eq_map]
  rfl

theorem ofPair_add (hk : offset + byteLength text + k < Span.limit) (hp : Grown grammar text p) :
    ofPair read ⟨offset + k, mode⟩ p = moved k (shift k) (ofPair read ⟨offset, mode⟩ p) := by
  unfold ofPair
  simp only
  split
  case h_7 hrule => exact rawElementOfPair_add hread hk hp hrule
  case h_8 hrule => exact voidElementOfPair_add hread hk hp hrule
  case h_9 hrule | h_10 hrule =>
    refine elementOfPair_add hread ?_ hk hp (by simp [hrule])
    intro name attributes span
    rw [shift, shiftAll_eq_map]
  case h_11 hrule =>
    refine elementOfPair_add hread ?_ hk hp (by simp [hrule])
    intro name attributes span
    rw [shift]
  case h_12 hrule => exact docParamOfPair_add hk hp hrule
  case h_15 => exact liquidOfPair_add hread hk hp
  all_goals simp only [runOfPair, span_add hk hp, moved_ok, shift, TextRun.shift]

end Readers

/-- A text that is read further to the right gives the same tokens or error, moved right. -/
theorem moves_readWithin (k depth : Nat) : Moves k (readWithin depth) := by
  induction depth with
  | zero =>
      intro offset mode entry part hk
      rw [readWithin, readWithin, point_add (by omega)]
      rfl
  | succ depth ih =>
      intro offset mode entry part hk
      rw [readWithin, readWithin]
      split
      · rename_i mismatch hparse
        rw [ofMismatch_add hk hparse]
        rfl
      · rename_i pairs hparse
        have hgrown := (Peg.Grammar.grown_parse hparse).1
        apply moved_mapM
        intro q hq
        obtain ⟨p, hp, hq⟩ := List.mem_flatMap.mp (List.mem_filter.mp hq).1
        exact ofPair_add ih hk ((hgrown p hp).children q hq)

end Token

end LiquidTemplate
