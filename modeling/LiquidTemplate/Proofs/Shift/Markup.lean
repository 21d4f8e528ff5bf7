import LiquidTemplate.Proofs.Geometry.Markup
import LiquidTemplate.Proofs.Markup.Reader
import LiquidTemplate.Proofs.Peg.Farthest
import LiquidTemplate.Proofs.Shift.Basic

namespace LiquidTemplate

open Text
open Peg (Pair Grown)

variable {text : List Char} {offset k : Nat} {p : Pair Rule}

theorem span_add (hk : offset + byteLength text + k < Span.limit) (hp : Grown grammar text p) :
    p.span (offset + k) = (p.span offset).shift k := by
  have hstop := hp.stop_le
  obtain ⟨_, _, _, _, hstart⟩ := hp.text_eq
  rw [Pair.span, Pair.span, Span.shift_between (by omega) (by omega), Nat.add_right_comm offset k,
    Nat.add_right_comm offset k]

theorem malformed_add (hk : offset + byteLength text + k < Span.limit) (hp : Grown grammar text p) :
    malformed (offset + k) p = (malformed offset p).shift k := by
  rw [malformed, span_add hk hp]
  rfl

theorem missing_add (part : String) (hk : offset + byteLength text + k < Span.limit) (hp : Grown grammar text p) :
    missing part (p.span (offset + k)) = (missing part (p.span offset)).shift k := by
  rw [missing, span_add hk hp]
  rfl

theorem unexpected_add (hk : offset + byteLength text + k < Span.limit) (hp : Grown grammar text p) :
    unexpected (offset + k) p = (unexpected offset p).shift k := by
  rw [unexpected, span_add hk hp]
  rfl

theorem between_add {r : Rule} {start stop : Nat} {word : List Char} {children : List (Pair Rule)}
    (hk : offset + byteLength text + k < Span.limit)
    (hp : Grown grammar text ⟨r, start, stop, word, children⟩) :
    Span.between (offset + k + start) (offset + k + stop) =
      (Span.between (offset + start) (offset + stop)).shift k :=
  span_add hk hp

theorem point_add {n : Nat} (h : n < Span.limit) : Span.point (n + k) = (Span.point n).shift k := by
  rw [Span.point, Span.point, Span.shift_between h h]

theorem ofMismatch_add {mismatch : Peg.Grammar.Mismatch Rule} {rule : Rule}
    (hk : offset + byteLength text + k < Span.limit)
    (h : grammar.parse rule text = .error mismatch) :
    Error.ofMismatch (offset + k) mismatch = (Error.ofMismatch offset mismatch).shift k := by
  cases mismatch with
  | unmatched failure surprises =>
      have hle := Peg.Grammar.offset_parse_le h
      rw [Error.ofMismatch, Nat.add_right_comm, point_add (by omega)]
      rfl
  | fault f =>
      rw [Error.ofMismatch, point_add (by omega)]
      rfl

namespace Expression

/-- An expression that is read further to the right is the same, moved right. -/
theorem ofPair_add (hk : offset + byteLength text + k < Span.limit) (hp : Grown grammar text p) :
    ofPair (offset + k) p = moved k (shift k) (ofPair offset p) := by
  revert hp
  refine ofPair.induct offset
    (fun p => Grown grammar text p → ofPair (offset + k) p = moved k (shift k) (ofPair offset p))
    (fun ps => (∀ p ∈ ps, Grown grammar text p) →
      keysOfPairs (offset + k) ps = moved k (shiftAll k) (keysOfPairs offset ps))
    ?empty ?string ?number ?literal ?unknown ?noStart ?noEnd ?range ?named ?nameless ?other ?noKey ?dotKey ?noBracketKey
    ?bracketKey ?otherKey p
  case empty =>
    intro start stop word hp
    rw [ofPair, ofPair, between_add hk hp]
    rfl
  case string =>
    intro start stop word body rest hp
    rw [ofPair, ofPair, between_add hk hp]
    rfl
  case number =>
    intro start stop word children hp
    rw [ofPair, ofPair, between_add hk hp]
    rfl
  case literal =>
    intro start stop word children value hvalue hp
    rw [ofPair, ofPair, hvalue, between_add hk hp]
    rfl
  case unknown =>
    intro start stop word children hvalue hp
    rw [ofPair, ofPair, hvalue, malformed_add hk hp]
    rfl
  case noStart =>
    intro start stop word hp
    rw [ofPair, ofPair, between_add hk hp]
    rfl
  case noEnd =>
    intro start stop word first hp
    rw [ofPair, ofPair, between_add hk hp]
    rfl
  case range =>
    intro start stop word first last rest ihfirst ihlast hp
    rw [ofPair, ofPair, ihfirst (hp.children first (by simp)), ihlast (hp.children last (by simp)), between_add hk hp]
    apply moved_bind
    intro e _
    apply moved_bind
    intro e' _
    rfl
  case named =>
    intro start stop word start' stop' name children keys ih hp
    rw [ofPair, ofPair, ih fun q hq => hp.children q (by simp [hq]), between_add hk hp]
    apply moved_bind
    intro es _
    rfl
  case nameless =>
    intro start stop word keys hname ih hp
    rw [ofPair, ofPair, ih hp.children, between_add hk hp]
    · apply moved_bind
      intro es _
      rfl
    · exact hname
    · exact hname
  case other =>
    intro p hempty hstring hnumber hliteral hnoStart hnoEnd hrange hname hlookup hp
    rw [ofPair, ofPair, unexpected_add hk hp]
    · rfl
    all_goals assumption
  case noKey =>
    intro _
    rfl
  case dotKey =>
    intro start stop name children rest ih hps
    obtain ⟨hp, hrest⟩ := List.forall_mem_cons.mp hps
    rw [keysOfPairs, keysOfPairs, ih hrest, between_add hk hp]
    apply moved_bind
    intro es _
    rfl
  case noBracketKey =>
    intro start stop word rest hps
    rw [keysOfPairs, keysOfPairs, between_add hk (List.forall_mem_cons.mp hps).1]
    rfl
  case bracketKey =>
    intro start stop word key children rest ihkey ihrest hps
    obtain ⟨hp, hrest⟩ := List.forall_mem_cons.mp hps
    rw [keysOfPairs, keysOfPairs, ihkey (hp.children key (by simp)), ihrest hrest]
    apply moved_bind
    intro e _
    apply moved_bind
    intro es _
    rfl
  case otherKey =>
    intro p rest hname hnoKey hkey hps
    obtain ⟨hp, hrest⟩ := List.forall_mem_cons.mp hps
    rw [keysOfPairs, keysOfPairs, unexpected_add hk hp]
    · rfl
    all_goals assumption

end Expression

theorem NamedArgument.ofPair_add (hk : offset + byteLength text + k < Span.limit)
    (hp : Grown grammar text p) :
    NamedArgument.ofPair (offset + k) p = moved k (shift k) (NamedArgument.ofPair offset p) := by
  unfold NamedArgument.ofPair
  split
  case h_3 name value rest hrule hchildren =>
    rw [Expression.ofPair_add hk (hp.children value (by simp [hchildren])), span_add hk hp]
    apply moved_bind
    intro e _
    rfl
  case h_4 =>
    rw [unexpected_add hk hp]
    rfl
  all_goals
    rw [missing_add _ hk hp]
    rfl

theorem Argument.ofPair_add (hk : offset + byteLength text + k < Span.limit)
    (hp : Grown grammar text p) :
    Argument.ofPair (offset + k) p = moved k (shift k) (Argument.ofPair offset p) := by
  unfold Argument.ofPair
  split
  · rw [NamedArgument.ofPair_add hk hp]
    apply moved_map
    intro a
    rfl
  · rw [Expression.ofPair_add hk hp]
    apply moved_map
    intro e
    rfl

theorem Filter.ofPair_add (hk : offset + byteLength text + k < Span.limit)
    (hp : Grown grammar text p) :
    Filter.ofPair (offset + k) p = moved k (shift k) (Filter.ofPair offset p) := by
  unfold Filter.ofPair
  split
  · rename_i name arguments hchildren
    have harguments : ∀ q ∈ arguments, Grown grammar text q :=
      fun q hq => hp.children q (by simp [hchildren, hq])
    rw [moved_mapM fun q hq => Argument.ofPair_add hk (harguments q hq), span_add hk hp]
    apply moved_bind
    intro es _
    rfl
  · rw [missing_add _ hk hp]
    rfl

theorem Variable.ofPair_add (hk : offset + byteLength text + k < Span.limit)
    (hp : Grown grammar text p) :
    Variable.ofPair (offset + k) p = moved k (shift k) (Variable.ofPair offset p) := by
  unfold Variable.ofPair
  split
  · rename_i value filters hchildren
    have hfilters : ∀ q ∈ filters, Grown grammar text q :=
      fun q hq => hp.children q (by simp [hchildren, hq])
    rw [Expression.ofPair_add hk (hp.children value (by simp [hchildren])),
      moved_mapM fun q hq => Filter.ofPair_add hk (hfilters q hq), span_add hk hp]
    apply moved_bind
    intro e _
    apply moved_bind
    intro fs _
    rfl
  · rw [missing_add _ hk hp]
    rfl

theorem Test.ofPair_add (hk : offset + byteLength text + k < Span.limit)
    (hp : Grown grammar text p) :
    Test.ofPair (offset + k) p = moved k (shift k) (Test.ofPair offset p) := by
  unfold Test.ofPair
  split
  case h_4 left comparator right rest hrule hchildren =>
    have hleft := hp.children left (by simp [hchildren])
    have hright := hp.children right (by simp [hchildren])
    split
    · rw [Expression.ofPair_add hk hleft, Expression.ofPair_add hk hright, span_add hk hp]
      apply moved_bind
      intro e _
      apply moved_bind
      intro e' _
      rfl
    · rw [malformed_add hk (hp.children comparator (by simp [hchildren]))]
      rfl
  case h_5 =>
    rw [Expression.ofPair_add hk hp]
    apply moved_map
    intro e
    rfl
  all_goals
    rw [missing_add _ hk hp]
    rfl

theorem Clause.ofPairs_add (hk : offset + byteLength text + k < Span.limit)
    (before : Option Connective) {ps : List (Pair Rule)} (hps : ∀ p ∈ ps, Grown grammar text p) :
    Clause.ofPairs (offset + k) before ps =
      moved k (List.map (shift k)) (Clause.ofPairs offset before ps) := by
  induction ps generalizing before with
  | nil => rfl
  | cons p ps ih =>
      obtain ⟨hp, hrest⟩ := List.forall_mem_cons.mp hps
      unfold Clause.ofPairs
      split
      · exact ih _ hrest
      · rw [missing_add _ hk hp]
        rfl
      · rename_i test rest hrule hchildren
        rw [Test.ofPair_add hk (hp.children test (by simp [hchildren])), ih _ hrest, span_add hk hp]
        apply moved_bind
        intro t _
        apply moved_bind
        intro cs _
        rfl
      · rw [unexpected_add hk hp]
        rfl

namespace Markup

theorem renderVariableOfPair_add (hk : offset + byteLength text + k < Span.limit) (hp : Grown grammar text p)
    (hrule : p.rule = .renderVariable) :
    renderVariableOfPair (offset + k) p =
      moved k (RenderVariable.shift k) (renderVariableOfPair offset p) := by
  obtain ⟨mode, value, m, hchildren, _, heq⟩ := renderVariableOfPair_eq hp hrule
  rw [heq, heq, Expression.ofPair_add hk (hp.children value (by simp [hchildren])), span_add hk hp]
  exact moved_map fun _ => rfl

theorem renderAliasOfPair_add (hk : offset + byteLength text + k < Span.limit) (hp : Grown grammar text p)
    (hrule : p.rule = .renderAlias) :
    renderAliasOfPair (offset + k) p = moved k (RenderAlias.shift k) (renderAliasOfPair offset p) := by
  obtain ⟨word, name, hchildren, _, heq⟩ := renderAliasOfPair_eq hp hrule
  rw [heq, heq, span_add hk (hp.children name (by simp [hchildren]))]
  rfl

theorem moved_optionMapM {α β : Type} {f : β → β} {g g' : α → Except Error β} {x : Option α}
    (hg : ∀ a ∈ x, g' a = moved k f (g a)) : x.mapM g' = moved k (Option.map f) (x.mapM g) := by
  cases x with
  | none => rfl
  | some a =>
      rw [Option.mapM_some, Option.mapM_some, hg a rfl]
      apply moved_map
      intro b
      rfl

/-- Markup that is read further to the right is the same, moved right. -/
theorem ofPair_add (hk : offset + byteLength text + k < Span.limit) {tag : NamedTag} (hp : Grown grammar text p)
    (htag : tag.markupRule? = some p.rule) :
    ofPair (offset + k) tag p = moved k (shiftFlat k) (ofPair offset tag p) := by
  obtain ⟨f, hshape, heq⟩ := exists_shape hp htag
  have hparts := grown_parts hp
  have harguments : ∀ {arguments : List (Pair Rule)}, (∀ q ∈ arguments, q ∈ parts p) →
      arguments.mapM (NamedArgument.ofPair (offset + k)) =
        moved k (List.map (NamedArgument.shift k)) (arguments.mapM (NamedArgument.ofPair offset)) :=
    fun hmem => moved_mapM fun q hq => NamedArgument.ofPair_add hk (hparts q (hmem q hq))
  have hexpressions : ∀ {values : List (Pair Rule)}, (∀ q ∈ values, q ∈ parts p) →
      values.mapM (Expression.ofPair (offset + k)) =
        moved k (List.map (Expression.shift k)) (values.mapM (Expression.ofPair offset)) :=
    fun hmem => moved_mapM fun q hq => Expression.ofPair_add hk (hparts q (hmem q hq))
  rw [heq, heq]
  cases hshape with dsimp only
  | @assign name value hitems =>
      rw [Variable.ofPair_add hk (hparts value (by simp [hitems]))]
      exact moved_map fun _ => rfl
  | variableName => rfl
  | @caseOf value hitems | @layout value hitems | @sectionName _ value hitems =>
      rw [Expression.ofPair_add hk (hparts value (by simp [hitems]))]
      exact moved_map fun _ => rfl
  | @echo value hitems =>
      rw [Variable.ofPair_add hk (hparts value (by simp [hitems]))]
      exact moved_map fun _ => rfl
  | whenAny =>
      rw [hexpressions fun q hq => (List.mem_filter.mp hq).1]
      exact moved_map fun _ => rfl
  | condition =>
      rw [Clause.ofPairs_add hk none hparts]
      exact moved_map fun _ => rfl
  | @loop _ name word collection reversed arguments hitems =>
      rw [Expression.ofPair_add hk (hparts collection (by simp [hitems])), harguments fun q hq => by simp [hitems, hq]]
      apply moved_bind
      intro e _
      apply moved_bind
      intro es _
      rfl
  | @cycle values hitems =>
      rw [hexpressions fun q hq => hitems ▸ hq]
      exact moved_map fun _ => rfl
  | @grouped group value values hitems hchildren =>
      have hgroup : Grown grammar text group := hparts group (by simp [hitems])
      rw [Expression.ofPair_add hk (hgroup.children value (by simp [hchildren])),
        hexpressions fun q hq => by simp [hitems, hq]]
      apply moved_bind
      intro e _
      apply moved_bind
      intro es _
      rfl
  | @render _ snippet name value asName arguments hitems hchildren _ hvalue hasName =>
      have hsnippet : Grown grammar text snippet := hparts snippet (by simp [hitems])
      have hvalue : ∀ q ∈ value, Grown grammar text q ∧ q.rule = .renderVariable :=
        fun q hq => ⟨hparts q (by simp [hitems, Option.mem_toList.mpr hq]), hvalue q hq⟩
      have hasName : ∀ q ∈ asName, Grown grammar text q ∧ q.rule = .renderAlias :=
        fun q hq => ⟨hparts q (by simp [hitems, Option.mem_toList.mpr hq]), hasName q hq⟩
      rw [Expression.ofPair_add hk (hsnippet.children name (by simp [hchildren])),
        moved_optionMapM fun q hq => renderVariableOfPair_add hk (hvalue q hq).1 (hvalue q hq).2,
        moved_optionMapM fun q hq => renderAliasOfPair_add hk (hasName q hq).1 (hasName q hq).2,
        harguments fun q hq => by simp [hitems, hq]]
      apply moved_bind
      intro e _
      apply moved_bind
      intro v _
      apply moved_bind
      intro a _
      apply moved_bind
      intro as _
      rfl
  | @paginate collection word pageSize arguments hitems =>
      rw [Expression.ofPair_add hk (hparts collection (by simp [hitems])),
        Expression.ofPair_add hk (hparts pageSize (by simp [hitems])), harguments fun q hq => by simp [hitems, hq]]
      apply moved_bind
      intro e _
      apply moved_bind
      intro e' _
      apply moved_bind
      intro es _
      rfl
  | @contentFor type arguments hitems =>
      rw [Expression.ofPair_add hk (hparts type (by simp [hitems])), harguments fun q hq => by simp [hitems, hq]]
      apply moved_bind
      intro e _
      apply moved_bind
      intro es _
      rfl
  | form =>
      rw [moved_mapM fun q hq => Argument.ofPair_add hk (hparts q hq)]
      exact moved_map fun _ => rfl

theorem matchRule_add {start : Nat} {mode : Mode} {rule : Rule}
    (hk : start + byteLength text + k < Span.limit) (hoffset : offset ≤ start) :
    matchRule ⟨offset + k, mode⟩ (start + k) rule text =
      moved k id (matchRule ⟨offset, mode⟩ start rule text) := by
  unfold matchRule
  simp only
  split
  · rename_i mismatch hparse
    have hk' : offset + byteLength text + k < Span.limit := by omega
    rw [ofMismatch_add hk' hparse]
    split
    · rfl
    · rfl
  · rename_i pairs hparse
    have hgrown := (Peg.Grammar.grown_parse hparse).1
    cases hname : (if mode = .completion then none else placeholderName? pairs) with
    | some name =>
        have hseen : Grown grammar text name := by
          split at hname
          · cases hname
          · exact Grown.flattenAll hgrown (List.mem_of_find?_eq_some hname)
        simp only [span_add hk hseen]
        split
        · rfl
        · rfl
    | none =>
        cases pairs with
        | cons p ps => rfl
        | nil =>
            have hspan : Span.between (start + k) (start + k + byteLength text) =
                (Span.between start (start + byteLength text)).shift k := by
              rw [Span.shift_between (by omega) (by omega), Nat.add_right_comm]
            simp only [hspan]
            rfl

theorem read_add {start : Nat} {mode : Mode} {tag : NamedTag} {rule : Rule} (htag : tag.markupRule? = some rule)
    (hk : start + byteLength text + k < Span.limit) (hoffset : offset ≤ start) :
    read ⟨offset + k, mode⟩ (start + k) tag rule text =
      moved k (shiftFlat k) (read ⟨offset, mode⟩ start tag rule text) := by
  unfold read
  rw [matchRule_add hk hoffset]
  apply moved_bind
  intro p? hp
  cases p? with
  | none => rfl
  | some p => exact ofPair_add hk (grown_matchRule hp) (rule_matchRule (NamedTag.branches_markupRule htag) hp ▸ htag)

end Markup

end LiquidTemplate
