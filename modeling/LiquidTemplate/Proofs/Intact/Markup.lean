import LiquidTemplate.Proofs.Markup.Reader

namespace LiquidTemplate

open Peg Rule

variable {text : List Char} {p : Pair Rule} {offset : Nat}

namespace Markup

theorem succeeds_arguments {ps : List (Pair Rule)}
    (hps : ∀ p ∈ ps, Grown grammar text p ∧ p.rule = .namedArgument) :
    Succeeds (ps.mapM (NamedArgument.ofPair offset)) := by
  apply succeeds_mapM
  intro q hq
  exact NamedArgument.succeeds_ofPair (hps q hq).1 (hps q hq).2

theorem succeeds_expressions {ps : List (Pair Rule)}
    (hps : ∀ p ∈ ps, Grown grammar text p ∧ p.rule ∈ expressionParts) :
    Succeeds (ps.mapM (Expression.ofPair offset)) := by
  apply succeeds_mapM
  intro q hq
  exact Expression.succeeds_ofPair (hps q hq).1 (hps q hq).2

theorem succeeds_renderVariableOfPair (hp : Grown grammar text p) (hrule : p.rule = .renderVariable) :
    Succeeds (renderVariableOfPair offset p) := by
  obtain ⟨mode, value, m, hchildren, hvalue, heq⟩ := renderVariableOfPair_eq hp hrule
  rw [heq]
  exact succeeds_map (Expression.succeeds_ofPair (hp.children value (by simp [hchildren])) hvalue)

theorem succeeds_renderAliasOfPair (hp : Grown grammar text p) (hrule : p.rule = .renderAlias) :
    Succeeds (renderAliasOfPair offset p) := by
  obtain ⟨word, name, _, _, heq⟩ := renderAliasOfPair_eq hp hrule
  rw [heq]
  exact succeeds_ok _

/-- The parse tree of a tag's own rule is read. -/
theorem succeeds_ofPair {tag : NamedTag} (hp : Grown grammar text p)
    (htag : tag.markupRule? = some p.rule) : Succeeds (ofPair offset tag p) := by
  obtain ⟨f, hshape, heq⟩ := exists_shape hp htag
  have hgrown := grown_parts hp
  rw [heq]
  cases hshape with
  | @assign name value hparts _ hvalue =>
      exact succeeds_map (Variable.succeeds_ofPair (hgrown value (by simp [hparts])) hvalue)
  | variableName => exact succeeds_ok _
  | @caseOf value hparts hvalue | @layout value hparts hvalue | @sectionName _ value hparts hvalue =>
      exact succeeds_map (Expression.succeeds_ofPair (hgrown value (by simp [hparts])) hvalue)
  | @echo value hparts hvalue =>
      exact succeeds_map (Variable.succeeds_ofPair (hgrown value (by simp [hparts])) hvalue)
  | whenAny hrules =>
      apply succeeds_map
      apply succeeds_expressions
      intro q hq
      obtain ⟨hq, hne⟩ := List.mem_filter.mp hq
      exact ⟨hgrown q hq, (List.mem_cons.mp (hrules q hq)).resolve_left (bne_iff_ne.mp hne)⟩
  | condition hrules => exact succeeds_map (Clause.succeeds_ofPairs fun q hq => ⟨hgrown q hq, hrules q hq⟩)
  | @loop _ name word collection reversed arguments hparts _ hcollection harguments =>
      apply succeeds_bind (Expression.succeeds_ofPair (hgrown collection (by simp [hparts])) hcollection)
      intro _
      apply succeeds_bind (succeeds_arguments fun q hq => ⟨hgrown q (by simp [hparts, hq]), harguments q hq⟩)
      intro _
      exact succeeds_ok _
  | @cycle values hparts hvalues =>
      exact succeeds_map (succeeds_expressions fun q hq => ⟨hgrown q (hparts ▸ hq), hvalues q hq⟩)
  | @grouped group value values hparts hchildren hvalue hvalues =>
      have hgroup : Grown grammar text group := hgrown group (by simp [hparts])
      apply succeeds_bind (Expression.succeeds_ofPair (hgroup.children value (by simp [hchildren])) hvalue)
      intro _
      apply succeeds_bind (succeeds_expressions fun q hq => ⟨hgrown q (by simp [hparts, hq]), hvalues q hq⟩)
      intro _
      exact succeeds_ok _
  | @render _ snippet name value asName arguments hparts hchildren hname hvalue hasName harguments =>
      have hsnippet : Grown grammar text snippet := hgrown snippet (by simp [hparts])
      apply succeeds_bind (Expression.succeeds_ofPair (hsnippet.children name (by simp [hchildren])) hname)
      intro _
      apply succeeds_bind
      · apply succeeds_optionMapM
        intro q hq
        exact succeeds_renderVariableOfPair (hgrown q (by simp [hparts, Option.mem_toList.mpr hq])) (hvalue q hq)
      intro _
      apply succeeds_bind
      · apply succeeds_optionMapM
        intro q hq
        exact succeeds_renderAliasOfPair (hgrown q (by simp [hparts, Option.mem_toList.mpr hq])) (hasName q hq)
      intro _
      apply succeeds_bind (succeeds_arguments fun q hq => ⟨hgrown q (by simp [hparts, hq]), harguments q hq⟩)
      intro _
      exact succeeds_ok _
  | @paginate collection word pageSize arguments hparts hcollection hpageSize harguments =>
      apply succeeds_bind (Expression.succeeds_ofPair (hgrown collection (by simp [hparts])) hcollection)
      intro _
      apply succeeds_bind (Expression.succeeds_ofPair (hgrown pageSize (by simp [hparts])) hpageSize)
      intro _
      apply succeeds_bind (succeeds_arguments fun q hq => ⟨hgrown q (by simp [hparts, hq]), harguments q hq⟩)
      intro _
      exact succeeds_ok _
  | @contentFor type arguments hparts htype harguments =>
      apply succeeds_bind (Expression.succeeds_ofPair (hgrown type (by simp [hparts])) htype)
      intro _
      apply succeeds_bind (succeeds_arguments fun q hq => ⟨hgrown q (by simp [hparts, hq]), harguments q hq⟩)
      intro _
      exact succeeds_ok _
  | form hrules =>
      exact succeeds_map (succeeds_mapM fun q hq => Argument.succeeds_ofPair (hgrown q hq) (hrules q hq))

end Markup

end LiquidTemplate
