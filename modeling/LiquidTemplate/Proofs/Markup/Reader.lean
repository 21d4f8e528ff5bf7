import LiquidTemplate.Proofs.Intact.Expression

namespace LiquidTemplate

open Peg Rule

variable {text : List Char} {p : Pair Rule} {offset : Nat}

namespace Markup

theorem grown_parts (hp : Grown grammar text p) : ∀ q ∈ parts p, Grown grammar text q :=
  fun q hq => hp.children q (List.mem_filter.mp hq).1

/-- The parts of a markup are arranged as its rule says, without the mark for its end. -/
theorem arranged_parts {r : Rule} (hp : Grown grammar text p) (hrule : p.rule = r)
    (hbranches : (grammar.kind r).branches)
    (hend : ∀ place ∈ r.places, ∀ s ∈ place.rules, (s != .endOfInput) = place.rules.all (· != .endOfInput)) :
    Arranged (r.places.filter (·.rules.all (· != .endOfInput))) (parts p) :=
  (arranged_children hp hrule hbranches).filter hend

theorem renderVariableOfPair_eq (hp : Grown grammar text p) (hrule : p.rule = .renderVariable) :
    ∃ mode value m, p.children = [mode, value] ∧ value.rule ∈ expressionParts ∧
      ∀ offset, renderVariableOfPair offset p =
        (fun e => ⟨m, e, p.span offset⟩) <$> Expression.ofPair offset value := by
  obtain ⟨mode, _, hchildren, hmode, value, _, rfl, hvalue, rfl⟩ := arranged_children hp hrule rfl
  obtain ⟨m, hm⟩ := Option.isSome_iff_exists.mp
    (renderKind_text (hp.children mode (by simp [hchildren])) (List.mem_singleton.mp hmode))
  refine ⟨mode, value, m, hchildren, hvalue, fun offset => ?_⟩
  simp only [renderVariableOfPair, hchildren, List.getElem?_cons_zero, List.getElem?_cons_succ, expect_some, ok_bind,
    hm, bind_pure_comp]

theorem renderAliasOfPair_eq (hp : Grown grammar text p) (hrule : p.rule = .renderAlias) :
    ∃ word name, p.children = [word, name] ∧ name.rule = .variableName ∧
      ∀ offset, renderAliasOfPair offset p = .ok ⟨name.string, name.span offset⟩ := by
  obtain ⟨word, _, hchildren, hword, name, _, rfl, hname, rfl⟩ := arranged_children hp hrule rfl
  have hfind : p.children.find? (·.rule == .variableName) = some name := by
    simp [hchildren, List.mem_singleton.mp hword, List.mem_singleton.mp hname]
  refine ⟨word, name, hchildren, List.mem_singleton.mp hname, fun offset => ?_⟩
  simp only [renderAliasOfPair, hfind]

/-- What stands in the markup of a tag, and what is made of it at each offset. -/
inductive Shape (p : Pair Rule) : NamedTag → (Nat → Except Error Flat) → Prop
  | assign {name value} : parts p = [name, value] → name.rule = .variableName → value.rule = .liquidVariable →
      Shape p .assign fun offset => Markup.assign name.string <$> Variable.ofPair offset value
  | variableName {tag name} : p.rule = .markupVariableName → parts p = [name] →
      Shape p tag fun _ => .ok (.variableName (nameOfPair name))
  | caseOf {value} : parts p = [value] → value.rule ∈ expressionParts →
      Shape p .caseTag fun offset => Markup.caseOf <$> Expression.ofPair offset value
  | layout {value} : parts p = [value] → value.rule ∈ expressionParts →
      Shape p .layout fun offset => Markup.layout <$> Expression.ofPair offset value
  | sectionName {tag value} : parts p = [value] → value.rule ∈ expressionParts →
      Shape p tag fun offset => Markup.sectionName <$> Expression.ofPair offset value
  | echo {value} : parts p = [value] → value.rule = .liquidVariable →
      Shape p .echo fun offset => Markup.echo <$> Variable.ofPair offset value
  | whenAny : (∀ q ∈ parts p, q.rule ∈ logicalOperator :: expressionParts) →
      Shape p .whenTag fun offset =>
        Markup.whenAny <$> ((parts p).filter (·.rule != .logicalOperator)).mapM (Expression.ofPair offset)
  | condition {tag} : (∀ q ∈ parts p, q.rule ∈ [logicalOperator, Rule.condition]) →
      Shape p tag fun offset => Markup.condition <$> Clause.ofPairs offset none (parts p)
  | loop {tag} {name word collection : Pair Rule} {reversed : Option (Pair Rule)} {arguments : List (Pair Rule)} :
      parts p = name :: word :: collection :: (reversed.toList ++ arguments) → name.rule = .variableName →
      collection.rule ∈ expressionParts → (∀ q ∈ arguments, q.rule = .namedArgument) →
      Shape p tag fun offset => do
        let collection ← Expression.ofPair offset collection
        let arguments ← arguments.mapM (NamedArgument.ofPair offset)
        return Markup.loop ⟨name.string, collection, reversed.isSome, arguments⟩
  | cycle {values} : parts p = values → (∀ q ∈ values, q.rule ∈ expressionParts) →
      Shape p .cycle fun offset => Markup.cycle none <$> values.mapM (Expression.ofPair offset)
  | grouped {group value values} : parts p = group :: values → group.children = [value] →
      value.rule ∈ expressionParts → (∀ q ∈ values, q.rule ∈ expressionParts) →
      Shape p .cycle fun offset => do
        let group ← Expression.ofPair offset value
        let values ← values.mapM (Expression.ofPair offset)
        return Markup.cycle (some group) values
  | render {tag} {snippet name : Pair Rule} {value asName : Option (Pair Rule)} {arguments : List (Pair Rule)} :
      parts p = snippet :: (value.toList ++ (asName.toList ++ arguments)) → snippet.children = [name] →
      name.rule ∈ expressionParts → (∀ q ∈ value, q.rule = .renderVariable) →
      (∀ q ∈ asName, q.rule = .renderAlias) → (∀ q ∈ arguments, q.rule = .namedArgument) →
      Shape p tag fun offset => do
        let snippet ← Expression.ofPair offset name
        let value ← value.mapM (renderVariableOfPair offset)
        let asName ← asName.mapM (renderAliasOfPair offset)
        let arguments ← arguments.mapM (NamedArgument.ofPair offset)
        return Markup.render ⟨snippet, value, asName, arguments⟩
  | paginate {collection word pageSize arguments} : parts p = collection :: word :: pageSize :: arguments →
      collection.rule ∈ expressionParts → pageSize.rule ∈ expressionParts →
      (∀ q ∈ arguments, q.rule = .namedArgument) →
      Shape p .paginate fun offset => do
        let collection ← Expression.ofPair offset collection
        let pageSize ← Expression.ofPair offset pageSize
        let arguments ← arguments.mapM (NamedArgument.ofPair offset)
        return Markup.paginate collection pageSize arguments
  | contentFor {type arguments} : parts p = type :: arguments → type.rule ∈ expressionParts →
      (∀ q ∈ arguments, q.rule = .namedArgument) →
      Shape p .contentFor fun offset => do
        let type ← Expression.ofPair offset type
        let arguments ← arguments.mapM (NamedArgument.ofPair offset)
        return Markup.contentFor type arguments
  | form : (∀ q ∈ parts p, q.rule ∈ namedArgument :: expressionParts) →
      Shape p .form fun offset => Markup.form <$> (parts p).mapM (Argument.ofPair offset)

section Parts

variable {q : Pair Rule} {tag : NamedTag}

theorem LoopParts.add_expression (l : LoopParts) (hq : q.rule ∈ expressionParts) :
    l.add offset q = (fun e => { l with collection := some e }) <$> Expression.ofPair offset q := by
  have hplain : ∀ r ∈ expressionParts, r ∉ [Rule.variableName, .kwIn, .reversed, .namedArgument] := by decide
  have hne := hplain _ hq
  unfold LoopParts.add
  split
  case h_5 => rw [bind_pure_comp]
  all_goals simp_all

theorem LoopParts.foldlM_arguments {ps : List (Pair Rule)} (hps : ∀ q ∈ ps, q.rule = .namedArgument) (l : LoopParts) :
    ps.foldlM (LoopParts.add offset) l =
      (fun as => { l with arguments := l.arguments ++ as }) <$> ps.mapM (NamedArgument.ofPair offset) := by
  refine foldlM_collect (fun (l : LoopParts) as => { l with arguments := l.arguments ++ as }) ?_ (by simp) (by simp) l
  intro q hq l
  simp only [LoopParts.add, hps q hq, bind_pure_comp]

theorem LoopParts.foldlM_reversed {o : Option (Pair Rule)} (ho : ∀ q ∈ o, q.rule = .reversed) (l : LoopParts)
    (ps : List (Pair Rule)) :
    (o.toList ++ ps).foldlM (LoopParts.add offset) l =
      ps.foldlM (LoopParts.add offset) { l with reversed := l.reversed || o.isSome } := by
  cases o with
  | none => simp
  | some q => simp [LoopParts.add, ho q rfl]

theorem shape_loop (hp : Grown grammar text p) (hrule : p.rule = .markupFor) :
    ∃ f, Shape p tag f ∧ ∀ offset s, Markup.loop <$> loopOfPairs offset s (parts p) = f offset := by
  obtain ⟨name, _, hparts, hname, word, _, rfl, hword, collection, _, rfl, hcollection, h⟩ :=
    arranged_parts hp hrule rfl (by decide)
  obtain ⟨reversed, arguments, rfl, hreversed, harguments⟩ := h.maybe
  have hname := List.mem_singleton.mp hname
  have hword := List.mem_singleton.mp hword
  have hreversed : ∀ q ∈ reversed, q.rule = .reversed := fun q hq => List.mem_singleton.mp (hreversed q hq)
  have harguments : ∀ q ∈ arguments, q.rule = .namedArgument :=
    fun q hq => List.mem_singleton.mp (harguments.all q hq)
  refine ⟨_, .loop hparts hname hcollection harguments, fun offset s => ?_⟩
  have hstart : ∀ rest, (name :: word :: rest).foldlM (LoopParts.add offset) {} =
      rest.foldlM (LoopParts.add offset) { name := some name.string } := by
    intro rest
    simp only [List.foldlM_cons, LoopParts.add, hname, hword, ok_bind]
  rw [hparts, loopOfPairs, hstart, List.foldlM_cons, LoopParts.add_expression _ hcollection]
  simp only [bind_map_left, bind_assoc, map_bind, LoopParts.foldlM_reversed hreversed,
    LoopParts.foldlM_arguments harguments, List.nil_append, Bool.false_or, map_pure]

theorem RenderParts.foldlM_arguments {ps : List (Pair Rule)} (hps : ∀ q ∈ ps, q.rule = .namedArgument)
    (r : RenderParts) :
    ps.foldlM (RenderParts.add offset) r =
      (fun as => { r with arguments := r.arguments ++ as }) <$> ps.mapM (NamedArgument.ofPair offset) := by
  refine foldlM_collect (fun (r : RenderParts) as => { r with arguments := r.arguments ++ as }) ?_ (by simp) (by simp) r
  intro q hq r
  simp only [RenderParts.add, hps q hq, bind_pure_comp]

theorem shape_render (hp : Grown grammar text p) (hrule : p.rule = .markupRender) :
    ∃ f, Shape p tag f ∧ ∀ offset s, Markup.render <$> renderOfPairs offset s (parts p) = f offset := by
  obtain ⟨snippet, _, hparts, hsnippet, h⟩ := arranged_parts hp hrule rfl (by decide)
  obtain ⟨value, _, rfl, hvalue, h⟩ := h.maybe
  obtain ⟨asName, arguments, rfl, hasName, harguments⟩ := h.maybe
  have hsnippet := List.mem_singleton.mp hsnippet
  have hvalue : ∀ q ∈ value, q.rule = .renderVariable := fun q hq => List.mem_singleton.mp (hvalue q hq)
  have hasName : ∀ q ∈ asName, q.rule = .renderAlias := fun q hq => List.mem_singleton.mp (hasName q hq)
  have harguments : ∀ q ∈ arguments, q.rule = .namedArgument :=
    fun q hq => List.mem_singleton.mp (harguments.all q hq)
  obtain ⟨name, _, hchildren, hname, rfl⟩ :=
    arranged_children (grown_parts hp snippet (by simp [hparts])) hsnippet rfl
  have hnames : ∀ r ∈ [Rule.string, variableLookup], r ∈ expressionParts := by decide
  refine ⟨_, .render hparts hchildren (hnames _ hname) hvalue hasName harguments, fun offset s => ?_⟩
  have hputValue : ∀ e ps, (value.toList ++ ps).foldlM (RenderParts.add offset) { snippet := some e } =
      value.mapM (renderVariableOfPair offset) >>= fun v =>
        ps.foldlM (RenderParts.add offset) { snippet := some e, value := v } := by
    intro e
    refine foldlM_toList_append (fun v => (⟨some e, v, none, []⟩ : RenderParts)) fun q hq => ?_
    simp only [RenderParts.add, hvalue q hq, bind_pure_comp]
  have hputName : ∀ e v ps, (asName.toList ++ ps).foldlM (RenderParts.add offset) { snippet := some e, value := v } =
      asName.mapM (renderAliasOfPair offset) >>= fun a =>
        ps.foldlM (RenderParts.add offset) { snippet := some e, value := v, asName := a } := by
    intro e v
    refine foldlM_toList_append (fun a => (⟨some e, v, a, []⟩ : RenderParts)) fun q hq => ?_
    simp only [RenderParts.add, hasName q hq, bind_pure_comp]
  rw [hparts, renderOfPairs, List.foldlM_cons, RenderParts.add, hsnippet, hchildren]
  simp only [List.getElem?_cons_zero, expect_some, ok_bind, bind_assoc, pure_bind, hputValue, hputName,
    RenderParts.foldlM_arguments harguments, bind_map_left, map_bind, map_pure, List.nil_append]

theorem CycleParts.foldlM_values {s : Span} {ps : List (Pair Rule)} (hps : ∀ q ∈ ps, q.rule ∈ expressionParts)
    (c : CycleParts) :
    ps.foldlM (CycleParts.add offset s) c =
      (fun es => { c with values := c.values ++ es }) <$> ps.mapM (Expression.ofPair offset) := by
  refine foldlM_collect (fun (c : CycleParts) es => { c with values := c.values ++ es }) ?_ (by simp) (by simp) c
  intro q hq c
  have hplain : Rule.cycleGroup ∉ expressionParts := by decide
  unfold CycleParts.add
  split
  · rename_i hgroup
    exact absurd (hgroup ▸ hps q hq) hplain
  · rw [bind_pure_comp]

theorem shape_cycle (hp : Grown grammar text p) (hrule : p.rule = .markupCycle) :
    ∃ f, Shape p .cycle f ∧ ∀ offset s, cycleOfPairs offset s (parts p) = f offset := by
  have hall : ∀ {qs : List (Pair Rule)}, Arranged [.one expressionParts, .many expressionParts] qs →
      ∀ q ∈ qs, q.rule ∈ expressionParts :=
    fun hqs => hqs.forall_rules (P := (· ∈ expressionParts)) (by decide)
  rcases arranged_parts hp hrule rfl (by decide) with ⟨group, values, hparts, hgroup, hvalues⟩ | hvalues
  · have hgroup := List.mem_singleton.mp hgroup
    obtain ⟨value, _, hchildren, hvalue, rfl⟩ :=
      arranged_children (grown_parts hp group (by simp [hparts])) hgroup rfl
    refine ⟨_, .grouped hparts hchildren hvalue (hall hvalues), fun offset s => ?_⟩
    rw [hparts, cycleOfPairs, List.foldlM_cons, CycleParts.add, hgroup, hchildren]
    simp only [List.getElem?_cons_zero, expect_some, ok_bind, bind_assoc, pure_bind,
      CycleParts.foldlM_values (hall hvalues), bind_map_left, List.nil_append]
  · refine ⟨_, .cycle rfl (hall hvalues), fun offset s => ?_⟩
    rw [cycleOfPairs, CycleParts.foldlM_values (hall hvalues), bind_map_left, bind_pure_comp]
    rfl

theorem PageParts.add_expression (g : PageParts) (hq : q.rule ∈ expressionParts) :
    g.add offset q = (fun e => { g with operands := g.operands ++ [e] }) <$> Expression.ofPair offset q := by
  have hplain : ∀ r ∈ expressionParts, r ∉ [Rule.kwBy, .namedArgument] := by decide
  have hne := hplain _ hq
  unfold PageParts.add
  split
  case h_3 => rw [bind_pure_comp]
  all_goals simp_all

theorem PageParts.foldlM_arguments {ps : List (Pair Rule)} (hps : ∀ q ∈ ps, q.rule = .namedArgument) (g : PageParts) :
    ps.foldlM (PageParts.add offset) g =
      (fun as => { g with arguments := g.arguments ++ as }) <$> ps.mapM (NamedArgument.ofPair offset) := by
  refine foldlM_collect (fun (g : PageParts) as => { g with arguments := g.arguments ++ as }) ?_ (by simp) (by simp) g
  intro q hq g
  simp only [PageParts.add, hps q hq, bind_pure_comp]

theorem shape_paginate (hp : Grown grammar text p) (hrule : p.rule = .markupPaginate) :
    ∃ f, Shape p .paginate f ∧ ∀ offset s, paginateOfPairs offset s (parts p) = f offset := by
  obtain ⟨collection, _, hparts, hcollection, word, _, rfl, hword, pageSize, arguments, rfl, hpageSize, harguments⟩ :=
    arranged_parts hp hrule rfl (by decide)
  have hword := List.mem_singleton.mp hword
  have harguments : ∀ q ∈ arguments, q.rule = .namedArgument :=
    fun q hq => List.mem_singleton.mp (harguments.all q hq)
  refine ⟨_, .paginate hparts hcollection hpageSize harguments, fun offset s => ?_⟩
  have hby : ∀ g : PageParts, g.add offset word = .ok g := fun g => by simp [PageParts.add, hword]
  rw [hparts, paginateOfPairs, List.foldlM_cons, PageParts.add_expression _ hcollection]
  simp only [List.foldlM_cons, hby, PageParts.add_expression _ hpageSize, PageParts.foldlM_arguments harguments,
    ok_bind, bind_map_left, bind_assoc, List.nil_append, List.singleton_append]

end Parts

/-- The parse tree of a tag's own rule has the parts that the tag needs. -/
theorem exists_shape {tag : NamedTag} (hp : Grown grammar text p) (htag : tag.markupRule? = some p.rule) :
    ∃ f, Shape p tag f ∧ ∀ offset, ofPair offset tag p = f offset := by
  cases tag with
  | liquid => cases htag
  | assign =>
      obtain ⟨name, _, hparts, hname, value, _, rfl, hvalue, rfl⟩ :=
        arranged_parts hp (Option.some.inj htag).symm rfl (by decide)
      refine ⟨_, .assign hparts (List.mem_singleton.mp hname) (List.mem_singleton.mp hvalue), fun offset => ?_⟩
      simp only [ofPair, hparts, List.getElem?_cons_zero, List.getElem?_cons_succ, expect_some, ok_bind, bind_pure_comp]
  | capture | decrement | increment =>
      have hrule := (Option.some.inj htag).symm
      obtain ⟨name, _, hparts, _, rfl⟩ := arranged_parts hp hrule rfl (by decide)
      refine ⟨_, .variableName hrule hparts, fun offset => ?_⟩
      simp only [ofPair, hparts, List.getElem?_cons_zero, expect_some, ok_bind]
      rfl
  | caseTag =>
      obtain ⟨value, _, hparts, hvalue, rfl⟩ := arranged_parts hp (Option.some.inj htag).symm rfl (by decide)
      refine ⟨_, .caseOf hparts hvalue, fun offset => ?_⟩
      simp only [ofPair, hparts, List.getElem?_cons_zero, expect_some, ok_bind, bind_pure_comp]
  | layout =>
      obtain ⟨value, _, hparts, hvalue, rfl⟩ := arranged_parts hp (Option.some.inj htag).symm rfl (by decide)
      refine ⟨_, .layout hparts hvalue, fun offset => ?_⟩
      simp only [ofPair, hparts, List.getElem?_cons_zero, expect_some, ok_bind, bind_pure_comp]
  | sectionTag | sections =>
      obtain ⟨name, _, hparts, hname, rfl⟩ := arranged_parts hp (Option.some.inj htag).symm rfl (by decide)
      have hname : name.rule ∈ expressionParts := by
        rw [List.mem_singleton.mp hname]
        decide
      refine ⟨_, .sectionName hparts hname, fun offset => ?_⟩
      simp only [ofPair, hparts, List.getElem?_cons_zero, expect_some, ok_bind, bind_pure_comp]
  | echo =>
      obtain ⟨value, _, hparts, hvalue, rfl⟩ := arranged_parts hp (Option.some.inj htag).symm rfl (by decide)
      refine ⟨_, .echo hparts (List.mem_singleton.mp hvalue), fun offset => ?_⟩
      simp only [ofPair, hparts, List.getElem?_cons_zero, expect_some, ok_bind, bind_pure_comp]
  | whenTag =>
      have hrules := (arranged_parts hp (Option.some.inj htag).symm rfl (by decide)).forall_rules
        (P := (· ∈ logicalOperator :: expressionParts)) (by decide)
      refine ⟨_, .whenAny hrules, fun offset => ?_⟩
      simp only [ofPair, bind_pure_comp]
  | ifTag | unlessTag | elsif =>
      have hrules := (arranged_parts hp (Option.some.inj htag).symm rfl (by decide)).forall_rules
        (P := (· ∈ [logicalOperator, Rule.condition])) (by decide)
      refine ⟨_, .condition hrules, fun offset => ?_⟩
      simp only [ofPair, bind_pure_comp]
  | forTag | tablerow =>
      obtain ⟨f, hshape, hf⟩ := shape_loop hp (Option.some.inj htag).symm
      refine ⟨f, hshape, fun offset => ?_⟩
      simp only [ofPair, bind_pure_comp, hf]
  | cycle =>
      obtain ⟨f, hshape, hf⟩ := shape_cycle hp (Option.some.inj htag).symm
      exact ⟨f, hshape, fun offset => hf offset _⟩
  | includeTag | render =>
      obtain ⟨f, hshape, hf⟩ := shape_render hp (Option.some.inj htag).symm
      refine ⟨f, hshape, fun offset => ?_⟩
      simp only [ofPair, bind_pure_comp, hf]
  | paginate =>
      obtain ⟨f, hshape, hf⟩ := shape_paginate hp (Option.some.inj htag).symm
      exact ⟨f, hshape, fun offset => hf offset _⟩
  | contentFor =>
      obtain ⟨type, arguments, hparts, htype, harguments⟩ :=
        arranged_parts hp (Option.some.inj htag).symm rfl (by decide)
      have htype : type.rule ∈ expressionParts := by
        rw [List.mem_singleton.mp htype]
        decide
      refine ⟨_, .contentFor hparts htype fun q hq => List.mem_singleton.mp (harguments.all q hq), fun offset => ?_⟩
      simp only [ofPair, hparts, List.getElem?_cons_zero, expect_some, ok_bind, List.tail_cons]
  | form =>
      have hrules := (arranged_parts hp (Option.some.inj htag).symm rfl (by decide)).forall_rules
        (P := (· ∈ namedArgument :: expressionParts)) (by decide)
      refine ⟨_, .form hrules, fun offset => ?_⟩
      simp only [ofPair, bind_pure_comp]

end Markup

end LiquidTemplate
