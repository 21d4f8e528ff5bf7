import LiquidTemplate.Markup.Reader
import LiquidTemplate.Proofs.Except
import LiquidTemplate.Proofs.Peg.Greedy
import LiquidTemplate.Proofs.Rule.Arrangement
import LiquidTemplate.Proofs.Rule.Expression

namespace LiquidTemplate

open Peg Peg.Expr Rule

variable {text : List Char} {p : Pair Rule} {offset : Nat}

/-- A word that no name character follows is one of the words that may stand there. -/
theorem takes_whole {P : List Char → Bool} {c : Context} {e : Expr Rule} {s t : State Rule}
    (h : Derives grammar c (whole e) s t) (hc : c.atomicity ≠ .spaced) (he : e.spells P) :
    ∃ w, s.Takes t w [] ∧ P w := by
  obtain ⟨u, h, hahead⟩ := h.seq_meets hc
  obtain ⟨w, htakes, hw⟩ := h.takes_spelled he
  cases hahead with
  | notAhead => exact ⟨w, ⟨htakes.rest_eq, htakes.offset_eq, htakes.pairs_eq⟩, hw⟩

theorem whole_text {P : List Char → Bool} {e : Expr Rule} (h : Grown grammar text p)
    (hkind : grammar.kind p.rule = .atomic) (hbody : grammar.body p.rule = whole e) (he : e.spells P) :
    P p.text := by
  cases h with
  | mk _ _ _ _ h _ =>
      rw [hkind, hbody] at h
      obtain ⟨w, htakes, hw⟩ := takes_whole h Atomicity.noConfusion he
      rwa [← htakes.consumed_eq] at hw

theorem literal_text (h : Grown grammar text p) (hp : p.rule = .literal) :
    (Literal.ofKeyword? p.string).isSome :=
  whole_text (P := fun w => (Literal.ofKeyword? (String.ofList w)).isSome) h (by rw [hp]; rfl)
    (by rw [hp]; rfl) (by decide)

theorem renderKind_text (h : Grown grammar text p) (hp : p.rule = .renderKind) :
    (RenderMode.ofSpelling? p.string).isSome :=
  whole_text (P := fun w => (RenderMode.ofSpelling? (String.ofList w)).isSome) h (by rw [hp]; rfl)
    (by rw [hp]; rfl) (by decide)

theorem comparator_text (h : Grown grammar text p) (hp : p.rule = .comparator) :
    (Comparator.ofSpelling? p.string).isSome := by
  cases h with
  | @mk c s t r _ _ _ _ h _ =>
      cases hp
      have htakes : ∃ w, s.Takes t w [] ∧ (Comparator.ofSpelling? (String.ofList w)).isSome := by
        cases h with
        | first h =>
            exact h.takes_spelled (P := fun w => (Comparator.ofSpelling? (String.ofList w)).isSome)
              (by decide)
        | second _ h =>
            obtain ⟨w, htakes, hw⟩ := takes_whole h Atomicity.noConfusion
              (P := fun w => (Comparator.ofSpelling? (String.ofList w)).isSome) (by decide)
            exact ⟨w, ⟨htakes.rest_eq, htakes.offset_eq, htakes.pairs_eq⟩, hw⟩
      obtain ⟨w, htakes, hw⟩ := htakes
      rwa [← htakes.consumed_eq] at hw

namespace Expression

theorem succeeds_ofPair_string (hp : Grown grammar text p) (hrule : p.rule = .string) :
    Succeeds (ofPair offset p) := by
  obtain ⟨body, rest, hchildren, _⟩ := arranged_children hp hrule rfl
  obtain ⟨rule, start, stop, word, children⟩ := p
  cases hrule
  cases hchildren
  rw [ofPair]
  exact succeeds_ok _

theorem succeeds_ofPair_literal (hp : Grown grammar text p) (hrule : p.rule = .literal) :
    Succeeds (ofPair offset p) := by
  obtain ⟨value, hvalue⟩ := Option.isSome_iff_exists.mp (literal_text hp hrule)
  obtain ⟨rule, start, stop, word, children⟩ := p
  cases hrule
  rw [ofPair, show Literal.ofKeyword? (String.ofList word) = some value from hvalue]
  exact succeeds_ok _

theorem succeeds_ofPair_range (hp : Grown grammar text p) (hrule : p.rule = .range)
    (hbound : ∀ q ∈ p.children, q.rule ∈ expressionParts → Succeeds (ofPair offset q)) :
    Succeeds (ofPair offset p) := by
  obtain ⟨first, _, hchildren, hfirst, last, rest, rfl, hlast, _⟩ := arranged_children hp hrule rfl
  obtain ⟨rule, start, stop, word, children⟩ := p
  cases hrule
  cases hchildren
  have hparts : ∀ r ∈ [Rule.number, variableLookup], r ∈ expressionParts := by decide
  rw [ofPair]
  apply succeeds_bind (hbound first (by simp) (hparts _ hfirst))
  intro _
  apply succeeds_bind (hbound last (by simp) (hparts _ hlast))
  intro _
  exact succeeds_ok _

theorem succeeds_keysOfPairs_cons {ps : List (Pair Rule)} (hp : Grown grammar text p)
    (hrule : p.rule ∈ [lookupName, bracketLookup])
    (hkey : ∀ q ∈ p.children, q.rule ∈ expressionParts → Succeeds (ofPair offset q))
    (hps : Succeeds (keysOfPairs offset ps)) : Succeeds (keysOfPairs offset (p :: ps)) := by
  simp only [List.mem_cons, List.not_mem_nil, or_false] at hrule
  rcases hrule with hrule | hrule
  · obtain ⟨rule, start, stop, word, children⟩ := p
    cases hrule
    rw [keysOfPairs]
    apply succeeds_bind hps
    intro _
    exact succeeds_ok _
  · obtain ⟨key, rest, hchildren, hkeyRule, _⟩ := arranged_children hp hrule rfl
    obtain ⟨rule, start, stop, word, children⟩ := p
    cases hrule
    cases hchildren
    rw [keysOfPairs]
    apply succeeds_bind (hkey key (by simp) hkeyRule)
    intro _
    apply succeeds_bind hps
    intro _
    exact succeeds_ok _

/-- A lookup succeeds if its keys do, whether it starts with a name or with a key. -/
theorem succeeds_ofPair_lookup (hp : Grown grammar text p) (hrule : p.rule = .variableLookup)
    (hkeys : ∀ ps, (∀ q ∈ ps, q ∈ p.children ∧ q.rule ∈ [lookupName, bracketLookup]) →
      Succeeds (keysOfPairs offset ps)) : Succeeds (ofPair offset p) := by
  obtain ⟨head, rest, hchildren, hhead, hrest⟩ := arranged_children hp hrule rfl
  obtain ⟨rule, start, stop, word, children⟩ := p
  cases hrule
  cases hchildren
  have hrest : ∀ q ∈ rest, q ∈ head :: rest ∧ q.rule ∈ [lookupName, bracketLookup] :=
    fun q hq => ⟨List.mem_cons_of_mem _ hq, hrest.all q hq⟩
  simp only [List.mem_cons, List.not_mem_nil, or_false] at hhead
  obtain ⟨rule, headStart, headStop, name, below⟩ := head
  rcases hhead with hhead | hhead
  · cases hhead
    rw [ofPair]
    apply succeeds_bind (hkeys rest hrest)
    intro _
    exact succeeds_ok _
  · cases hhead
    rw [ofPair]
    · apply succeeds_bind (hkeys _ (List.forall_mem_cons.mpr ⟨⟨List.mem_cons_self, by simp⟩, hrest⟩))
      intro _
      exact succeeds_ok _
    · intro _ _ _ _ _ h
      cases h

/-- Expressions and the keys of lookups have the parts that they need; by induction on the parse tree. -/
theorem succeeds_ofPair_keys (hp : Grown grammar text p) :
    (p.rule ∈ expressionParts → Succeeds (ofPair offset p)) ∧
      (p.rule ∈ [lookupName, bracketLookup] → ∀ ps, Succeeds (keysOfPairs offset ps) →
        Succeeds (keysOfPairs offset (p :: ps))) := by
  induction hp using Grown.induct with
  | step p hp ih =>
      have hexpressions : ∀ q ∈ p.children, q.rule ∈ expressionParts → Succeeds (ofPair offset q) :=
        fun q hq => (ih q hq).1
      refine ⟨?_, fun hrule ps => succeeds_keysOfPairs_cons hp hrule hexpressions⟩
      intro hrule
      simp only [expressionParts, List.mem_cons, List.not_mem_nil, or_false] at hrule
      rcases hrule with hrule | hrule | hrule | hrule | hrule
      · exact succeeds_ofPair_string hp hrule
      · obtain ⟨rule, start, stop, word, children⟩ := p
        cases hrule
        rw [ofPair]
        exact succeeds_ok _
      · exact succeeds_ofPair_literal hp hrule
      · exact succeeds_ofPair_range hp hrule hexpressions
      · refine succeeds_ofPair_lookup hp hrule ?_
        intro ps hps
        induction ps with
        | nil =>
            rw [keysOfPairs]
            exact succeeds_ok _
        | cons q ps ihps =>
            obtain ⟨hq, hrest⟩ := List.forall_mem_cons.mp hps
            exact (ih q hq.1).2 hq.2 ps (ihps hrest)

theorem succeeds_ofPair (hp : Grown grammar text p) (hrule : p.rule ∈ expressionParts) :
    Succeeds (ofPair offset p) :=
  (succeeds_ofPair_keys hp).1 hrule

end Expression

theorem NamedArgument.succeeds_ofPair (hp : Grown grammar text p) (hrule : p.rule = .namedArgument) :
    Succeeds (ofPair offset p) := by
  obtain ⟨name, _, hchildren, _, value, rest, rfl, hvalue, _⟩ := arranged_children hp hrule rfl
  have hsucceeds : Succeeds (Expression.ofPair offset value) :=
    Expression.succeeds_ofPair (hp.children value (by simp [hchildren])) hvalue
  simp only [ofPair, hrule, hchildren]
  apply succeeds_bind hsucceeds
  intro _
  exact succeeds_ok _

theorem Argument.succeeds_ofPair (hp : Grown grammar text p)
    (hrule : p.rule ∈ namedArgument :: expressionParts) : Succeeds (ofPair offset p) := by
  rw [ofPair]
  rcases List.mem_cons.mp hrule with hnamed | hexpression
  · rw [if_pos hnamed]
    exact succeeds_map (NamedArgument.succeeds_ofPair hp hnamed)
  · have hne : p.rule ≠ .namedArgument := by
      intro hnamed
      rw [hnamed] at hexpression
      exact absurd hexpression (by decide)
    rw [if_neg hne]
    exact succeeds_map (Expression.succeeds_ofPair hp hexpression)

theorem Filter.succeeds_ofPair (hp : Grown grammar text p) (hrule : p.rule = .filter) :
    Succeeds (ofPair offset p) := by
  obtain ⟨name, arguments, hchildren, _, harguments⟩ := arranged_children hp hrule rfl
  simp only [ofPair, hchildren]
  refine succeeds_bind (succeeds_mapM fun q hq => ?_) fun _ => succeeds_ok _
  exact Argument.succeeds_ofPair (hp.children q (by simp [hchildren, hq])) (harguments.all q hq)

theorem Variable.succeeds_ofPair (hp : Grown grammar text p) (hrule : p.rule = .liquidVariable) :
    Succeeds (ofPair offset p) := by
  obtain ⟨value, filters, hchildren, hvalue, hfilters⟩ := arranged_children hp hrule rfl
  have hmem : ∀ q ∈ filters, q ∈ p.children := fun q hq => by simp [hchildren, hq]
  simp only [ofPair, hchildren]
  apply succeeds_bind (Expression.succeeds_ofPair (hp.children value (by simp [hchildren])) hvalue)
  intro _
  refine succeeds_bind (succeeds_mapM fun q hq => ?_) fun _ => succeeds_ok _
  exact Filter.succeeds_ofPair (hp.children q (hmem q hq)) (List.mem_singleton.mp (hfilters.all q hq))

theorem Test.succeeds_ofPair (hp : Grown grammar text p)
    (hrule : p.rule ∈ Rule.comparison :: expressionParts) :
    Succeeds (ofPair offset p) := by
  rcases List.mem_cons.mp hrule with hcomparison | hexpression
  · obtain ⟨left, _, hchildren, hleft, comparator, _, rfl, hcomparator, right, rest, rfl, hright, _⟩ :=
      arranged_children hp hcomparison rfl
    have hgrown : ∀ q ∈ [left, comparator, right], Grown grammar text q := by
      intro q hq
      apply hp.children
      rw [hchildren]
      grind
    obtain ⟨c, hc⟩ := Option.isSome_iff_exists.mp
      (comparator_text (hgrown comparator (by simp)) (List.mem_singleton.mp hcomparator))
    simp only [ofPair, hcomparison, hchildren, hc]
    apply succeeds_bind (Expression.succeeds_ofPair (hgrown left (by simp)) hleft)
    intro _
    apply succeeds_bind (Expression.succeeds_ofPair (hgrown right (by simp)) hright)
    intro _
    exact succeeds_ok _
  · have hne : p.rule ≠ .comparison := by
      intro hcomparison
      rw [hcomparison] at hexpression
      exact absurd hexpression (by decide)
    rw [ofPair_of_ne hne]
    exact succeeds_map (Expression.succeeds_ofPair hp hexpression)

theorem Clause.succeeds_ofPairs {ps : List (Pair Rule)} {before : Option Connective}
    (hps : ∀ p ∈ ps, Grown grammar text p ∧ p.rule ∈ [logicalOperator, condition]) :
    Succeeds (ofPairs offset before ps) := by
  induction ps generalizing before with
  | nil => exact succeeds_ok []
  | cons p ps ih =>
      obtain ⟨⟨hp, hrule⟩, hrest⟩ := List.forall_mem_cons.mp hps
      simp only [List.mem_cons, List.not_mem_nil, or_false] at hrule
      rcases hrule with hrule | hrule
      · simp only [ofPairs, hrule]
        exact ih hrest
      · obtain ⟨test, rest, hchildren, htest, _⟩ := arranged_children hp hrule rfl
        simp only [ofPairs, hrule, hchildren]
        apply succeeds_bind (Test.succeeds_ofPair (hp.children test (by simp [hchildren])) htest)
        intro _
        apply succeeds_bind (ih hrest)
        intro _
        exact succeeds_ok _

end LiquidTemplate
