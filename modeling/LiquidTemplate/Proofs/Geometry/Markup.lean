import LiquidTemplate.Proofs.Geometry.Pairs
import LiquidTemplate.Proofs.Markup.Reader
import LiquidTemplate.Proofs.Peg.Parts

namespace LiquidTemplate

open Text
open Peg (Pair Grown)

variable {text : List Char} {offset : Nat} {p : Pair Rule}

theorem Expression.span_ofPair {e : Expression} (h : Expression.ofPair offset p = .ok e) :
    e.span = p.span offset := by
  unfold Expression.ofPair at h
  split at h
  case h_4 =>
    split at h
    · cases h
      rfl
    · cases h
  case h_7 =>
    simp only [bind_eq_ok, pure_eq_ok] at h
    obtain ⟨_, _, _, _, rfl⟩ := h
    rfl
  case h_8 | h_9 =>
    simp only [bind_eq_ok, pure_eq_ok] at h
    obtain ⟨_, _, rfl⟩ := h
    rfl
  all_goals cases h
  all_goals rfl

theorem Variable.source_ofPair {v : Variable} (h : Variable.ofPair offset p = .ok v) : v.source = p.string := by
  unfold Variable.ofPair at h
  split at h
  · simp only [bind_eq_ok, pure_eq_ok] at h
    obtain ⟨_, _, _, _, rfl⟩ := h
    rfl
  · cases h

theorem Test.span_ofPair {t : Test} (h : Test.ofPair offset p = .ok t) : t.span = p.span offset := by
  rcases Test.ofPair_ok h with ⟨_, _, _, _, _, _, _, _, _, _, rfl⟩ | ⟨e, he, rfl⟩
  · rfl
  · exact Expression.span_ofPair he

/-- Every clause has a test that was read from a part of one of the pairs. -/
theorem Clause.test_ofPairs {before : Option Connective} {ps : List (Pair Rule)} {clauses : List Clause}
    (h : Clause.ofPairs offset before ps = .ok clauses) :
    ∀ c ∈ clauses, ∃ p ∈ ps, ∃ q ∈ p.children, Test.ofPair offset q = .ok c.test := by
  induction ps generalizing before clauses with
  | nil =>
      cases h
      simp
  | cons p ps ih =>
      have hlater : ∀ {before clauses}, Clause.ofPairs offset before ps = .ok clauses →
          ∀ c ∈ clauses, ∃ p' ∈ p :: ps, ∃ q ∈ p'.children, Test.ofPair offset q = .ok c.test := by
        intro before clauses h c hc
        obtain ⟨p', hp', hq⟩ := ih h c hc
        exact ⟨p', List.mem_cons_of_mem _ hp', hq⟩
      unfold Clause.ofPairs at h
      split at h
      · exact hlater h
      · cases h
      · rename_i test _ hrule hchildren
        simp only [bind_eq_ok, pure_eq_ok] at h
        obtain ⟨t, ht, clauses', hclauses', rfl⟩ := h
        have htest : test ∈ p.children := by simp [hchildren]
        exact List.forall_mem_cons.mpr ⟨⟨p, List.mem_cons_self, test, htest, ht⟩, hlater hclauses'⟩
      · cases h

theorem Clause.inside_ofPairs (htext : byteLength text < Span.limit) {before : Option Connective}
    {ps : List (Pair Rule)} {clauses : List Clause} (hps : ∀ p ∈ ps, Seated text offset p)
    (h : Clause.ofPairs offset before ps = .ok clauses) :
    ∀ c ∈ clauses, c.test.span.Inside text 0 (byteLength text) := by
  intro c hc
  obtain ⟨p, hp, q, hq, ht⟩ := Clause.test_ofPairs h c hc
  have hspan := ((hps p hp).child hq).inside_span htext
  rw [Test.span_ofPair ht]
  exact hspan.weaken (Nat.zero_le _) hspan.boundary_hi.le

theorem NamedTag.branches_markupRule {tag : NamedTag} {rule : Rule} (h : tag.markupRule? = some rule) :
    (grammar.kind rule).branches := by
  cases tag <;> cases h <;> rfl

namespace Markup

theorem parse_of_matchRule {region : Region} {start : Nat} {rule : Rule} {markup : List Char}
    (h : matchRule region start rule markup = .ok (some p)) :
    ∃ pairs, grammar.parse rule markup = .ok (p :: pairs) := by
  unfold matchRule at h
  split at h
  · split at h <;> cases h
  · rename_i pairs hparse
    simp only at h
    split at h
    · split at h <;> cases h
    · split at h
      · cases h
        exact ⟨_, hparse⟩
      · cases h

theorem grown_matchRule {region : Region} {start : Nat} {rule : Rule} {markup : List Char}
    (h : matchRule region start rule markup = .ok (some p)) : Grown grammar markup p := by
  obtain ⟨pairs, hparse⟩ := parse_of_matchRule h
  exact (Peg.Grammar.grown_parse hparse).1 p (by simp)

theorem rule_matchRule {region : Region} {start : Nat} {rule : Rule} {markup : List Char}
    (hbranches : (grammar.kind rule).branches) (h : matchRule region start rule markup = .ok (some p)) :
    p.rule = rule := by
  obtain ⟨pairs, hparse⟩ := parse_of_matchRule h
  obtain ⟨_, _, heq, hrule, _⟩ := Peg.Grammar.parse_ok hparse hbranches
  cases heq
  exact hrule

/-- The markup of an output is one variable. -/
theorem variable_matchRule {region : Region} {start : Nat} {markup : List Char}
    (h : matchRule region start .markupVariable markup = .ok (some p)) :
    ∃ value, parts p = [value] ∧ value.rule = .liquidVariable ∧ Grown grammar markup value := by
  have hgrown := grown_matchRule h
  obtain ⟨value, _, hparts, hvalue, rfl⟩ :=
    arranged_parts hgrown (rule_matchRule rfl h) rfl (by decide)
  exact ⟨value, hparts, List.mem_singleton.mp hvalue, grown_parts hgrown value (by simp [hparts])⟩

theorem cycleOfPairs_ne_condition {s : Span} {ps : List (Pair Rule)} {clauses : List Clause} :
    cycleOfPairs offset s ps ≠ .ok (.condition clauses) := by
  intro h
  obtain ⟨c, _, h⟩ := bind_eq_ok.mp h
  cases h

theorem paginateOfPairs_ne_condition {s : Span} {ps : List (Pair Rule)} {clauses : List Clause} :
    paginateOfPairs offset s ps ≠ .ok (.condition clauses) := by
  intro h
  obtain ⟨g, _, h⟩ := bind_eq_ok.mp h
  split at h <;> cases h

/-- Only tags with a condition are read as clauses. -/
theorem condition_ofPair {tag : NamedTag} {clauses : List Clause}
    (h : Markup.ofPair offset tag p = .ok (.condition clauses)) :
    Clause.ofPairs offset none (parts p) = .ok clauses := by
  unfold Markup.ofPair at h
  cases tag with
  | cycle => exact absurd h cycleOfPairs_ne_condition
  | paginate => exact absurd h paginateOfPairs_ne_condition
  | _ => simp_all [bind_eq_ok, map_eq_ok]

theorem placed_read (htext : byteLength text < Span.limit) {region : Region} {start : Nat}
    {tag : NamedTag} {rule : Rule} {markup : List Char} {m : Flat} (hsits : Sits text start markup)
    (h : Markup.read region start tag rule markup = .ok m) : m.Placed text := by
  cases m with
  | condition clauses =>
      unfold Markup.read at h
      obtain ⟨p?, hp, h⟩ := bind_eq_ok.mp h
      cases p? with
      | none => cases h
      | some p =>
          have hseated : Seated text start p := ⟨markup, hsits, grown_matchRule hp⟩
          refine Clause.inside_ofPairs htext ?_ (condition_ofPair h)
          intro q hq
          exact hseated.child (List.mem_filter.mp hq).1
  | _ => trivial

end Markup

end LiquidTemplate
