import LiquidTemplate.Proofs.Peg.Budget
import LiquidTemplate.Proofs.Peg.Trial
import LiquidTemplate.Proofs.Rule.Totality

namespace LiquidTemplate

open Relation
open Peg Peg.Trial Rule

namespace Peg

variable {ρ : Type}

def Expr.rounds : Expr ρ → List (Expr ρ)
  | seq a b => a.rounds ++ b.rounds
  | alt a b => a.rounds ++ b.rounds
  | opt a => a.rounds
  | many a => a :: a.rounds
  | again a => a :: a.rounds
  | ahead a => a.rounds
  | notAhead a => a.rounds
  | push a => a.rounds
  | _ => []

theorem Expr.eats_of_mem_rounds {solid : ρ → Bool} {rank : ρ → Nat} {bound : Nat} {e a : Expr ρ}
    (he : e.tame solid rank bound) (ha : a ∈ e.rounds) : a.eats solid := by
  induction e with
  | seq b d ihb ihd =>
      simp only [tame, Bool.and_eq_true] at he
      rcases List.mem_append.mp ha with ha | ha
      · exact ihb he.1.1 ha
      · exact ihd he.1.2 ha
  | alt b d ihb ihd =>
      simp only [tame, Bool.and_eq_true] at he
      rcases List.mem_append.mp ha with ha | ha
      · exact ihb he.1 ha
      · exact ihd he.2 ha
  | many b ih | again b ih =>
      simp only [tame, Bool.and_eq_true] at he
      rcases List.mem_cons.mp ha with rfl | ha
      · exact he.1
      · exact ih he.2 ha
  | opt b ih | ahead b ih | notAhead b ih | push b ih => exact ih he ha
  | _ => cases ha

end Peg

/-- The match of a rule comes to an end, and to the same one with every budget that is large enough. -/
theorem run_settles (r : Rule) (c : Context) (s : State Rule) :
    ∃ o, o ≠ .fault .exhausted ∧
      ∀ n, Grammar.depthPerChar * (s.rest.length + 1) ≤ n → grammar.run n c (.call r) s = o :=
  Grammar.run_settles bounded_grammar (rank_lt r) c s

/-- Each round of a repetition consumes a character. -/
theorem rest_lt_of_round {r : Rule} {a : Expr Rule} (ha : a ∈ (grammar.body r).rounds) {n : Nat} {c : Context}
    {s t : State Rule} (h : grammar.run n c a s = .matched t) : t.rest.length < s.rest.length := by
  have hderives := Derives.of_run h
  exact hderives.reaches.length_lt (hderives.lt eats_body (Expr.eats_of_mem_rounds (tame_body r) ha))

end LiquidTemplate
