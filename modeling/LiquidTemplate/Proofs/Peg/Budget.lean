import LiquidTemplate.Proofs.Peg.Totality

namespace LiquidTemplate.Peg

open State

variable {ρ : Type} {g : Grammar ρ} {c : Context} {e : Expr ρ} {s : State ρ}

/-- A run that has come to an end is the same with a larger budget. -/
theorem Grammar.run_more {n m : Nat} (h : g.run n c e s ≠ .fault .exhausted) (hnm : n ≤ m) :
    g.run m c e s = g.run n c e s := by
  induction n generalizing m c e s with
  | zero => exact absurd rfl h
  | succ n ih =>
      obtain ⟨m, rfl⟩ : ∃ k, m = k + 1 := ⟨m - 1, by omega⟩
      have hnm : n ≤ m := by omega
      -- A part that is exhausted exhausts the whole, so the parts that decide about `h` are not.
      cases e with
      | word | caseless | char | start | finish | top | pop => simp only [run]
      | seq a b =>
          simp only [run] at h ⊢
          have ha : g.run n c a s ≠ .fault .exhausted := fun ha => h (by rw [ha])
          rw [ih ha hnm]
          split
          · rename_i t hmatched
            rw [hmatched] at h
            exact ih h hnm
          · rfl
          · rfl
      | alt a b =>
          simp only [run] at h ⊢
          have ha : g.run n c a s ≠ .fault .exhausted := fun ha => h (by rw [ha])
          rw [ih ha hnm]
          split
          · rfl
          · rename_i r hfailed
            rw [hfailed] at h
            exact ih h hnm
          · rfl
      | opt a | ahead a | notAhead a | push a =>
          simp only [run] at h ⊢
          rw [ih (fun ha => h (by rw [ha])) hnm]
      | many a | again a =>
          simp only [run] at h ⊢
          rw [ih (fun ha => h (by rw [ha])) hnm]
          split
          · rename_i t hmatched
            rw [hmatched] at h
            exact ih h hnm
          · rfl
          · rfl
      | call r =>
          simp only [run] at h ⊢
          split
          · rename_i hkind
            rw [hkind] at h
            exact ih h hnm
          · split at h
            · contradiction
            · rw [ih (fun hb => h (by rw [hb])) hnm]

/-- In a grammar with a bound, a match comes to the same end with every budget that covers the text. -/
theorem Grammar.run_settles {solid : ρ → Bool} {rank : ρ → Nat} {bound : Nat} (hg : Bounded g solid rank bound)
    {r : ρ} (hr : rank r < bound) (c : Context) (s : State ρ) :
    ∃ o, o ≠ .fault .exhausted ∧ ∀ n, bound * (s.rest.length + 1) ≤ n → g.run n c (.call r) s = o := by
  have hends : g.run (bound * (s.rest.length + 1)) c (.call r) s ≠ .fault .exhausted := by
    refine run_within hg rfl ?_
    simp only [Expr.height, Nat.mul_succ]
    omega
  exact ⟨_, hends, fun n hn => run_more hends hn⟩

end LiquidTemplate.Peg
