import LiquidTemplate.Proofs.Peg.Provenance

namespace LiquidTemplate.Peg

open State

variable {ρ : Type}

/-- `Enters g c e s c' e' s'`: while the expression `e` is matched at `s`, the part `e'` is tried at `s'`.
There is one rule for each attempt that an expression can make; what it has matched before is a
premise. -/
inductive Enters (g : Grammar ρ) : Context → Expr ρ → State ρ → Context → Expr ρ → State ρ → Prop
  | seqFirst {c s a b} : Enters g c (.seq a b) s c a s
  | seqSecond {c s t a b} : Derives g c a s t → Enters g c (.seq a b) s c b (t.skip c g.blank)
  | altFirst {c s a b} : Enters g c (.alt a b) s c a s
  | altSecond {c s a b r} : Enters g c (.alt a b) s c b { s with attempts := r }
  | opt {c s a} : Enters g c (.opt a) s c a s
  | many {c s a} : Enters g c (.many a) s c a s
  | manyAgain {c s t a} : Derives g c a s t → Enters g c (.many a) s c (.again a) t
  | again {c s a} : Enters g c (.again a) s c a (s.skip c g.blank)
  | againAgain {c s t a} : Derives g c a (s.skip c g.blank) t → Enters g c (.again a) s c (.again a) t
  | ahead {c s a} : Enters g c (.ahead a) s c.ahead a s
  | notAhead {c s a} : Enters g c (.notAhead a) s c.notAhead a s
  | push {c s a} : Enters g c (.push a) s c a s
  | call {c s r} (pairs : List (Pair ρ)) :
      Enters g c (.call r) s (c.inside (g.kind r)) (g.body r) { s with pairs := pairs }

/-- A fault is one of a part that is tried, unless a remembered text is asked for where there is none. -/
theorem Grammar.fault_run {g : Grammar ρ} {n : Nat} {c : Context} {e : Expr ρ} {s : State ρ} {f : Fault}
    (h : g.run (n + 1) c e s = .fault f) :
    (∃ c' e' s', Enters g c e s c' e' s' ∧ g.run n c' e' s' = .fault f) ∨
      f = .nothingRemembered ∧ (e = .top ∨ e = .pop) ∧ s.stack = [] := by
  cases e with
  | word w =>
      simp only [run] at h
      cases hrest : Text.stripWord? w s.rest <;> rw [hrest] at h <;> cases h
  | caseless w =>
      simp only [run] at h
      cases hrest : Text.stripCaseless? w s.rest <;> rw [hrest] at h <;> cases h
  | char test =>
      simp only [run] at h
      split at h
      · cases h
      · split at h <;> cases h
  | start | finish =>
      simp only [run] at h
      split at h <;> cases h
  | seq a b =>
      simp only [run] at h
      split at h
      · rename_i t ha
        exact .inl ⟨_, _, _, .seqSecond (.of_run ha), h⟩
      · cases h
      · rename_i ha
        cases h
        exact .inl ⟨_, _, _, .seqFirst, ha⟩
  | alt a b =>
      simp only [run] at h
      split at h
      · cases h
      · exact .inl ⟨_, _, _, .altSecond, h⟩
      · rename_i ha
        cases h
        exact .inl ⟨_, _, _, .altFirst, ha⟩
  | opt a | ahead a | notAhead a | push a =>
      simp only [run] at h
      split at h
      · cases h
      · cases h
      · rename_i ha
        cases h
        refine .inl ⟨_, _, _, ?_, ha⟩
        constructor
  | many a =>
      simp only [run] at h
      split at h
      · rename_i t ha
        exact .inl ⟨_, _, _, .manyAgain (.of_run ha), h⟩
      · cases h
      · rename_i ha
        cases h
        exact .inl ⟨_, _, _, .many, ha⟩
  | again a =>
      simp only [run] at h
      split at h
      · rename_i t ha
        exact .inl ⟨_, _, _, .againAgain (.of_run ha), h⟩
      · cases h
      · rename_i ha
        cases h
        exact .inl ⟨_, _, _, .again, ha⟩
  | top =>
      simp only [run] at h
      split at h
      · rename_i hstack
        cases h
        exact .inr ⟨rfl, .inl rfl, hstack⟩
      · rename_i word words _
        cases hrest : Text.stripWord? word s.rest <;> rw [hrest] at h <;> cases h
  | pop =>
      simp only [run] at h
      split at h
      · rename_i hstack
        cases h
        exact .inr ⟨rfl, .inr rfl, hstack⟩
      · rename_i word words _
        cases hrest : Text.stripWord? word s.rest <;> rw [hrest] at h <;> cases h
  | call r =>
      simp only [run] at h
      split at h
      · rename_i hkind
        have henter : Enters g c (.call r) s (c.inside (g.kind r)) (g.body r) s := .call s.pairs
        rw [hkind] at henter
        exact .inl ⟨_, _, _, henter, h⟩
      · split at h
        · split at h
          · cases h
          · split at h <;> cases h
        · cases h
        · rename_i hbody
          cases h
          cases hpair : (c.outside (g.kind r)).leavesPair <;> rw [hpair] at hbody
          · exact .inl ⟨_, _, _, .call s.pairs, hbody⟩
          · exact .inl ⟨_, _, _, .call [], hbody⟩

/-- What holds of an attempt with some budget left, and goes on to the parts that it tries with one unit
less, keeps a run from being exhausted. -/
theorem Grammar.run_ne_exhausted {g : Grammar ρ} {I : Nat → Expr ρ → State ρ → Prop}
    (hzero : ∀ {e s}, ¬I 0 e s)
    (hstep : ∀ {n c e s c' e' s'}, Enters g c e s c' e' s' → I (n + 1) e s → I n e' s') {n : Nat}
    {c : Context} {e : Expr ρ} {s : State ρ} (h : I n e s) : g.run n c e s ≠ .fault .exhausted := by
  induction n generalizing c e s with
  | zero => exact absurd h hzero
  | succ n ih =>
      intro hrun
      rcases fault_run hrun with ⟨c', e', s', henter, hfault⟩ | ⟨hf, _⟩
      · exact ih (hstep henter h) hfault
      · cases hf

/-- What holds of an attempt and goes on to the parts that it tries, and of no attempt to match a
remembered text where there is none, keeps a run from doing that. -/
theorem Grammar.run_ne_nothingRemembered {g : Grammar ρ} {I : Expr ρ → State ρ → Prop}
    (htop : ∀ {s}, I .top s → s.stack ≠ []) (hpop : ∀ {s}, I .pop s → s.stack ≠ [])
    (hstep : ∀ {c e s c' e' s'}, Enters g c e s c' e' s' → I e s → I e' s') {n : Nat} {c : Context}
    {e : Expr ρ} {s : State ρ} (h : I e s) : g.run n c e s ≠ .fault .nothingRemembered := by
  induction n generalizing c e s with
  | zero =>
      intro hrun
      cases hrun
  | succ n ih =>
      intro hrun
      rcases fault_run hrun with ⟨c', e', s', henter, hfault⟩ | ⟨_, rfl | rfl, hstack⟩
      · exact ih (hstep henter h) hfault
      · exact htop h hstack
      · exact hpop h hstack

end LiquidTemplate.Peg
