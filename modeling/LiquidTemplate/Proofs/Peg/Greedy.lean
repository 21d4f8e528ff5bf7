import LiquidTemplate.Proofs.Peg.Consumption

namespace LiquidTemplate.Peg

variable {ρ : Type} {g : Grammar ρ} {c : Context} {a b e : Expr ρ} {s t : State ρ} {r : Attempts ρ}

theorem Fails.seq (h : Fails g c (.seq a b) s r) :
    Fails g c a s r ∨ ∃ t, Derives g c a s t ∧ Fails g c b (t.skip c g.blank) r := by
  obtain ⟨n, h⟩ := h
  cases n with
  | zero => cases h
  | succ n =>
      simp only [Grammar.run] at h
      split at h
      · rename_i t ha
        exact .inr ⟨t, .of_run ha, n, h⟩
      · rename_i r' ha
        cases h
        exact .inl ⟨n, ha⟩
      · cases h

theorem Fails.not_words {v w : List Char} (hc : c.atomicity ≠ .spaced)
    (h : Fails g c (.seq (.word v) (.word w)) s r) (rest : List Char) : s.rest ≠ v ++ (w ++ rest) := by
  intro hs
  rcases h.seq with h | ⟨t, ht, h⟩
  · exact h.not_word _ hs
  · rw [State.skip_of_ne_spaced _ _ hc] at h
    exact h.not_word rest (ht.takes_word.rest_of hs)

theorem Context.atomicity_ahead (c : Context) : c.ahead.atomicity = c.atomicity := by
  unfold Context.ahead
  split <;> rfl

theorem Context.atomicity_notAhead (c : Context) : c.notAhead.atomicity = c.atomicity := by
  unfold Context.notAhead
  split <;> rfl

theorem Fails.notAhead (h : Fails g c (.notAhead a) s r) : ∃ t, Derives g c.notAhead a s t := by
  obtain ⟨n, h⟩ := h
  cases n with
  | zero => cases h
  | succ n =>
      simp only [Grammar.run] at h
      split at h
      · rename_i t ha
        exact ⟨t, .of_run ha⟩
      · cases h
      · cases h

theorem Fails.call {rule : ρ} (h : Fails g c (.call rule) s r) :
    ∃ s' r', Fails g (c.inside (g.kind rule)) (g.body rule) s' r' ∧ s'.rest = s.rest := by
  obtain ⟨n, h⟩ := h
  cases n with
  | zero => cases h
  | succ n =>
      simp only [Grammar.run] at h
      split at h
      · rename_i hkind
        rw [hkind]
        exact ⟨s, r, ⟨n, h⟩, rfl⟩
      · split at h
        · split at h
          · cases h
          · split at h <;> cases h
        · rename_i r' hbody
          refine ⟨_, r', ⟨n, hbody⟩, ?_⟩
          split <;> rfl
        · cases h

theorem Derives.call_body {rule : ρ} (h : Derives g c (.call rule) s t) :
    ∃ s' t', Derives g (c.inside (g.kind rule)) (g.body rule) s' t' ∧ s'.rest = s.rest ∧ t'.rest = t.rest := by
  cases h with
  | silent hkind h =>
      refine ⟨s, t, ?_, rfl, rfl⟩
      rw [hkind]
      exact h
  | pair _ _ h => exact ⟨_, _, h, rfl, rfl⟩
  | hidden _ _ h => exact ⟨_, _, h, rfl, rfl⟩

def Expr.spells (P : List Char → Bool) : Expr ρ → Bool
  | word w => P w
  | alt a b => a.spells P && b.spells P
  | _ => false

theorem Derives.takes_spelled {P : List Char → Bool} (he : e.spells P) (h : Derives g c e s t) :
    ∃ w, s.Takes t w [] ∧ P w := by
  induction e generalizing s with
  | word w => exact ⟨w, h.takes_word, he⟩
  | alt a b iha ihb =>
      simp only [Expr.spells, Bool.and_eq_true] at he
      cases h with
      | first h => exact iha he.1 h
      | second _ h =>
          obtain ⟨w, htakes, hw⟩ := ihb he.2 h
          exact ⟨w, ⟨htakes.rest_eq, htakes.offset_eq, htakes.pairs_eq⟩, hw⟩
  | _ => cases he

/-- A repetition of single characters goes on to where it has to stop, if no round fails before. -/
theorem Derives.rest_many {xs more : List Char} {f : Char → Prop} (hc : c.atomicity ≠ .spaced)
    (hround : ∀ {s t x rest}, s.rest = x :: rest → Derives g c a s t → t.rest = rest)
    (hgo : ∀ {s r x xs}, (∀ y ∈ x :: xs, f y) → s.rest = x :: (xs ++ more) → ¬Fails g c a s r)
    (hend : ∀ {s t}, s.rest = more → ¬Derives g c a s t) (h : Derives g c (.many a) s t)
    (hxs : ∀ x ∈ xs, f x) (hs : s.rest = xs ++ more) : t.rest = more := by
  refine h.many_induct (P := fun s t => ∀ {xs}, (∀ x ∈ xs, f x) → s.rest = xs ++ more → t.rest = more)
    ?_ ?_ hxs hs
  · intro s s' r hs' hfails xs hxs hs
    rw [State.skip_of_ne_spaced _ _ hc, or_self] at hs'
    subst hs'
    cases xs with
    | nil => exact hs
    | cons x xs => exact absurd hfails (hgo hxs hs)
  · intro s s' t u hs' hfirst ih xs hxs hs
    rw [State.skip_of_ne_spaced _ _ hc, or_self] at hs'
    subst hs'
    cases xs with
    | nil => exact absurd hfirst (hend hs)
    | cons x xs => exact ih (List.forall_mem_cons.mp hxs).2 (hround hs hfirst)

end LiquidTemplate.Peg
