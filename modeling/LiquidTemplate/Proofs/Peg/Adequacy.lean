import LiquidTemplate.Proofs.Peg.Words

namespace LiquidTemplate.Peg

open State Text

variable {ρ : Type} {g : Grammar ρ} {c : Context} {a e : Expr ρ} {s t u : State ρ} {w rest : List Char}
  {ws : List (List Char)}

theorem Derives.seq_of_meets {b : Expr ρ} (ha : Derives g c a s t) (hc : c.atomicity ≠ .spaced)
    (hb : Derives g c b t u) : Derives g c (.seq a b) s u :=
  .seq ha (by rwa [skip_of_ne_spaced t g.blank hc])

theorem gives_push (h : Gives g c a s (some t)) :
    Gives g c (.push a) s (some { t with stack := s.consumed t :: t.stack }) := by
  obtain ⟨n, h⟩ := h
  obtain ⟨t', hrun, hsame, hpairs, hattempts⟩ := h.matched
  refine ⟨n + 1, ?_⟩
  have hconsumed := Same.consumed (.refl s) hsame
  have hfound : (Outcome.matched { t' with stack := s.consumed t' :: t'.stack }).Shows s.pairs _ :=
    .found t.pairs hpairs
  simp only [Grammar.run, hrun]
  simp only [hconsumed, hsame.rest, hsame.offset, hsame.stack] at hfound ⊢
  rwa [← hattempts] at hfound

theorem gives_push_past {ps : List (Pair ρ)} (hs : s.rest = w ++ rest) (h : Gives g c a s (some (s.past w rest ps))) :
    Gives g c (.push a) s (some ⟨rest, s.offset + byteLength w, w :: s.stack, ps, .none⟩) := by
  have hpush := gives_push h
  rwa [State.consumed_eq hs rfl] at hpush

theorem gives_top_over (hstack : s.stack = w :: ws) (hs : s.rest = w ++ rest) :
    Gives g c .top s (some (s.over w rest)) := by
  refine ⟨1, ?_⟩
  simp only [Grammar.run, hstack, hs, stripWord?_append]
  exact .found [] rfl

theorem gives_pop_over (hstack : s.stack = w :: ws) (hs : s.rest = w ++ rest) :
    Gives g c .pop s (some { s.over w rest with stack := ws }) := by
  refine ⟨1, ?_⟩
  simp only [Grammar.run, hstack, hs, stripWord?_append]
  exact .found [] rfl

theorem gives_caseless : Gives g c (.caseless w) s ((stripCaseless? w s.rest).map (s.over w)) := by
  refine ⟨1, ?_⟩
  simp only [Grammar.run]
  cases stripCaseless? w s.rest with
  | none => exact .missed
  | some rest => exact .found [] rfl

/-- What is given is determined by the text that is taken, what is remembered and the pairs. -/
theorem Gives.eq_past (h : Gives g c e s (some t)) (hs : s.rest = w ++ t.rest) (hstack : t.stack = s.stack) :
    t = s.past w t.rest t.pairs := by
  obtain ⟨w', hw', hoffset⟩ := h.reaches
  obtain rfl := List.append_cancel_right (hs.symm.trans hw')
  obtain ⟨n, h⟩ := h
  obtain ⟨_, _, _, _, hattempts⟩ := h.matched
  rw [past, ← hoffset, ← hstack, ← hattempts]

theorem gives_rounds {s' : State ρ} (hs : s'.pairs = s.pairs)
    (he : ∀ {n t}, g.run n c a s' = .matched t → g.run (n + 1) c e s = g.run n c (.again a) t)
    (ha : Gives g c a s' (some t)) (hmore : Gives g c (.again a) t (some u)) :
    Gives g c e s (some (u.onto t.pairs)) := by
  obtain ⟨n, ha⟩ := ha.at_least
  obtain ⟨n', hmore⟩ := hmore.at_least
  obtain ⟨t', ht, hsame, hpairs, _⟩ := (ha (max n n') (Nat.le_max_left _ _)).matched
  refine ⟨max n n' + 1, ?_⟩
  rw [he ht]
  rw [hs] at hpairs
  have hmore := hmore (max n n') (Nat.le_max_right _ _)
  exact ((Grammar.run_like hsame.symm (Nat.le_refl _)).shows hmore).below hpairs

/-- What is derived is to be seen of a run. -/
theorem gives_of_derives (h : Derives g c e s t) :
    ∃ u, Gives g c e s (some u) ∧ u.Same t ∧ t.pairs = u.pairs ++ s.pairs := by
  induction h with
  | @word c s w rest hrest => exact ⟨s.over w rest, gives_word.mpr (by rw [hrest]; rfl), ⟨rfl, rfl, rfl⟩, rfl⟩
  | @caseless c s w rest hrest =>
      have h : Gives g c (.caseless w) s _ := gives_caseless
      rw [hrest] at h
      exact ⟨_, h, ⟨rfl, rfl, rfl⟩, rfl⟩
  | @char c s test x xs hrest hx =>
      have h : Gives g c (.char test) s _ := gives_test rfl
      rw [one?_cons hrest hx] at h
      exact ⟨_, h, ⟨rfl, by simp [State.over, advance], rfl⟩, rfl⟩
  | @start c s hs => exact ⟨s.bare, gives_start hs, ⟨rfl, rfl, rfl⟩, rfl⟩
  | @finish c s hs => exact ⟨s.bare, gives_finish.mpr (by rw [if_pos hs]), ⟨rfl, rfl, rfl⟩, rfl⟩
  | @seq c s t v a b _ _ iha ihb =>
      obtain ⟨u, hu, hsame, hpairs⟩ := iha
      obtain ⟨u', hu', hsame', hpairs'⟩ := ihb
      refine ⟨u'.onto u.pairs, gives_seq.mpr (.inr ⟨u, some u', hu, hu'.same (hsame.symm.skip c g.blank), rfl⟩), ?_, ?_⟩
      · exact ⟨hsame'.rest, hsame'.offset, hsame'.stack⟩
      · rw [hpairs', pairs_skip, hpairs, onto, List.append_assoc]
  | first _ ih =>
      obtain ⟨u, hu, hsame, hpairs⟩ := ih
      exact ⟨u, hu.first, hsame, hpairs⟩
  | second hfails _ ih =>
      obtain ⟨u, hu, hsame, hpairs⟩ := ih
      exact ⟨u, hfails.gives.alt (hu.same ⟨rfl, rfl, rfl⟩), hsame, hpairs⟩
  | present _ ih =>
      obtain ⟨u, hu, hsame, hpairs⟩ := ih
      exact ⟨u, gives_opt.mpr (.inl ⟨u, hu, rfl⟩), hsame, hpairs⟩
  | @absent c s a r hfails =>
      exact ⟨s.bare, gives_opt.mpr (.inr ⟨hfails.gives, rfl⟩), ⟨rfl, rfl, rfl⟩, rfl⟩
  | @none c s a r hfails =>
      obtain ⟨n, hfails⟩ := hfails
      refine ⟨s.bare, ⟨n + 1, ?_⟩, ⟨rfl, rfl, rfl⟩, rfl⟩
      simpa only [Grammar.run, hfails] using shows_idle s r
  | @last c s a r hfails =>
      obtain ⟨n, hfails⟩ := hfails
      refine ⟨s.bare, ⟨n + 1, ?_⟩, ⟨rfl, rfl, rfl⟩, rfl⟩
      simpa only [Grammar.run, hfails] using shows_idle s r
  | some _ _ iha ihb =>
      obtain ⟨u, hu, hsame, hpairs⟩ := iha
      obtain ⟨u', hu', hsame', hpairs'⟩ := ihb
      refine ⟨u'.onto u.pairs, gives_rounds rfl ?_ hu (hu'.same hsame.symm), ?_, ?_⟩
      · intro n t ht
        simp only [Grammar.run, ht]
      · exact ⟨hsame'.rest, hsame'.offset, hsame'.stack⟩
      · rw [hpairs', hpairs, onto, List.append_assoc]
  | @next c s t v a _ _ iha ihb =>
      obtain ⟨u, hu, hsame, hpairs⟩ := iha
      obtain ⟨u', hu', hsame', hpairs'⟩ := ihb
      refine ⟨u'.onto u.pairs, gives_rounds (pairs_skip s c g.blank) ?_ hu (hu'.same hsame.symm), ?_, ?_⟩
      · intro n t ht
        simp only [Grammar.run, ht]
      · exact ⟨hsame'.rest, hsame'.offset, hsame'.stack⟩
      · rw [hpairs', hpairs, pairs_skip, onto, List.append_assoc]
  | @ahead c s t a _ ih =>
      obtain ⟨u, hu, _⟩ := ih
      exact ⟨s.bare, gives_ahead.mpr (.inl ⟨u, hu, rfl⟩), ⟨rfl, rfl, rfl⟩, rfl⟩
  | @notAhead c s a r hfails =>
      exact ⟨s.bare, gives_notAhead.mpr (.inr ⟨hfails.gives, rfl⟩), ⟨rfl, rfl, rfl⟩, rfl⟩
  | @push c s t a _ ih =>
      obtain ⟨u, hu, hsame, hpairs⟩ := ih
      refine ⟨_, gives_push hu, ⟨hsame.rest, hsame.offset, ?_⟩, hpairs⟩
      simp only [(State.Same.refl s).consumed hsame, hsame.stack]
  | @top c s w ws rest hstack hrest =>
      exact ⟨_, gives_top_over hstack (stripWord?_eq_some hrest), ⟨rfl, rfl, rfl⟩, rfl⟩
  | @pop c s w ws rest hstack hrest =>
      exact ⟨_, gives_pop_over hstack (stripWord?_eq_some hrest), ⟨rfl, rfl, rfl⟩, rfl⟩
  | silent hkind _ ih =>
      obtain ⟨u, hu, hsame, hpairs⟩ := ih
      exact ⟨u, (gives_silent hkind).mpr hu, hsame, hpairs⟩
  | @pair c s t r hkind hleaves _ ih =>
      obtain ⟨u, hu, hsame, hpairs⟩ := ih
      have hu : Gives g (c.inside (g.kind r)) (g.body r) s (some u) := hu.same ⟨rfl, rfl, rfl⟩
      refine ⟨_, (gives_pair hkind hleaves).mpr (.inl ⟨u, hu, rfl⟩), ⟨hsame.rest, hsame.offset, hsame.stack⟩, ?_⟩
      rw [List.append_nil] at hpairs
      rw [paired, hsame.offset, (State.Same.refl s).consumed hsame, hpairs]
      rfl
  | hidden hkind hleaves _ ih =>
      obtain ⟨u, hu, hsame, hpairs⟩ := ih
      exact ⟨u, (gives_hidden hkind hleaves).mpr hu, ⟨hsame.rest, hsame.offset, hsame.stack⟩, hpairs⟩

/-- A derivation can be had from every state at the same place. -/
theorem derives_same {s' : State ρ} {ps : List (Pair ρ)} (h : Derives g c e s t) (hs : s.Same s')
    (htakes : s.Takes t w ps) : ∃ t', Derives g c e s' t' ∧ s'.Takes t' w ps := by
  obtain ⟨u, hu, hsame, hpairs⟩ := gives_of_derives h
  obtain ⟨t', ht', hsame', hpairs'⟩ := (hu.same hs).derives
  rw [htakes.pairs_eq] at hpairs
  refine ⟨t', ht', ?_, ?_, ?_⟩
  · rw [← hs.rest, htakes.rest_eq, ← hsame.rest, hsame'.rest]
  · rw [hsame'.offset, hsame.offset, htakes.offset_eq, hs.offset]
  · rw [hpairs', ← List.append_cancel_right hpairs]

theorem Gives.of_takes {ps : List (Pair ρ)} (h : Derives g c e s t) (htakes : s.Takes t w ps)
    (hstack : t.stack = s.stack) : Gives g c e s (some (s.past w t.rest ps.reverse)) := by
  obtain ⟨u, hu, hsame, hpairs⟩ := gives_of_derives h
  have heq := hu.eq_past (w := w) (by rw [hsame.rest, htakes.rest_eq]) (by rw [hsame.stack, hstack])
  rw [htakes.pairs_eq] at hpairs
  rw [heq, hsame.rest, ← List.append_cancel_right hpairs] at hu
  exact hu

end LiquidTemplate.Peg
