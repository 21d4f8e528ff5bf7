import LiquidTemplate.Proofs.Peg.Runs

namespace LiquidTemplate.Peg

open State Text

variable {ρ : Type} {g : Grammar ρ} {c : Context} {a stop : Expr ρ} {s t : State ρ} {r : Attempts ρ}

def Along (xs : List Char) (P : List Char → Prop) : List Char → List Char → Prop
  | [], _ => True
  | x :: v, rest => (x ∉ xs → P (x :: (v ++ rest))) ∧ Along xs P v rest

section Along

variable {xs u v w rest : List Char} {x : Char} {P : List Char → Prop}

theorem Along.append (hv : Along xs P v (w ++ rest)) (hw : Along xs P w rest) : Along xs P (v ++ w) rest := by
  induction v with
  | nil => exact hw
  | cons x v ih =>
      obtain ⟨hx, hv⟩ := hv
      refine ⟨?_, ih hv⟩
      rw [← List.append_assoc] at hx
      exact hx

theorem along_letters (hv : ∀ x ∈ v, x ∈ xs) : Along xs P v rest := by
  induction v with
  | nil => trivial
  | cons x v ih =>
      obtain ⟨hx, hv⟩ := List.forall_mem_cons.mp hv
      exact ⟨fun hnot => absurd hx hnot, ih hv⟩

theorem Along.apply (h : Along xs P (u ++ x :: w) rest) (hx : x ∉ xs) : P (x :: (w ++ rest)) := by
  induction u with
  | nil => exact h.1 hx
  | cons y u ih => exact ih h.2

end Along

theorem Fails.gives (h : Fails g c a s r) : Gives g c a s none := by
  obtain ⟨n, h⟩ := h
  exact ⟨n, by rw [h]; exact .missed⟩

theorem Fails.not_many (hc : c.atomicity ≠ .spaced) : ¬Fails g c (.many a) s r := by
  intro h
  obtain ⟨t, ht, _⟩ := h.gives.many_stop hc
  cases ht

theorem Derives.many_fails (hc : c.atomicity ≠ .spaced) (h : Derives g c (.many a) s t) :
    ∃ t' r, Fails g c a t' r ∧ t'.rest = t.rest := by
  refine h.many_induct (P := fun _ t => ∃ t' r, Fails g c a t' r ∧ t'.rest = t.rest) ?_ ?_
  · intro s s' r hs hfails
    rw [State.skip_of_ne_spaced _ _ hc, or_self] at hs
    exact ⟨s', r, hfails, by rw [hs]⟩
  · intro s s' t u _ _ ih
    exact ih

structure Stops (g : Grammar ρ) (c : Context) (stop : Expr ρ) (stack : List (List Char))
    (P Q : List Char → Prop) : Prop where
  missed : ∀ {s r}, s.stack = stack → Fails g c.notAhead stop s r → P s.rest
  found : ∀ {s t}, s.stack = stack → Derives g c.notAhead stop s t → Q s.rest

namespace Stops

variable {P Q : List Char → Prop} (xs : List Char) (hstop : Stops g c stop s.stack P Q)
  (hc : c.atomicity ≠ .spaced)

include hstop hc

/-- A run goes over one character only if its stop does not match there. -/
theorem one (h : Derives g c stop.unless s t) :
    ∃ x, s.Takes t [x] [] ∧ Along xs P [x] t.rest ∧ t.stack = s.stack := by
  obtain ⟨u, hahead, hany⟩ := h.seq_meets hc
  cases hahead with
  | notAhead hfails =>
      cases hany with
      | @char _ _ _ x rest hrest =>
          have hP := hstop.missed rfl hfails
          rw [hrest] at hP
          exact ⟨x, ⟨hrest, by simp [State.advance], rfl⟩, ⟨fun _ => hP, trivial⟩, rfl⟩

theorem one_fails (h : Fails g c stop.unless s r) : s.rest = [] ∨ Q s.rest := by
  rcases h.seq with h | ⟨t, hahead, h⟩
  · obtain ⟨t, ht⟩ := h.notAhead
    exact .inr (hstop.found rfl ht)
  · rw [State.skip_of_ne_spaced _ _ hc] at h
    cases hahead with
    | notAhead =>
        cases hrest : s.rest with
        | nil => exact .inl rfl
        | cons x rest => exact absurd (h.not_test (f := fun _ => true) rfl hrest) Bool.noConfusion

/-- A run stops at none of its characters, and at the one after it. -/
theorem until0 (h : Derives g c (.until0 stop) s t) :
    ∃ v, s.Takes t v [] ∧ Along xs P v t.rest ∧ t.stack = s.stack ∧ (t.rest = [] ∨ Q t.rest) := by
  have hrounds : Stops g c stop s.stack P Q → ∃ v, s.Takes t v [] ∧ Along xs P v t.rest ∧
      t.stack = s.stack ∧ (t.rest = [] ∨ Q t.rest) := by
    refine h.many_induct (P := fun s t => Stops g c stop s.stack P Q → ∃ v, s.Takes t v [] ∧
      Along xs P v t.rest ∧ t.stack = s.stack ∧ (t.rest = [] ∨ Q t.rest)) ?_ ?_
    · intro s s' r hs hfails hstop
      rw [State.skip_of_ne_spaced _ _ hc, or_self] at hs
      subst hs
      exact ⟨[], .idle r, trivial, rfl, hstop.one_fails hc hfails⟩
    · intro s s' t u hs hround ih hstop
      rw [State.skip_of_ne_spaced _ _ hc, or_self] at hs
      subst hs
      obtain ⟨x, hx, hP, hstack⟩ := hstop.one xs hc hround
      obtain ⟨v, hv, hmore, hstack', hend⟩ := ih (by rwa [hstack])
      rw [hv.rest_eq] at hP
      exact ⟨x :: v, hx.trans hv, hP.append hmore, hstack'.trans hstack, hend⟩
  exact hrounds hstop

theorem until1 (h : Derives g c (.until1 stop) s t) :
    ∃ v, s.Takes t v [] ∧ v ≠ [] ∧ Along xs P v t.rest ∧ t.stack = s.stack ∧ (t.rest = [] ∨ Q t.rest) := by
  obtain ⟨u, hfirst, hmore⟩ := h.seq_meets hc
  obtain ⟨x, hx, hP, hstack⟩ := hstop.one xs hc hfirst
  rw [← hstack] at hstop
  obtain ⟨v, hv, halong, hstack', hend⟩ := hstop.until0 xs hc hmore
  rw [hv.rest_eq] at hP
  exact ⟨x :: v, hx.trans hv, by simp, hP.append halong, hstack'.trans hstack, hend⟩

end Stops

/-- What may follow on a run of words: blanks, and then the end of the text or a stop. -/
def Ends (xs : List Char) (Q : List Char → Prop) (rest : List Char) : Prop :=
  ∃ b more, rest = b ++ more ∧ (∀ x ∈ b, x ∈ xs) ∧ (∀ x ∈ more.head?, x ∉ xs) ∧ (more = [] ∨ Q more)

section Words

variable {blank w : ρ} {xs : List Char} {P Q : List Char → Prop} (hc : c.atomicity ≠ .spaced)
  (hblank : g.kind blank = .silent) (hxs : (g.body blank).letters = .some xs) (hw : g.kind w = .silent)
  (hbody : g.body w = .until1 stop) (hstop : ∀ stack, Stops g c stop stack P Q)

include hc hblank hxs in
theorem Derives.takes_blanks_plus (h : Derives g c (.plus (.call blank)) s t) :
    ∃ b, s.Takes t b [] ∧ (∀ x ∈ b, x ∈ xs) ∧ ∀ x ∈ t.rest.head?, x ∉ xs := by
  obtain ⟨u, hfirst, hmore⟩ := h.seq_meets hc
  obtain ⟨b, hb, hletters⟩ := hfirst.takes_silent_letter hblank hxs
  obtain ⟨b', hb', hletters'⟩ := hmore.takes_blanks hc hblank hxs
  obtain ⟨t', r, hfails, hrest⟩ := hmore.many_fails hc
  refine ⟨b ++ b', hb.trans hb', List.forall_mem_append.mpr ⟨hletters, hletters'⟩, ?_⟩
  intro x hx
  obtain ⟨rest, heq⟩ := List.head?_eq_some_iff.mp hx
  exact (hfails.silent hblank).not_letter hxs (hrest.trans heq)

include hc hw hbody hstop in
theorem Derives.along_word (xs : List Char) (h : Derives g c (.call w) s t) :
    ∃ v, s.Takes t v [] ∧ v ≠ [] ∧ Along xs P v t.rest ∧ (t.rest = [] ∨ Q t.rest) := by
  cases h with
  | silent _ h =>
      rw [hbody] at h
      obtain ⟨v, hv, hne, halong, _, hend⟩ := (hstop s.stack).until1 xs hc h
      exact ⟨v, hv, hne, halong, hend⟩
  | pair hkind | hidden hkind => exact absurd hw hkind

include hc hw hbody hstop in
theorem Fails.word (h : Fails g c (.call w) s r) : s.rest = [] ∨ Q s.rest := by
  have h := h.silent hw
  rw [hbody] at h
  rcases h.seq with h | ⟨t, _, h⟩
  · exact (hstop s.stack).one_fails hc h
  · exact absurd h (Fails.not_many hc)

include hc hblank hxs hw hbody hstop in
/-- Where no further word follows, there are blanks at most before the stop. -/
theorem Fails.ends (h : Fails g c (.seq (.plus (.call blank)) (.call w)) s r) (hs : s.rest = [] ∨ Q s.rest) :
    Ends xs Q s.rest := by
  rcases h.seq with h | ⟨u, hblanks, h⟩
  · refine ⟨[], s.rest, rfl, by simp, ?_, hs⟩
    rcases h.seq with h | ⟨u, _, h⟩
    · intro x hx
      obtain ⟨rest, heq⟩ := List.head?_eq_some_iff.mp hx
      exact (h.silent hblank).not_letter hxs heq
    · exact absurd h (Fails.not_many hc)
  · rw [State.skip_of_ne_spaced _ _ hc] at h
    obtain ⟨b, hb, hletters, hhead⟩ := hblanks.takes_blanks_plus hc hblank hxs
    exact ⟨b, u.rest, hb.rest_eq, hletters, hhead, h.word hc hw hbody hstop⟩

include hc hblank hxs hw hbody hstop in
/-- Words with blanks between them stop at none of their characters but the blanks, and go on to a stop. -/
theorem Derives.along_words
    (h : Derives g c (.seq (.call w) (.many (.seq (.plus (.call blank)) (.call w)))) s t) :
    ∃ v, s.Takes t v [] ∧ v ≠ [] ∧ Along xs P v t.rest ∧ Ends xs Q t.rest := by
  obtain ⟨u, hfirst, hmore⟩ := h.seq_meets hc
  obtain ⟨v, hv, hne, halong, hend⟩ := hfirst.along_word hc hw hbody hstop xs
  have hrounds : ∃ v, u.Takes t v [] ∧ Along xs P v t.rest ∧ Ends xs Q t.rest := by
    refine hmore.many_induct (P := fun s t => (s.rest = [] ∨ Q s.rest) → ∃ v, s.Takes t v [] ∧
      Along xs P v t.rest ∧ Ends xs Q t.rest) ?_ ?_ hend
    · intro s s' r hs hfails hend
      rw [State.skip_of_ne_spaced _ _ hc, or_self] at hs
      subst hs
      have hends := hfails.ends hc hblank hxs hw hbody hstop hend
      exact ⟨[], .idle r, trivial, hends⟩
    · intro s s' t u hs hround ih _
      rw [State.skip_of_ne_spaced _ _ hc, or_self] at hs
      subst hs
      obtain ⟨s₁, hblanks, hword⟩ := hround.seq_meets hc
      obtain ⟨b, hb, hletters, _⟩ := hblanks.takes_blanks_plus hc hblank hxs
      obtain ⟨v, hv, _, halong, hend⟩ := hword.along_word hc hw hbody hstop xs
      obtain ⟨v', hv', halong', hends⟩ := ih hend
      rw [hv'.rest_eq] at halong
      refine ⟨b ++ v ++ v', (hb.trans hv).trans hv', ?_, hends⟩
      rw [List.append_assoc]
      exact (along_letters hletters).append (halong.append halong')
  obtain ⟨v', hv', halong', hends⟩ := hrounds
  rw [hv'.rest_eq] at halong
  exact ⟨v ++ v', hv.trans hv', by simp [hne], halong.append halong', hends⟩

end Words

end LiquidTemplate.Peg
