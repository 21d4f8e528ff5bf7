import LiquidTemplate.Proofs.Peg.Adequacy

namespace LiquidTemplate.Peg

open State Text

variable {ρ : Type} {g : Grammar ρ} {c : Context} {a b : Expr ρ} {s : State ρ} {v w rest more : List Char}
  {ps qs : List (Pair ρ)} {o : Option (State ρ)}

def Expr.words : Expr ρ → Option (List (List Char))
  | word w => some [w]
  | alt a b => do
    let v ← a.words
    let w ← b.words
    return v ++ w
  | _ => none

/-- A choice between words takes one that the text starts with, if there is one. -/
theorem gives_words {e : Expr ρ} {ws : List (List Char)} (he : e.words = some ws) :
    (Gives g c e s none ∧ ∀ w ∈ ws, ∀ rest, s.rest ≠ w ++ rest) ∨
      ∃ w ∈ ws, ∃ rest, s.rest = w ++ rest ∧ Gives g c e s (some (s.over w rest)) := by
  induction e generalizing ws with
  | word w =>
      cases he
      by_cases h : ∃ rest, s.rest = w ++ rest
      · obtain ⟨rest, hs⟩ := h
        exact .inr ⟨w, by simp, rest, hs, gives_word_over hs⟩
      · have hno : ∀ rest, s.rest ≠ w ++ rest := fun rest hs => h ⟨rest, hs⟩
        exact .inl ⟨gives_word_none hno, by simpa using hno⟩
  | alt a b iha ihb =>
      obtain ⟨v, hv, w, hw, rfl⟩ : ∃ v, a.words = some v ∧ ∃ w, b.words = some w ∧ v ++ w = ws := by
        simpa [Expr.words, Option.bind_eq_some_iff] using he
      rcases iha hv with ⟨ha, hno⟩ | ⟨u, hu, rest, hs, ha⟩
      · rcases ihb hw with ⟨hb, hno'⟩ | ⟨u, hu, rest, hs, hb⟩
        · exact .inl ⟨ha.alt hb, List.forall_mem_append.mpr ⟨hno, hno'⟩⟩
        · exact .inr ⟨u, List.mem_append_right v hu, rest, hs, ha.alt hb⟩
      · exact .inr ⟨u, List.mem_append_left w hu, rest, hs, ha.first⟩
  | _ => cases he

def Tight (blank : Char → Bool) (w : List Char) : Prop := ∀ x ∈ w.head?, blank x = false

theorem State.skip_of_tight {blank : Char → Bool} (h : Tight blank s.rest) (c : Context) : s.skip c blank = s := by
  unfold State.skip
  split
  · obtain ⟨rest, offset, stack, pairs, attempts⟩ := s
    cases rest with
    | nil => rfl
    | cons x rest =>
        have hx : blank x = false := h x rfl
        simp [hx]
  · rfl

theorem Gives.seq_tight (hrest : Tight g.blank rest) (ha : Gives g c a s (some (s.past v rest ps)))
    (hb : Gives g c b (s.over v rest) (some ((s.over v rest).past w more qs))) :
    Gives g c (.seq a b) s (some (s.past (v ++ w) more (qs ++ ps))) := by
  have hskip : (s.past v rest ps).skip c g.blank = s.past v rest ps := skip_of_tight hrest c
  have hb : Gives g c b ((s.past v rest ps).skip c g.blank) (some ((s.over v rest).past w more qs)) := by
    rw [hskip]
    exact hb.same ⟨rfl, rfl, rfl⟩
  have h := gives_seq.mpr (.inr ⟨_, _, ha, hb, rfl⟩)
  simpa only [Option.map_some, onto, past, State.over, byteLength_append, Nat.add_assoc] using h

theorem Gives.seq_word (hrest : Tight g.blank (w ++ rest)) (ha : Gives g c a s (some (s.past v (w ++ rest) ps))) :
    Gives g c (.seq a (.word w)) s (some (s.past (v ++ w) rest ps)) :=
  ha.seq_tight hrest (gives_word_over rfl)

theorem Gives.seq_tight_none (hrest : Tight g.blank rest) (ha : Gives g c a s (some (s.past v rest ps)))
    (hb : Gives g c b (s.over v rest) none) : Gives g c (.seq a b) s none := by
  have hskip : (s.past v rest ps).skip c g.blank = s.past v rest ps := skip_of_tight hrest c
  have hb : Gives g c b ((s.past v rest ps).skip c g.blank) none := by
    rw [hskip]
    exact hb.same ⟨rfl, rfl, rfl⟩
  exact gives_seq.mpr (.inr ⟨_, _, ha, hb, rfl⟩)

theorem Gives.opt_none (h : Gives g c a s none) (hs : s.rest = rest) :
    Gives g c (.opt a) s (some (s.past [] rest [])) := by
  have hbare : s.past [] rest [] = s.bare := over_nil s hs
  rw [hbare]
  exact gives_opt.mpr (.inr ⟨h, rfl⟩)

theorem Gives.many_none (h : Gives g c a s none) (hs : s.rest = rest) :
    Gives g c (.many a) s (some (s.past [] rest [])) := by
  have hbare : s.past [] rest [] = s.bare := over_nil s hs
  obtain ⟨n, h⟩ := h
  obtain ⟨r, hr⟩ := h.failed
  refine ⟨n + 1, ?_⟩
  rw [hbare]
  simpa only [Grammar.run, hr] using shows_idle s r

theorem Gives.many_tight (hrest : Tight g.blank rest) (ha : Gives g c a s (some (s.past v rest ps)))
    (hmore : Gives g c (.many a) (s.over v rest) (some ((s.over v rest).past w more qs))) :
    Gives g c (.many a) s (some (s.past (v ++ w) more (qs ++ ps))) := by
  have hagain : Gives g c (.again a) (s.past v rest ps) (some ((s.over v rest).past w more qs)) := by
    have hmore : Gives g c (.many a) (s.past v rest ps) (some ((s.over v rest).past w more qs)) :=
      hmore.same ⟨rfl, rfl, rfl⟩
    obtain ⟨n, hmore⟩ := hmore
    refine ⟨n, ?_⟩
    cases n with
    | zero => cases hmore
    | succ n =>
        have hskip : (s.past v rest ps).skip c g.blank = s.past v rest ps := skip_of_tight hrest c
        simp only [Grammar.run] at hmore
        simpa only [Grammar.run, hskip] using hmore
  have h := gives_rounds (e := .many a) rfl ?_ ha hagain
  · simpa only [onto, past, State.over, byteLength_append, Nat.add_assoc] using h
  · intro n t ht
    simp only [Grammar.run, ht]

end LiquidTemplate.Peg
