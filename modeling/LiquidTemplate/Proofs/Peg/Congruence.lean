import LiquidTemplate.Proofs.Peg.Determinacy

namespace LiquidTemplate.Peg

open State

variable {ρ : Type} {g : Grammar ρ} {P : List Char → Prop} {a a' b b' : Expr ρ}

def Lasting (P : List Char → Prop) : Prop := ∀ v w, P (v ++ w) → P w

theorem Lasting.reaches (hP : Lasting P) {s t : State ρ} (hs : P s.rest) (h : s.Reaches t) : P t.rest := by
  obtain ⟨w, hrest, _⟩ := h
  rw [hrest] at hs
  exact hP w t.rest hs

/-- Where no blanks are allowed, the second expression matches as the first one does on texts with the
property. -/
def Agree (g : Grammar ρ) (P : List Char → Prop) (a b : Expr ρ) : Prop :=
  ∀ c s o, Context.atomicity c ≠ .spaced → P (State.rest s) → Gives g c a s o → Gives g c b s o

def Barred (g : Grammar ρ) (P : List Char → Prop) (a : Expr ρ) : Prop :=
  ∀ c s, Context.atomicity c ≠ .spaced → P (State.rest s) → Gives g c a s none

theorem Barred.word {w : List Char} (h : ∀ rest, ¬P (w ++ rest)) : Barred g P (.word w) := by
  intro c s _ hs
  rw [gives_word]
  cases hrest : Text.stripWord? w s.rest with
  | none => rfl
  | some rest =>
      rw [Text.stripWord?_eq_some hrest] at hs
      exact absurd hs (h rest)

theorem Barred.seq (h : Barred g P a) : Barred g P (.seq a b) :=
  fun c s hc hs => (h c s hc hs).seq_none

theorem Barred.alt (ha : Barred g P a) (hb : Barred g P b) : Barred g P (.alt a b) :=
  fun c s hc hs => (ha c s hc hs).alt (hb c s hc hs)

namespace Agree

theorem refl (a : Expr ρ) : Agree g P a a := fun _ _ _ _ _ h => h

theorem seq (hP : Lasting P) (ha : Agree g P a a') (hb : Agree g P b b') :
    Agree g P (.seq a b) (.seq a' b') := by
  intro c s o hc hs h
  rw [gives_seq_meets hc] at h ⊢
  rcases h with ⟨h, rfl⟩ | ⟨t, o', h, h', rfl⟩
  · exact .inl ⟨ha c s _ hc hs h, rfl⟩
  · exact .inr ⟨t, o', ha c s _ hc hs h, hb c t _ hc (hP.reaches hs h.reaches) h', rfl⟩

theorem assoc (a b d : Expr ρ) : Agree g P (.seq a (.seq b d)) (.seq (.seq a b) d) := by
  intro c s o hc _ h
  rcases (gives_seq_meets hc).mp h with ⟨ha, rfl⟩ | ⟨t, o', ha, hbd, rfl⟩
  · exact ha.seq_none.seq_none
  · rcases (gives_seq_meets hc).mp hbd with ⟨hb, rfl⟩ | ⟨u, o'', hb, hd, rfl⟩
    · exact Gives.seq_none (ha.seq hc hb)
    · have hab := ha.seq hc hb
      have habd := hab.seq hc (hd.same ⟨rfl, rfl, rfl⟩)
      simpa [Function.comp_def, onto] using habd

theorem alt (ha : Agree g P a a') (hb : Agree g P b b') : Agree g P (.alt a b) (.alt a' b') := by
  intro c s o hc hs h
  rw [gives_alt] at h ⊢
  rcases h with ⟨t, h, rfl⟩ | ⟨h, h'⟩
  · exact .inl ⟨t, ha c s _ hc hs h, rfl⟩
  · exact .inr ⟨ha c s _ hc hs h, hb c s _ hc hs h'⟩

theorem notAhead (ha : Agree g P a a') : Agree g P (.notAhead a) (.notAhead a') := by
  intro c s o hc hs h
  have hc' : c.notAhead.atomicity ≠ .spaced := by rwa [Context.atomicity_notAhead]
  rw [gives_notAhead] at h ⊢
  rcases h with ⟨t, h, rfl⟩ | ⟨h, rfl⟩
  · exact .inl ⟨t, ha _ s _ hc' hs h, rfl⟩
  · exact .inr ⟨ha _ s _ hc' hs h, rfl⟩

theorem many (hP : Lasting P) (ha : Agree g P a a') : Agree g P (.many a) (.many a') := by
  intro c s o hc hs h
  refine h.many_induct (P := fun s o => P s.rest → Gives g c (.many a') s o) hc ?_ ?_ hs
  · intro s h hs
    exact (gives_many hc).mpr (.inl ⟨ha c s _ hc hs h, rfl⟩)
  · intro s t o h _ ih hs
    exact (gives_many hc).mpr (.inr ⟨t, o, ha c s _ hc hs h, ih (hP.reaches hs h.reaches), rfl⟩)

theorem plus (hP : Lasting P) (ha : Agree g P a a') : Agree g P (.plus a) (.plus a') :=
  seq hP ha (many hP ha)

theorem until1 (hP : Lasting P) (ha : Agree g P a a') : Agree g P (.until1 a) (.until1 a') :=
  plus hP (seq hP (notAhead ha) (refl _))

theorem silent {r r' : ρ} (hr : g.kind r = .silent) (hr' : g.kind r' = .silent)
    (h : Agree g P (g.body r) (g.body r')) : Agree g P (.call r) (.call r') := by
  intro c s o hc hs hcall
  rw [gives_silent hr] at hcall
  rw [gives_silent hr']
  exact h c s o hc hs hcall

/-- A guard against what never stands there changes nothing. -/
theorem guard (hb : Barred g P b) : Agree g P a (.seq (.notAhead b) a) := by
  intro c s o hc hs h
  have hc' : c.notAhead.atomicity ≠ .spaced := by rwa [Context.atomicity_notAhead]
  have hguard : Gives g c (.notAhead b) s (some s.bare) := gives_notAhead.mpr (.inr ⟨hb _ s hc' hs, rfl⟩)
  have hseq := hguard.seq hc (h.same ⟨rfl, rfl, rfl⟩)
  cases o with
  | none => exact hseq
  | some t =>
      have hpairs : t.onto s.bare.pairs = t := by rw [onto, bare, List.append_nil]
      rwa [Option.map_some, hpairs] at hseq

/-- A way that is never open can be left out. -/
theorem leave_out (hb : Barred g P b) : Agree g P (.alt a b) a := by
  intro c s o hc hs h
  rcases gives_alt.mp h with ⟨t, ha, rfl⟩ | ⟨ha, hb'⟩
  · exact ha
  · rwa [hb'.unique (hb c s hc hs)]

end Agree

end LiquidTemplate.Peg
