import LiquidTemplate.Proofs.Peg.Derivation

namespace LiquidTemplate

namespace Text

theorem stripWord?_eq_some {w cs rest : List Char} (h : stripWord? w cs = some rest) :
    cs = w ++ rest := by
  induction w generalizing cs with
  | nil => cases h; rfl
  | cons x w ih =>
      cases cs with
      | nil => cases h
      | cons y cs =>
          rw [stripWord?] at h
          split at h
          · rename_i hxy
            rw [ih h, hxy, List.cons_append]
          · cases h

theorem utf8Size_of_le {c : Char} (h : c.val ≤ 0x7f) : c.utf8Size = 1 := if_pos h

theorem utf8Size_toLower (c : Char) : c.toLower.utf8Size = c.utf8Size := by
  unfold Char.toLower
  split
  · rename_i h
    have hupper : c.toNat ≤ 90 := h.2
    rw [utf8Size_of_le, utf8Size_of_le]
    · exact Nat.le_trans hupper (by decide)
    · simp only [UInt32.le_iff_toNat_le, UInt32.toNat_add]
      simp
      omega
  · rfl

/-- A text that is the word up to case takes as many bytes. -/
theorem stripCaseless?_eq_some {w cs rest : List Char} (h : stripCaseless? w cs = some rest) :
    ∃ w', cs = w' ++ rest ∧ byteLength w' = byteLength w := by
  induction w generalizing cs with
  | nil => cases h; exact ⟨[], rfl, rfl⟩
  | cons x w ih =>
      cases cs with
      | nil => cases h
      | cons y cs =>
          rw [stripCaseless?] at h
          split at h
          · rename_i hxy
            obtain ⟨w', rfl, hw⟩ := ih h
            refine ⟨y :: w', rfl, ?_⟩
            rw [byteLength_cons, byteLength_cons, hw, ← utf8Size_toLower x, hxy, utf8Size_toLower]
          · cases h

end Text

namespace Peg

variable {ρ : Type}

namespace State

def Reaches (s t : State ρ) : Prop :=
  ∃ w, s.rest = w ++ t.rest ∧ t.offset = s.offset + Text.byteLength w

theorem Reaches.refl (s : State ρ) : s.Reaches s := ⟨[], rfl, rfl⟩

theorem Reaches.trans {s t u : State ρ} (hst : s.Reaches t) (htu : t.Reaches u) : s.Reaches u := by
  obtain ⟨v, hv, hvo⟩ := hst
  obtain ⟨w, hw, hwo⟩ := htu
  exact ⟨v ++ w, by rw [hv, hw, List.append_assoc], by rw [hwo, hvo, Text.byteLength_append]; omega⟩

theorem Reaches.le {s t : State ρ} (h : s.Reaches t) : s.offset ≤ t.offset := by
  obtain ⟨w, _, h⟩ := h
  omega

theorem reaches_skip (s : State ρ) (c : Context) (blank : Char → Bool) :
    s.Reaches (s.skip c blank) := by
  unfold skip
  split
  · exact ⟨s.rest.takeWhile blank, List.takeWhile_append_dropWhile.symm, rfl⟩
  · exact .refl s

@[simp]
theorem pairs_skip (s : State ρ) (c : Context) (blank : Char → Bool) :
    (s.skip c blank).pairs = s.pairs := by
  unfold skip
  split <;> rfl

theorem Reaches.consumed {s t : State ρ} (h : s.Reaches t) :
    s.rest = s.consumed t ++ t.rest ∧ t.offset = s.offset + Text.byteLength (s.consumed t) := by
  obtain ⟨w, hw, hoffset⟩ := h
  have hconsumed : s.consumed t = w := by
    rw [State.consumed, hoffset, Nat.add_sub_cancel_left, hw, Text.takeBytes?_byteLength_append]
    rfl
  rw [hconsumed]
  exact ⟨hw, hoffset⟩

end State

open State

theorem Derives.reaches {g : Grammar ρ} {c : Context} {e : Expr ρ} {s t : State ρ}
    (h : Derives g c e s t) : s.Reaches t := by
  induction h with
  | word h => exact ⟨_, Text.stripWord?_eq_some h, rfl⟩
  | caseless h =>
      obtain ⟨w, hw, hlength⟩ := Text.stripCaseless?_eq_some h
      exact ⟨w, hw, by rw [hlength]⟩
  | @char c s test x xs h _ => exact ⟨[x], h, by simp [State.advance]⟩
  | start | finish | absent | none | last | ahead | notAhead => exact .refl _
  | seq _ _ iha ihb => exact iha.trans ((reaches_skip _ _ _).trans ihb)
  | first _ ih | present _ ih | silent _ _ ih => exact ih
  | second _ _ ih => exact ih
  | some _ _ iha ihb => exact iha.trans ihb
  | next _ _ iha ihb => exact (reaches_skip _ _ _).trans (iha.trans ihb)
  | push _ ih => exact ih
  | top _ h => exact ⟨_, Text.stripWord?_eq_some h, rfl⟩
  | pop _ h => exact ⟨_, Text.stripWord?_eq_some h, rfl⟩
  | pair _ _ _ ih => exact ih
  | hidden _ _ _ ih => exact ih

def Row : Nat → Nat → List (Pair ρ) → Prop
  | lo, hi, [] => lo ≤ hi
  | lo, hi, p :: ps => lo ≤ p.start ∧ p.start ≤ p.stop ∧ Row p.stop hi ps

theorem Row.le {lo hi : Nat} {ps : List (Pair ρ)} (h : Row lo hi ps) : lo ≤ hi := by
  induction ps generalizing lo with
  | nil => exact h
  | cons p ps ih =>
      have := ih h.2.2
      have := h.1
      have := h.2.1
      omega

theorem Row.append {lo mid hi : Nat} {ps qs : List (Pair ρ)} (hp : Row lo mid ps)
    (hq : Row mid hi qs) : Row lo hi (ps ++ qs) := by
  induction ps generalizing lo with
  | nil =>
      cases qs with
      | nil => exact Nat.le_trans hp hq
      | cons q qs => exact ⟨Nat.le_trans hp hq.1, hq.2⟩
  | cons p ps ih => exact ⟨hp.1, hp.2.1, ih hp.2.2⟩

theorem Row.nil {lo hi : Nat} (h : lo ≤ hi) : Row lo hi ([] : List (Pair ρ)) := h

theorem Row.weaken {lo lo' hi hi' : Nat} {ps : List (Pair ρ)} (h : Row lo hi ps) (hlo : lo' ≤ lo)
    (hhi : hi ≤ hi') : Row lo' hi' ps := by
  have h' := ((Row.nil hlo).append h).append (Row.nil hhi)
  rwa [List.nil_append, List.append_nil] at h'

theorem Derives.row {g : Grammar ρ} {c : Context} {e : Expr ρ} {s t : State ρ}
    (h : Derives g c e s t) :
    ∃ new, t.pairs = new ++ s.pairs ∧ Row s.offset t.offset new.reverse := by
  induction h with
  | word | caseless | top | pop => exact ⟨[], rfl, Nat.le_add_right _ _⟩
  | char => exact ⟨[], rfl, Nat.le_add_right _ _⟩
  | start | finish | absent | none | last | ahead | notAhead => exact ⟨[], rfl, Nat.le_refl _⟩
  | @seq c s t u a b _ _ iha ihb =>
      obtain ⟨new, hnew, hrow⟩ := iha
      obtain ⟨new', hnew', hrow'⟩ := ihb
      refine ⟨new' ++ new, ?_, ?_⟩
      · rw [hnew', pairs_skip, hnew, List.append_assoc]
      · rw [List.reverse_append]
        exact hrow.append (hrow'.weaken (reaches_skip t c g.blank).le (Nat.le_refl _))
  | first _ ih | present _ ih | silent _ _ ih => exact ih
  | second _ _ ih | push _ ih | hidden _ _ _ ih => exact ih
  | some _ _ iha ihb =>
      obtain ⟨new, hnew, hrow⟩ := iha
      obtain ⟨new', hnew', hrow'⟩ := ihb
      exact ⟨new' ++ new, by rw [hnew', hnew, List.append_assoc],
        by rw [List.reverse_append]; exact hrow.append hrow'⟩
  | @next c s t u a _ _ iha ihb =>
      obtain ⟨new, hnew, hrow⟩ := iha
      obtain ⟨new', hnew', hrow'⟩ := ihb
      refine ⟨new' ++ new, ?_, ?_⟩
      · rw [hnew', hnew, pairs_skip, List.append_assoc]
      · rw [List.reverse_append]
        exact (hrow.weaken (reaches_skip s c g.blank).le (Nat.le_refl _)).append hrow'
  | pair _ _ h _ => exact ⟨[_], rfl, Nat.le_refl _, h.reaches.le, Nat.le_refl _⟩

end Peg

end LiquidTemplate
