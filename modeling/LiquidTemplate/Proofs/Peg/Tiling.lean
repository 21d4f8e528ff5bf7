import LiquidTemplate.Proofs.Peg.Parts

namespace LiquidTemplate.Peg

open State Text

variable {ρ : Type} {g : Grammar ρ} {c : Context} {e : Expr ρ} {s t : State ρ} {xs : List Char}

def Tiled (xs : List Char) : Nat → List Char → List (Pair ρ) → Prop
  | _, w, [] => ∀ x ∈ w, x ∈ xs
  | n, w, p :: ps => ∃ gap rest, w = gap ++ (p.text ++ rest) ∧ (∀ x ∈ gap, x ∈ xs) ∧
      p.start = n + byteLength gap ∧ p.stop = p.start + byteLength p.text ∧ Tiled xs p.stop rest ps

namespace Tiled

variable {n : Nat} {v w : List Char} {ps qs : List (Pair ρ)}

theorem append (hv : Tiled xs n v ps) (hw : Tiled xs (n + byteLength v) w qs) :
    Tiled xs n (v ++ w) (ps ++ qs) := by
  induction ps generalizing n v with
  | nil =>
      cases qs with
      | nil => exact List.forall_mem_append.mpr ⟨hv, hw⟩
      | cons q qs =>
          obtain ⟨gap, rest, rfl, hgap, hstart, hstop, hrest⟩ := hw
          refine ⟨v ++ gap, rest, by simp, List.forall_mem_append.mpr ⟨hv, hgap⟩, ?_, hstop, hrest⟩
          rw [hstart, byteLength_append, Nat.add_assoc]
  | cons p ps ih =>
      obtain ⟨gap, rest, rfl, hgap, hstart, hstop, hrest⟩ := hv
      refine ⟨gap, rest ++ w, by simp, hgap, hstart, hstop, ih hrest ?_⟩
      have hend : n + byteLength (gap ++ (p.text ++ rest)) = p.stop + byteLength rest := by
        rw [byteLength_append, byteLength_append]
        omega
      rwa [hend] at hw

theorem filter {f : Pair ρ → Bool} (h : Tiled xs n w ps) (hf : ∀ p ∈ ps, f p = false → p.text = []) :
    Tiled xs n w (ps.filter f) := by
  induction ps generalizing n w with
  | nil => exact h
  | cons p ps ih =>
      obtain ⟨hp, hps⟩ := List.forall_mem_cons.mp hf
      obtain ⟨gap, rest, rfl, hgap, hstart, hstop, hrest⟩ := h
      have hrest' := ih hrest hps
      cases hfp : f p with
      | true =>
          rw [List.filter_cons_of_pos hfp]
          exact ⟨gap, rest, rfl, hgap, hstart, hstop, hrest'⟩
      | false =>
          rw [List.filter_cons_of_neg (by simp [hfp]), hp hfp, List.nil_append]
          have hgap' : Tiled xs n gap ([] : List (Pair ρ)) := hgap
          apply hgap'.append
          rwa [hstop, hstart, hp hfp, byteLength_nil, Nat.add_zero] at hrest'

theorem eq_append_cons {a b : List Char} {x : Char} (h : v ++ x :: w = a ++ b) :
    (∃ r, a = v ++ x :: r) ∨ ∃ v', v = a ++ v' ∧ b = v' ++ x :: w := by
  rcases List.append_eq_append_iff.mp h with ⟨a', ha, hb⟩ | ⟨v', hv, hb⟩
  · cases a' with
    | nil => exact .inr ⟨[], by simpa using ha.symm, hb.symm⟩
    | cons y a' =>
        cases hb
        exact .inl ⟨a', ha⟩
  · exact .inr ⟨v', hv, hb⟩

/-- Every character of the text is one of the letters or lies in a pair. -/
theorem mem_or_inside {x : Char} (h : Tiled xs n (v ++ x :: w) ps) :
    x ∈ xs ∨ ∃ p ∈ ps, p.start ≤ n + byteLength v ∧ n + byteLength v < p.stop := by
  induction ps generalizing n v with
  | nil => exact .inl (h x (by simp))
  | cons p ps ih =>
      obtain ⟨gap, rest, heq, hgap, hstart, hstop, hrest⟩ := h
      rcases eq_append_cons heq with ⟨r, rfl⟩ | ⟨v₁, rfl, hv₁⟩
      · exact .inl (hgap x (by simp))
      · rw [byteLength_append]
        rcases eq_append_cons hv₁.symm with ⟨r, htext⟩ | ⟨v₂, rfl, hv₂⟩
        · have hpos := x.utf8Size_pos
          rw [htext, byteLength_append, byteLength_cons] at hstop
          exact .inr ⟨p, by simp, by omega, by omega⟩
        · rw [hv₂] at hrest
          have hend : p.stop + byteLength v₂ = n + (byteLength gap + byteLength (p.text ++ v₂)) := by
            rw [byteLength_append]
            omega
          rw [← hend]
          rcases ih hrest with hx | ⟨q, hq, hinside⟩
          · exact .inl hx
          · exact .inr ⟨q, by simp [hq], hinside⟩

end Tiled

/-- Whether a match of the expression consumes, apart from what leaves a pair, nothing but some
letters, given the silent rules of which that is known. -/
def Expr.sweeps (xs : List Char) (known : ρ → Bool) : Expr ρ → Bool
  | word w => w.all xs.contains
  | start | finish | ahead _ | notAhead _ => true
  | seq a b => a.sweeps xs known && b.sweeps xs known
  | alt a b => a.sweeps xs known && b.sweeps xs known
  | opt a => a.sweeps xs known
  | many a => a.sweeps xs known
  | again a => a.sweeps xs known
  | call r => known r
  | _ => false

def Sweeps (g : Grammar ρ) (xs : List Char) (known : ρ → Bool) : Prop :=
  ∀ r, known r → g.kind r = .silent → (g.body r).sweeps xs known

/-- A match leaves its pairs with nothing but the letters between them. -/
theorem Derives.tiled {known : ρ → Bool} (hknown : Sweeps g xs known) (h : Derives g c e s t)
    (hc : c.leavesPair) (hc' : c.atomicity ≠ .spaced) (he : e.sweeps xs known) :
    ∃ w ps, s.Takes t w ps ∧ Tiled xs s.offset w ps := by
  have hjoin : ∀ {s t u : State ρ} {v w : List Char} {ps qs : List (Pair ρ)}, s.Takes t v ps →
      Tiled xs s.offset v ps → t.Takes u w qs → Tiled xs t.offset w qs →
      ∃ w ps, s.Takes u w ps ∧ Tiled xs s.offset w ps := by
    intro s t u v w ps qs hst hv htu hw
    rw [hst.offset_eq] at hw
    exact ⟨v ++ w, ps ++ qs, hst.trans htu, hv.append hw⟩
  have hidle : ∀ (s : State ρ) (r : Attempts ρ), ∃ w ps, s.Takes { s with attempts := r } w ps ∧
      Tiled xs s.offset w ps := by
    intro s r
    exact ⟨[], [], .idle r, by simp [Tiled]⟩
  induction h with
  | @word c s w rest hrest =>
      refine ⟨w, [], (Derives.word (g := g) (c := c) hrest).takes_word, ?_⟩
      simpa [Expr.sweeps, Tiled] using he
  | @start c s | @finish c s => exact ⟨[], [], ⟨rfl, rfl, rfl⟩, by simp [Tiled]⟩
  | absent | none | last | ahead | notAhead => exact hidle _ _
  | seq _ _ iha ihb =>
      simp only [Expr.sweeps, Bool.and_eq_true] at he
      obtain ⟨v, ps, hv, hps⟩ := iha hc hc' he.1
      obtain ⟨w, qs, hw, hqs⟩ := ihb hc hc' he.2
      rw [skip_of_ne_spaced _ _ hc'] at hw hqs
      exact hjoin hv hps hw hqs
  | first _ ih =>
      simp only [Expr.sweeps, Bool.and_eq_true] at he
      exact ih hc hc' he.1
  | second _ _ ih =>
      simp only [Expr.sweeps, Bool.and_eq_true] at he
      obtain ⟨w, ps, hw, hps⟩ := ih hc hc' he.2
      exact ⟨w, ps, ⟨hw.rest_eq, hw.offset_eq, hw.pairs_eq⟩, hps⟩
  | present _ ih => exact ih hc hc' he
  | some _ _ iha ihb =>
      obtain ⟨v, ps, hv, hps⟩ := iha hc hc' he
      obtain ⟨w, qs, hw, hqs⟩ := ihb hc hc' he
      exact hjoin hv hps hw hqs
  | next _ _ iha ihb =>
      obtain ⟨v, ps, hv, hps⟩ := iha hc hc' he
      obtain ⟨w, qs, hw, hqs⟩ := ihb hc hc' he
      rw [skip_of_ne_spaced _ _ hc'] at hv hps
      exact hjoin hv hps hw hqs
  | silent hkind _ ih => exact ih hc hc' (hknown _ he hkind)
  | @pair c s t r hkind hleaves h =>
      obtain ⟨p, hp, _, hstart, hstop, _⟩ := (Derives.pair hkind hleaves h).takes_call hkind hc
      refine ⟨p.text, [p], hp, [], [], by simp, by simp, hstart, ?_, by simp [Tiled]⟩
      rw [hstop, hp.offset_eq, hstart]
  | hidden _ hleaves =>
      rw [Context.leavesPair_outside _ _ hc] at hleaves
      cases hleaves
  | caseless | char | push | top | pop => cases he

theorem Grown.tiled {text : List Char} {p : Pair ρ} {known : ρ → Bool} (h : Grown g text p)
    (hknown : Sweeps g xs known) (hkind : g.kind p.rule = .compound)
    (hbody : (g.body p.rule).sweeps xs known) : Tiled xs p.start p.text p.children := by
  cases h with
  | @mk c s t r _ hleaves hpairs _ h _ =>
      simp only at hkind hbody
      rw [hkind] at hleaves h
      obtain ⟨w, ps, hw, hps⟩ := h.tiled hknown hleaves Atomicity.noConfusion hbody
      have hchildren := hw.pairs_eq
      rw [hpairs, List.append_nil] at hchildren
      simp only [hw.consumed_eq, hchildren, List.reverse_reverse]
      exact hps

end LiquidTemplate.Peg
