import LiquidTemplate.Expression.Reader
import LiquidTemplate.Proofs.Except
import LiquidTemplate.Proofs.Geometry.Tree
import LiquidTemplate.Proofs.Rule.Shape

namespace LiquidTemplate

open Text
open Peg (Pair Grown)

namespace Peg

variable {ρ : Type} {lo hi : Nat} {ps qs : List (Pair ρ)} {p : Pair ρ}

theorem Row.mem (h : Row lo hi ps) (hp : p ∈ ps) :
    lo ≤ p.start ∧ p.start ≤ p.stop ∧ p.stop ≤ hi := by
  induction ps generalizing lo with
  | nil => cases hp
  | cons q ps ih =>
      obtain ⟨hlo, hq, hrest⟩ := h
      rcases List.mem_cons.mp hp with rfl | hp
      · exact ⟨hlo, hq, hrest.le⟩
      · have := ih hrest hp
        omega

theorem Row.sublist (h : Row lo hi ps) (hqs : qs.Sublist ps) : Row lo hi qs := by
  induction hqs generalizing lo with
  | slnil => exact h
  | cons q _ ih =>
      obtain ⟨hlo, hq, hrest⟩ := h
      exact (ih hrest).weaken (Nat.le_trans hlo hq) (Nat.le_refl _)
  | cons_cons q _ ih => exact ⟨h.1, h.2.1, ih h.2.2⟩

theorem Row.split (h : Row lo hi (ps ++ p :: qs)) :
    Row lo p.start ps ∧ p.start ≤ p.stop ∧ Row p.stop hi qs := by
  induction ps generalizing lo with
  | nil => exact h
  | cons q ps ih =>
      obtain ⟨hlo, hq, hrest⟩ := h
      obtain ⟨hps, hp, hqs⟩ := ih hrest
      exact ⟨⟨hlo, hq, hps⟩, hp, hqs⟩

theorem Row.flatMap_children (h : Row lo hi ps) (hps : ∀ p ∈ ps, Row p.start p.stop p.children) :
    Row lo hi (ps.flatMap (·.children)) := by
  induction ps generalizing lo with
  | nil => exact h
  | cons p ps ih =>
      have hp := (hps p (by simp)).weaken h.1 (Nat.le_refl _)
      exact hp.append (ih h.2.2 fun q hq => hps q (by simp [hq]))

end Peg

/-- The pair comes from a match in a part of the text that sits at the offset. -/
def Seated (text : List Char) (offset : Nat) (p : Pair Rule) : Prop :=
  ∃ part, Sits text offset part ∧ Grown grammar part p

namespace Seated

variable {text : List Char} {offset : Nat} {p q : Pair Rule}

theorem sits (h : Seated text offset p) : Sits text (offset + p.start) p.text := by
  obtain ⟨part, hpart, hp⟩ := h
  obtain ⟨before, after, htext, hstart, _⟩ := hp.text_eq
  exact hpart.trans ⟨before, after, htext, hstart⟩

theorem stop_eq (h : Seated text offset p) : p.stop = p.start + byteLength p.text := by
  obtain ⟨_, _, hp⟩ := h
  obtain ⟨_, _, _, _, hstop⟩ := hp.text_eq
  exact hstop

theorem boundary_stop (h : Seated text offset p) : Boundary text (offset + p.stop) := by
  have hend := h.sits.boundary_end
  rwa [Nat.add_assoc, ← h.stop_eq] at hend

theorem le (h : Seated text offset p) : p.start ≤ p.stop := by
  have := h.stop_eq
  omega

theorem lt (h : Seated text offset p) (hp : p.rule.solid) : p.start < p.stop := by
  obtain ⟨_, _, hgrown⟩ := h
  exact grown_lt hgrown hp

theorem row (h : Seated text offset p) : Peg.Row p.start p.stop p.children := by
  obtain ⟨_, _, hp⟩ := h
  exact hp.row

theorem child (h : Seated text offset p) (hq : q ∈ p.children) : Seated text offset q := by
  obtain ⟨part, hpart, hp⟩ := h
  exact ⟨part, hpart, hp.children q hq⟩

variable (htext : byteLength text < Span.limit)

include htext

theorem lo_span (h : Seated text offset p) : (p.span offset).lo = offset + p.start :=
  Span.lo_between_of_boundary htext h.sits.boundary

theorem hi_span (h : Seated text offset p) : (p.span offset).hi = offset + p.stop :=
  Span.hi_between_of_boundary htext h.boundary_stop

theorem inside_span (h : Seated text offset p) :
    (p.span offset).Inside text (offset + p.start) (offset + p.stop) :=
  Span.inside_between htext (Nat.add_le_add_left h.le offset) h.sits.boundary h.boundary_stop

theorem lo_lt_hi (h : Seated text offset p) (hp : p.rule.solid) :
    (p.span offset).lo < (p.span offset).hi := by
  rw [h.lo_span htext, h.hi_span htext]
  exact Nat.add_lt_add_left (h.lt hp) offset

theorem fills_span (h : Seated text offset p) :
    (p.span offset).Holds text p.text := by
  rw [Span.Holds, h.lo_span htext, h.hi_span htext, h.stop_eq, Nat.add_assoc]
  exact ⟨h.sits, rfl⟩

theorem inside_child (h : Seated text offset p) (hq : q ∈ p.children) :
    (q.span offset).Inside text (p.span offset).lo (p.span offset).hi := by
  obtain ⟨hlo, _, hhi⟩ := h.row.mem hq
  have hchild := (h.child hq).inside_span htext
  have hqlo := (h.child hq).lo_span htext
  have hqhi := (h.child hq).hi_span htext
  refine hchild.weaken ?_ ?_
  · rw [h.lo_span htext, hqlo]
    omega
  · rw [h.hi_span htext, hqhi]
    omega

theorem row_spans {lo hi : Nat} {ps : List (Pair Rule)} (h : ∀ p ∈ ps, Seated text offset p)
    (hrow : Peg.Row lo hi ps) (hsolid : ∀ p ∈ ps, p.rule.solid) :
    Span.Row text (offset + lo) (offset + hi) (ps.map (·.span offset)) := by
  induction ps generalizing lo with
  | nil => exact Nat.add_le_add_left hrow offset
  | cons p ps ih =>
      obtain ⟨hlo, hle, hrow'⟩ := hrow
      have hp := h p (by simp)
      have hplo := hp.lo_span htext
      have hphi := hp.hi_span htext
      have hlt := hp.lt (hsolid p (by simp))
      have hstop := hrow'.le
      have htail := ih (fun q hq => h q (by simp [hq])) hrow' fun q hq => hsolid q (by simp [hq])
      rw [List.map_cons, Span.Row]
      refine ⟨(hp.inside_span htext).weaken (by omega) (by omega), by omega, ?_⟩
      rw [hphi]
      exact htail

end Seated

end LiquidTemplate
