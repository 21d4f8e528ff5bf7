import Mathlib.Logic.Relation
import LiquidTemplate.Proofs.Peg.Totality

namespace LiquidTemplate.Peg

open Relation State

variable {ρ : Type} {g : Grammar ρ}

structure Trial (ρ : Type) where
  budget : Nat
  context : Context
  expr : Expr ρ
  state : State ρ

namespace Trial

def outcome (g : Grammar ρ) (t : Trial ρ) : Outcome ρ := g.run t.budget t.context t.expr t.state

def whole (r : ρ) (text : List Char) : Trial ρ :=
  ⟨Grammar.depthPerChar * (text.length + 1), .top, .call r, Grammar.initial text⟩

/-- The second run is begun by the first one.  There is one rule for each place where the matcher calls
itself, with what it has found out before as a premise. -/
inductive Calls (g : Grammar ρ) : Trial ρ → Trial ρ → Prop
  | seqFirst {n c a b s} : Calls g ⟨n + 1, c, .seq a b, s⟩ ⟨n, c, a, s⟩
  | seqSecond {n c a b s t} : g.run n c a s = .matched t →
      Calls g ⟨n + 1, c, .seq a b, s⟩ ⟨n, c, b, t.skip c g.blank⟩
  | altFirst {n c a b s} : Calls g ⟨n + 1, c, .alt a b, s⟩ ⟨n, c, a, s⟩
  | altSecond {n c a b s r} : g.run n c a s = .failed r →
      Calls g ⟨n + 1, c, .alt a b, s⟩ ⟨n, c, b, { s with attempts := r }⟩
  | opt {n c a s} : Calls g ⟨n + 1, c, .opt a, s⟩ ⟨n, c, a, s⟩
  | many {n c a s} : Calls g ⟨n + 1, c, .many a, s⟩ ⟨n, c, a, s⟩
  | manyAgain {n c a s t} : g.run n c a s = .matched t →
      Calls g ⟨n + 1, c, .many a, s⟩ ⟨n, c, .again a, t⟩
  | again {n c a s} : Calls g ⟨n + 1, c, .again a, s⟩ ⟨n, c, a, s.skip c g.blank⟩
  | againAgain {n c a s t} : g.run n c a (s.skip c g.blank) = .matched t →
      Calls g ⟨n + 1, c, .again a, s⟩ ⟨n, c, .again a, t⟩
  | ahead {n c a s} : Calls g ⟨n + 1, c, .ahead a, s⟩ ⟨n, c.ahead, a, s⟩
  | notAhead {n c a s} : Calls g ⟨n + 1, c, .notAhead a, s⟩ ⟨n, c.notAhead, a, s⟩
  | push {n c a s} : Calls g ⟨n + 1, c, .push a, s⟩ ⟨n, c, a, s⟩
  | silent {n c r s} : g.kind r = .silent → Calls g ⟨n + 1, c, .call r, s⟩ ⟨n, c, g.body r, s⟩
  | pair {n c r s} : g.kind r ≠ .silent → (c.outside (g.kind r)).leavesPair →
      Calls g ⟨n + 1, c, .call r, s⟩ ⟨n, c.inside (g.kind r), g.body r, { s with pairs := [] }⟩
  | hidden {n c r s} : g.kind r ≠ .silent → (c.outside (g.kind r)).leavesPair = false →
      Calls g ⟨n + 1, c, .call r, s⟩ ⟨n, c.inside (g.kind r), g.body r, s⟩

def Tried (g : Grammar ρ) (t u : Trial ρ) : Prop := ReflTransGen (Calls g) t u

variable {t u v : Trial ρ}

theorem Calls.enters (h : Calls g t u) : Enters g t.context t.expr t.state u.context u.expr u.state := by
  cases h with
  | seqFirst => exact .seqFirst
  | seqSecond h => exact .seqSecond (.of_run h)
  | altFirst => exact .altFirst
  | altSecond h => exact .altSecond
  | opt => exact .opt
  | many => exact .many
  | manyAgain h => exact .manyAgain (.of_run h)
  | again => exact .again
  | againAgain h => exact .againAgain (.of_run h)
  | ahead => exact .ahead
  | notAhead => exact .notAhead
  | push => exact .push
  | @silent n c r s hkind =>
      have henter : Enters g c (.call r) s (c.inside (g.kind r)) (g.body r) s := .call s.pairs
      rwa [hkind] at henter
  | pair => exact .call []
  | @hidden n c r s => exact .call s.pairs

/-- What every step hands on from a run to the runs it begins holds of all that is tried. -/
theorem Tried.keeps {I : Expr ρ → State ρ → Prop} (h : Tried g t u)
    (hstep : ∀ {c e s c' e' s'}, Enters g c e s c' e' s' → I e s → I e' s') (ht : I t.expr t.state) :
    I u.expr u.state := by
  induction h with
  | refl => exact ht
  | tail _ hcalls ih => exact hstep hcalls.enters ih

/-- A run that has begun another one which failed fails as well, or it comes to a match or goes on with
a further run where the failed one left the remembered texts, as it found them. -/
theorem Calls.resumes (h : Calls g t u) {a : Attempts ρ} (hu : u.outcome g = .failed a) :
    (∃ a, t.outcome g = .failed a) ∨
      (∃ s, t.outcome g = .matched s ∧ s.stack = u.state.stack) ∨
      ∃ v, Calls g t v ∧ v.state.stack = u.state.stack ∧ t.outcome g = v.outcome g := by
  cases h with
  | seqFirst | ahead | push =>
      refine .inl ⟨a, ?_⟩
      simp only [outcome, Grammar.run] at hu ⊢
      rw [hu]
  | seqSecond h =>
      refine .inl ⟨a, ?_⟩
      simp only [outcome] at hu
      simp only [outcome, Grammar.run, h, hu]
  | altFirst =>
      refine .inr (.inr ⟨_, .altSecond hu, rfl, ?_⟩)
      simp only [outcome, Grammar.run] at hu ⊢
      rw [hu]
  | altSecond h =>
      refine .inl ⟨a, ?_⟩
      simp only [outcome] at hu
      simp only [outcome, Grammar.run, h, hu]
  | @opt n c e s | @many n c e s | @notAhead n c e s =>
      refine .inr (.inl ⟨{ s with attempts := a }, ?_, rfl⟩)
      simp only [outcome, Grammar.run] at hu ⊢
      rw [hu]
  | @again n c e s =>
      refine .inr (.inl ⟨{ s with attempts := a }, ?_, (stack_skip s c g.blank).symm⟩)
      simp only [outcome, Grammar.run] at hu ⊢
      rw [hu]
  | manyAgain h | againAgain h =>
      refine .inl ⟨a, ?_⟩
      simp only [outcome] at hu
      simp only [outcome, Grammar.run, h, hu]
  | silent hkind =>
      refine .inl ⟨a, ?_⟩
      simp only [outcome, Grammar.run] at hu ⊢
      rw [hkind, hu]
  | pair hkind hleaves =>
      simp only [outcome] at hu
      simp only [outcome, Grammar.run, hleaves, if_true, hu]
      exact .inl ⟨_, rfl⟩
  | hidden hkind hleaves =>
      simp only [outcome] at hu
      simp only [outcome, Grammar.run, hleaves, Bool.false_eq_true, if_false, hu]
      exact .inl ⟨_, rfl⟩

section Depth

variable {solid : ρ → Bool} {rank : ρ → Nat} {bound : Nat}

/-- Each run that another one begins needs less. -/
theorem needs_less (hg : Bounded g solid rank bound) (h : TransGen (Calls g) t u)
    (ht : t.expr.tame solid rank bound) :
    u.expr.tame solid rank bound ∧ bound * u.state.rest.length + u.expr.height solid rank <
      bound * t.state.rest.length + t.expr.height solid rank := by
  induction h with
  | single h => exact h.enters.needs_less hg ht
  | tail _ h ih =>
      obtain ⟨hu, hlt⟩ := ih
      obtain ⟨hv, hless⟩ := h.enters.needs_less hg hu
      exact ⟨hv, Nat.lt_trans hless hlt⟩

/-- Before a rule is tried again during a match of itself, a character has been consumed. -/
theorem rest_lt_of_again (hg : Bounded g solid rank bound) (h : TransGen (Calls g) t u) {r : ρ}
    (ht : t.expr = .call r) (hu : u.expr = .call r) : u.state.rest.length < t.state.rest.length := by
  obtain ⟨_, hlt⟩ := needs_less hg h (by rw [ht]; rfl)
  rw [ht, hu] at hlt
  exact Nat.lt_of_mul_lt_mul_left (a := bound) (by omega)

end Depth

end Trial

end LiquidTemplate.Peg
