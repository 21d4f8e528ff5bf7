import LiquidTemplate.Proofs.Peg.Determinacy
import LiquidTemplate.Proofs.Peg.Parts
import LiquidTemplate.Proofs.Rule.Shape

namespace LiquidTemplate

open Peg Rule

namespace Rule

/-- How deep the body of a rule goes before it consumes a character. -/
def rank : Rule → Nat := grammar.rank solid 9

theorem height_body_le_rank (r : Rule) : (grammar.body r).height solid rank ≤ rank r := by
  change grammar.rank solid 10 r ≤ grammar.rank solid 9 r
  cases r <;> decide

theorem rank_lt (r : Rule) : rank r < Grammar.depthPerChar := by
  cases r <;> decide

theorem tame_body (r : Rule) : (grammar.body r).tame solid rank Grammar.depthPerChar := by
  cases r <;> decide +kernel

theorem bounded_grammar : Bounded grammar solid rank Grammar.depthPerChar :=
  ⟨by decide, eats_body, height_body_le_rank, tame_body⟩

/-- The remembered names that a rule needs: what stands in a raw construct needs that of its opening. -/
def needs : Rule → Nat
  | rawBody | rawCloseAhead | rawTagClose | htmlRawBody => 1
  | _ => 0

def leaves : Rule → Nat
  | rawTagOpen | rawBody | rawCloseAhead | htmlRawBody => 1
  | _ => 0

theorem balanced_grammar : Balanced grammar needs leaves := by
  intro r
  cases r <;> decide

end Rule

/-- What neither needs nor leaves remembered names keeps those that there are. -/
theorem stack_eq {e : Expr Rule} {c : Context} {s t : State Rule} (he : e.remembers needs leaves 0 = some 0)
    (h : Derives grammar c e s t) : t.stack = s.stack :=
  (h.swaps balanced_grammar he (Nat.zero_le _)).below

/-- Every text matches the rule or does not. -/
theorem parse_ne_fault {r : Rule} (hr : r.needs = 0) (text : List Char) (f : Fault) :
    grammar.parse r text ≠ .error (.fault f) :=
  Grammar.parse_ne_fault bounded_grammar balanced_grammar (rank_lt r) hr text f

/-- A rule that needs no remembered name matches or does not, everywhere. -/
theorem gives_call {r : Rule} (hr : r.needs = 0) (c : Context) (s : State Rule) :
    ∃ o, Gives grammar c (.call r) s o := by
  refine Grammar.gives_total bounded_grammar balanced_grammar c rfl ⟨0, r.leaves, ?_, Nat.zero_le _⟩
  simp [Expr.remembers, hr]

theorem gives_body {r : Rule} (hr : r.needs = 0) (c : Context) (s : State Rule) :
    ∃ o, Gives grammar c (grammar.body r) s o := by
  have hbalanced := balanced_grammar r
  rw [hr] at hbalanced
  exact Grammar.gives_total bounded_grammar balanced_grammar c (tame_body r) ⟨0, r.leaves, hbalanced, Nat.zero_le _⟩

/-- A rule that opens with a word fails where another text stands. -/
theorem gives_call_none {r : Rule} {w : List Char} {s : State Rule} (hr : r.needs = 0)
    (hopens : (grammar.body r).opens = some w) (c : Context) (hs : ∀ rest, s.rest ≠ w ++ rest) :
    Gives grammar c (.call r) s none := by
  obtain ⟨o, h⟩ := gives_call hr c s
  cases o with
  | none => exact h
  | some t =>
      obtain ⟨t', h, _⟩ := h.derives
      obtain ⟨s', u, h, hs', _⟩ := h.call_body
      obtain ⟨_, _, _, htakes, _⟩ := h.takes_opens hopens
      exact absurd (hs'.symm.trans htakes.rest_eq) (hs _)

/-- At the end of a text, what has to consume a character fails. -/
theorem gives_none_at_end {e : Expr Rule} {s : State Rule} {k : Nat} (he : e.eats solid)
    (htame : e.tame solid rank Grammar.depthPerChar) (hneeds : e.remembers needs leaves 0 = some k) (c : Context)
    (hs : s.rest = []) : Gives grammar c e s none := by
  obtain ⟨o, h⟩ := Grammar.gives_total (s := s) bounded_grammar balanced_grammar c htame ⟨0, k, hneeds, Nat.zero_le _⟩
  cases o with
  | none => exact h
  | some t =>
      obtain ⟨t', h, _⟩ := h.derives
      have hlt := h.reaches.length_lt (h.lt eats_body he)
      rw [hs] at hlt
      exact absurd hlt (Nat.not_lt_zero _)

end LiquidTemplate
