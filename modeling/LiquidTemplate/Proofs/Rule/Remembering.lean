import LiquidTemplate.Proofs.Peg.Opening
import LiquidTemplate.Proofs.Rule.Totality

namespace LiquidTemplate

open Relation
open Peg Peg.Expr Peg.Trial Rule

namespace Rule

def entryRules : List Rule :=
  [liquidHtmlDocument, liquidDocument, liquidTagContents, liquidDocContents, markupVariable, markupCondition,
    markupAssign, markupVariableName, markupCase, markupWhen, markupFor, markupCycle, markupRender, markupPaginate,
    markupContentFor, markupForm, markupLayout, markupString]

def rawElementOpening : Expr Rule :=
  lit "<" ++ push (call htmlRawName) ++ call attrList ++ spaces ++ lit ">"

theorem needs_of_mem_entryRules {r : Rule} (hr : r ∈ entryRules) : r.needs = 0 := by
  revert r
  decide

theorem of_asks_rawBody {r : Rule} (h : (grammar.body r).asks rawBody) : r = liquidRawTag := by
  revert h
  cases r <;> decide

theorem of_asks_rawTagClose {r : Rule} (h : (grammar.body r).asks rawTagClose) : r = liquidRawTag := by
  revert h
  cases r <;> decide

theorem of_asks_htmlRawBody {r : Rule} (h : (grammar.body r).asks htmlRawBody) : r = htmlRawTag := by
  revert h
  cases r <;> decide

theorem pushes_rawTagOpen : (grammar.body rawTagOpen).pushes needs leaves rawTagName := by
  decide

theorem pushes_rawElementOpening : rawElementOpening.pushes needs leaves htmlRawName := by
  decide

end Rule

/-- At the run `u`, which is begun during `start`, the text remembered last is the name that was pushed by
the opening of the construct around it. -/
def Named (start : Trial Rule) (construct : Rule) (opening : Expr Rule) (name : Rule) (u : Trial Rule) : Prop :=
  ∃ v w t written, Tried grammar start v ∧ v.expr = .call construct ∧ Tried grammar v u ∧
    Tried grammar v w ∧ w.expr = opening ∧ w.state.offset = v.state.offset ∧ w.state.stack = v.state.stack ∧
    w.outcome grammar = .matched t ∧ t.offset ≤ u.state.offset ∧
    Pushes grammar name w t written ∧ u.state.stack = written :: v.state.stack

/-- The body of a raw tag asks for the name that is remembered, and leaves it remembered. -/
theorem stack_rawBody {c : Context} {s t : State Rule} (h : Derives grammar c (.call rawBody) s t) :
    t.stack = s.stack := by
  obtain ⟨_, s', t', h, hs, ht⟩ := h.call_stack
  rw [← ht, ← hs]
  exact h.stack_until0

section Constructs

variable {start u : Trial Rule} {r₀ : Rule}

/-- A rule that only one other rule asks for is tried by that one's body. -/
theorem tried_body {r construct : Rule} (hstart : start.expr = .call r₀) (hne : r₀ ≠ r)
    (hasks : ∀ {q}, (grammar.body q).asks r → q = construct) (h : Tried grammar start u) (hu : u.expr = .call r) :
    ∃ v w, Tried grammar start v ∧ v.expr = .call construct ∧ Calls grammar v w ∧ Within grammar w u ∧
      w.expr = grammar.body construct ∧ w.state.offset = v.state.offset ∧ w.state.stack = v.state.stack := by
  rcases h.split with hin | ⟨v, w, q, hv, hq, hcalls, hin⟩
  · rw [hin.of_call hstart, hstart] at hu
    cases hu
    exact absurd rfl hne
  · obtain ⟨hw, hoffset, hstack⟩ := hcalls.of_call hq
    have hbody := hin.asks hu
    rw [hw] at hbody
    obtain rfl := hasks hbody
    exact ⟨v, w, hv, hq, hcalls, hin, hw, hoffset, hstack⟩

/-- What follows on the opening of a raw tag finds the name on top that the opening pushed. -/
theorem named_of_rawTagOpen {v w : Trial Rule} {n : Nat} {c : Context} {s t : State Rule}
    (hv : Tried grammar start v) (hconstruct : v.expr = .call liquidRawTag) (hu : Tried grammar v u)
    (hw : Tried grammar v w) (hexpr : w = ⟨n, c, .call rawTagOpen, s⟩) (hoffset : s.offset = v.state.offset)
    (hstack : s.stack = v.state.stack) (hrun : grammar.run n c (.call rawTagOpen) s = .matched t)
    (hlo : t.offset ≤ u.state.offset) (hsame : u.state.stack = t.stack) :
    Named start liquidRawTag (.call rawTagOpen) rawTagName u := by
  subst hexpr
  obtain ⟨written, hpushes⟩ := pushes_of_matched_call balanced_grammar pushes_rawTagOpen hrun
  refine ⟨v, _, t, written, hv, hconstruct, hu, hw, rfl, hoffset, hstack, hrun, hlo, hpushes, ?_⟩
  rw [hsame, hpushes.stack_eq]
  exact congrArg (written :: ·) hstack

theorem named_rawBody (hstart : start.expr = .call r₀) (hne : r₀ ≠ rawBody) (h : Tried grammar start u)
    (hu : u.expr = .call rawBody) : Named start liquidRawTag (.call rawTagOpen) rawTagName u := by
  obtain ⟨v, ⟨n, c, e, s⟩, hv, hconstruct, hcalls, hin, rfl, hoffset, hstack⟩ :=
    tried_body hstart hne of_asks_rawBody h hu
  have htried := hin.tried.head hcalls
  obtain ⟨n, rfl, hparts⟩ := Within.first (a := call rawTagOpen ++ call rawBody) hin hu rfl
  obtain ⟨n, t, rfl, hrun, hlast⟩ := Within.second (a := call rawTagOpen) (b := call rawBody) hparts hu rfl
  rw [hlast.of_call rfl] at htried ⊢
  refine named_of_rawTagOpen hv hconstruct htried ?_ rfl hoffset hstack hrun (State.reaches_skip _ _ _).le
    (State.stack_skip _ _ _)
  exact ((ReflTransGen.single hcalls).tail .seqFirst).tail .seqFirst

theorem named_rawTagClose (hstart : start.expr = .call r₀) (hne : r₀ ≠ rawTagClose) (h : Tried grammar start u)
    (hu : u.expr = .call rawTagClose) : Named start liquidRawTag (.call rawTagOpen) rawTagName u := by
  obtain ⟨v, ⟨n, c, e, s⟩, hv, hconstruct, hcalls, hin, rfl, hoffset, hstack⟩ :=
    tried_body hstart hne of_asks_rawTagClose h hu
  have htried := hin.tried.head hcalls
  obtain ⟨n, t₂, rfl, hparts, hlast⟩ := Within.second (a := call rawTagOpen ++ call rawBody) hin hu rfl
  obtain ⟨n, t₁, rfl, hrun, hbody⟩ := matched_seq hparts
  rw [hlast.of_call rfl] at htried ⊢
  -- the body is a run of letters, so it leaves the name where the opening put it
  have hbody := Derives.of_run hbody
  refine named_of_rawTagOpen hv hconstruct htried ?_ rfl hoffset hstack hrun ?_ ?_
  · exact ((ReflTransGen.single hcalls).tail .seqFirst).tail .seqFirst
  · exact (((State.reaches_skip t₁ c grammar.blank).trans hbody.reaches).trans (State.reaches_skip t₂ c _)).le
  · rw [State.stack_skip, stack_rawBody hbody, State.stack_skip]

theorem named_htmlRawBody (hstart : start.expr = .call r₀) (hne : r₀ ≠ htmlRawBody) (h : Tried grammar start u)
    (hu : u.expr = .call htmlRawBody) : Named start htmlRawTag rawElementOpening htmlRawName u := by
  obtain ⟨v, ⟨n, c, e, s⟩, hv, hconstruct, hcalls, hin, rfl, hoffset, hstack⟩ :=
    tried_body hstart hne of_asks_htmlRawBody h hu
  have htried := hin.tried.head hcalls
  obtain ⟨n, rfl, h₁⟩ := Within.first (b := lit ">") hin hu rfl
  obtain ⟨n, rfl, h₂⟩ := Within.first (b := spaces) h₁ hu rfl
  obtain ⟨n, rfl, h₃⟩ := Within.first (b := pop) h₂ hu rfl
  obtain ⟨n, rfl, h₄⟩ := Within.first (b := lit "</") h₃ hu rfl
  obtain ⟨n, t, rfl, hrun, hlast⟩ := Within.second (a := rawElementOpening) (b := call htmlRawBody) h₄ hu (by decide)
  rw [hlast.of_call rfl] at htried ⊢
  obtain ⟨written, hpushes⟩ := pushes_of_matched balanced_grammar pushes_rawElementOpening hrun
  refine ⟨v, ⟨n, c, rawElementOpening, s⟩, t, written, hv, hconstruct, htried, ?_, rfl, hoffset, hstack, hrun,
    (State.reaches_skip _ _ _).le, hpushes, ?_⟩
  · exact (((((ReflTransGen.single hcalls).tail .seqFirst).tail .seqFirst).tail .seqFirst).tail .seqFirst).tail
      .seqFirst
  · rw [State.stack_skip, hpushes.stack_eq]
    exact congrArg (written :: ·) hstack

end Constructs

/-- Remembered names are kept in order during the run: none is asked for where there is none, what is matched
whole or not at all keeps those that there are, and in a raw construct it is that of its opening. -/
structure KeepsNames (start : Trial Rule) : Prop where
  supplied : ∀ u, Tried grammar start u → u.expr = .top ∨ u.expr = .pop → u.state.stack ≠ []
  matched : ∀ u t, Tried grammar start u →
    u.expr = .call htmlNode ∨ u.expr = .call liquidNode ∨ u.expr = .call attrItem →
    u.outcome grammar = .matched t → t.stack = u.state.stack
  failed : ∀ v u a, Tried grammar start v → Calls grammar v u →
    u.expr = .call htmlNode ∨ u.expr = .call liquidNode ∨ u.expr = .call attrItem →
    u.outcome grammar = .failed a →
      (∃ a, v.outcome grammar = .failed a) ∨
      (∃ t, v.outcome grammar = .matched t ∧ t.stack = u.state.stack) ∨
      ∃ w, Calls grammar v w ∧ w.state.stack = u.state.stack ∧ v.outcome grammar = w.outcome grammar
  rawTag : ∀ u, Tried grammar start u → u.expr = .call rawBody ∨ u.expr = .call rawTagClose →
    Named start liquidRawTag (.call rawTagOpen) rawTagName u
  rawElement : ∀ u, Tried grammar start u → u.expr = .call htmlRawBody →
    Named start htmlRawTag rawElementOpening htmlRawName u

theorem keepsNames_whole {r : Rule} (hr : r ∈ entryRules) (text : List Char) :
    (∀ f, grammar.parse r text ≠ .error (.fault f)) ∧ KeepsNames (.whole r text) := by
  have hneeds := needs_of_mem_entryRules hr
  have hne : r ≠ rawBody ∧ r ≠ rawTagClose ∧ r ≠ htmlRawBody := by
    refine ⟨?_, ?_, ?_⟩ <;>
    · rintro rfl
      cases hneeds
  refine ⟨parse_ne_fault hneeds text, ?_, ?_, ?_, ?_, ?_⟩
  · intro u h hu
    have hsupplied : u.expr.Supplied needs leaves u.state := by
      refine h.keeps (Enters.supplied balanced_grammar) ⟨0, r.leaves, ?_, Nat.zero_le _⟩
      simp [Trial.whole, Expr.remembers, hneeds]
    obtain ⟨k, l, hremembers, hk⟩ := hsupplied
    intro hstack
    rw [hstack, List.length_nil] at hk
    rcases hu with hu | hu <;> rw [hu] at hremembers <;>
      simp only [Expr.remembers, Option.ite_none_right_eq_some] at hremembers <;> omega
  · rintro ⟨n, c, e, s⟩ t _ hu hrun
    rcases hu with rfl | rfl | rfl <;> exact stack_eq rfl (.of_run hrun)
  · exact fun v u a _ hcalls _ hrun => hcalls.resumes hrun
  · rintro u h (hu | hu)
    · exact named_rawBody rfl hne.1 h hu
    · exact named_rawTagClose rfl hne.2.1 h hu
  · exact fun u h hu => named_htmlRawBody rfl hne.2.2 h hu

def rawInRaw : List Char := "<style \x7b% raw %\x7d</style>\x7b% endraw %\x7d>b</style>".toList

theorem keepsNames_rawInRaw : liquidHtmlDocument ∈ entryRules ∧
    (grammar.parse liquidHtmlDocument rawInRaw).toOption.map (fun ps =>
      ((Pair.flattenAll ps).map (·.rule)).filter ([rawBody, rawTagClose, htmlRawBody].contains ·)) =
        some [rawBody, rawTagClose, htmlRawBody] ∧
    KeepsNames (.whole liquidHtmlDocument rawInRaw) := by
  have hstart : liquidHtmlDocument ∈ entryRules := by decide
  exact ⟨hstart, by decide +kernel, (keepsNames_whole hstart rawInRaw).2⟩

end LiquidTemplate
