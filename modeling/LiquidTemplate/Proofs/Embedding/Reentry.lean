import LiquidTemplate.Proofs.Embedding.Depth
import LiquidTemplate.Proofs.Fallback.Reading
import LiquidTemplate.Proofs.Nesting.Blame
import LiquidTemplate.Proofs.Rule.Termination

namespace LiquidTemplate

open Relation
open Peg Peg.Trial Rule

namespace Token

def readOnce (reenter : ReadText) : ReadText := fun region entry source =>
  match grammar.parse entry.startRule source with
  | .error mismatch => .error (.ofMismatch region.offset mismatch)
  | .ok pairs =>
    ((pairs.flatMap (·.children)).filter (·.rule != .endOfInput)).mapM (ofPair reenter region)

variable {reenter reenter' : ReadText} {region : Region} {entry : Entry} {text : List Char}

theorem readWithin_succ (depth : Nat) : readWithin (depth + 1) = readOnce (readWithin depth) := rfl

/-- Reading enters only texts that are shorter. -/
theorem readOnce_congr (h : Agree text reenter reenter') :
    readOnce reenter region entry text = readOnce reenter' region entry text := by
  unfold readOnce
  split
  · rfl
  · rename_i pairs hparse
    have hgrown := (Grammar.grown_parse hparse).1
    apply mapM_congr
    intro q hq
    obtain ⟨p, hp, hq⟩ := List.mem_flatMap.mp (List.mem_filter.mp hq).1
    exact ofPair_congr h ((hgrown p hp).children q hq)

/-- Reading needs no depth to be given: it reads the texts inside a text as it reads the text. -/
theorem read_eq_readOnce (region : Region) (entry : Entry) (text : List Char) :
    read region entry text = readOnce read region entry text := by
  rw [read, readWithin_succ]
  apply readOnce_congr
  intro region entry part hpart
  exact readWithin_eq_read hpart

/-- There is one reader that reads the texts inside a text as it reads the text. -/
theorem eq_read_iff {f : ReadText} :
    (∀ region entry text, f region entry text = readOnce f region entry text) ↔ f = read := by
  constructor
  · intro hf
    have hagree : ∀ n region entry (text : List Char), text.length < n →
        f region entry text = read region entry text := by
      intro n
      induction n with
      | zero =>
          intro region entry text hn
          cases hn
      | succ n ih =>
          intro region entry text hn
          rw [hf, read_eq_readOnce]
          apply readOnce_congr
          intro region entry part hpart
          exact ih region entry part (by omega)
    funext region entry text
    exact hagree _ region entry text (Nat.lt_succ_self _)
  · rintro rfl
    exact read_eq_readOnce

end Token

namespace Nesting

variable {b : Nesting} {o : Options} {cause : Unreadable} {span : Span}

theorem misclosed_ne_unreadable (container : Container) (name : String) (at_ : Span) :
    b.misclosed container name at_ ≠ .unreadable cause span := by
  unfold misclosed
  split <;> nofun

theorem openFrame_ne_unreadable (f : Frame) (at_ : Span) : b.openFrame f at_ ≠ .error (.unreadable cause span) := by
  unfold openFrame
  split <;> nofun

theorem step_ne_unreadable (mode : Mode) (item : Item) : b.step mode item ≠ .error (.unreadable cause span) := by
  intro h
  cases item with
  | leaf node => cases h
  | openElement name attributes at_ => exact openFrame_ne_unreadable _ _ h
  | closeElement name at_ =>
      simp only [step, closeElement] at h
      split at h
      · exact misclosed_ne_unreadable _ _ _ (Except.error.inj h)
      · split at h
        · cases h
        · split at h
          · cases h
          · exact misclosed_ne_unreadable _ _ _ (Except.error.inj h)
  | openTag head =>
      simp only [step, openTag] at h
      split at h
      · split at h
        · cases h
        · exact openFrame_ne_unreadable _ _ h
      · exact openFrame_ne_unreadable _ _ h
  | openBranch name head =>
      simp only [step, openBranch] at h
      split at h <;> cases h
  | closeTag close =>
      simp only [step, closeTag] at h
      split at h
      · split at h
        · cases h
        · exact misclosed_ne_unreadable _ _ _ (Except.error.inj h)
      · exact misclosed_ne_unreadable _ _ _ (Except.error.inj h)

theorem finish_ne_unreadable (stop : Nat) : b.finish o stop ≠ .error (.unreadable cause span) := by
  unfold finish
  split
  · nofun
  · split <;> nofun

end Nesting

/-- Nesting reports only what is nested wrongly. -/
theorem Node.ofTokens_ne_unreadable {o : Options} {stop : Nat} {ts : List Token} {cause : Unreadable}
    {span : Span} : Node.ofTokens o stop ts ≠ .error (.unreadable cause span) := by
  intro h
  obtain ⟨_, _, _, hfails⟩ := Nesting.failsAfter_of_error h
  cases hfails with
  | step _ _ hstep => exact Nesting.step_ne_unreadable _ _ hstep
  | finish _ hfinish => exact Nesting.finish_ne_unreadable _ hfinish

namespace Document

open Token

/-- Parsing comes to an end on every text.  A match of a rule does with any budget that covers the text: each
round of a repetition consumes a character, and so does a rule before it is tried again during a match of
itself.  Reading enters only texts that are shorter, so it is determined by itself without a depth, and
no error says that a budget was too small. -/
theorem terminates :
    (∀ (r : Rule) (c : Context) (s : State Rule), ∃ o, o ≠ .fault .exhausted ∧
      ∀ n, Grammar.depthPerChar * (s.rest.length + 1) ≤ n → grammar.run n c (.call r) s = o) ∧
    (∀ (r : Rule), ∀ a ∈ (grammar.body r).rounds, ∀ n c s t, grammar.run n c a s = .matched t →
      t.rest.length < s.rest.length) ∧
    (∀ (r : Rule) (t u : Trial Rule), t.expr = .call r → u.expr = .call r → TransGen (Calls grammar) t u →
      u.state.rest.length < t.state.rest.length) ∧
    (∀ reenter reenter' text, Agree text reenter reenter' → ∀ region entry,
      readOnce reenter region entry text = readOnce reenter' region entry text) ∧
    (∀ f : ReadText, (∀ region entry text, f region entry text = readOnce f region entry text) ↔ f = read) ∧
    (∀ region entry text e, read region entry text = .error e → e.Syntactic) ∧
    ∀ o entry source e, parse o entry source = .error e → e.Syntactic ∨ ∃ cause span, e = .misnested cause span := by
  refine ⟨run_settles, fun r a ha n c s t h => rest_lt_of_round ha h,
    fun r t u ht hu h => rest_lt_of_again bounded_grammar h ht hu,
    fun reenter reenter' text h region entry => readOnce_congr h, fun f => eq_read_iff, syntactic_read, ?_⟩
  intro o entry source e h
  rcases error_of_bind h with h | ⟨ts, _, h⟩
  · exact .inl (syntactic_read _ _ _ _ h)
  rcases error_of_bind h with h | ⟨children, _, h⟩
  · cases e with
    | unreadable cause span => exact absurd h Node.ofTokens_ne_unreadable
    | misnested cause span => exact .inr ⟨cause, span, rfl⟩
  · cases h

def nestedLookup : List Char := "[[a]]".toList

theorem terminates_nestedLookup :
    (∃ u, TransGen (Calls grammar) (.whole bracketLookup nestedLookup) u ∧ u.expr = .call bracketLookup ∧
      u.state.rest = "[a]]".toList ∧ u.state.rest.length < nestedLookup.length) ∧
    ∃ e, parse {} .liquidHtml "\x7b% if a %\x7d" = .error e ∧
      (e.Syntactic ∨ ∃ cause span, e = .misnested cause span) := by
  constructor
  · have hbody := TransGen.single (Calls.pair (g := grammar) (n := 383) (c := .top) (r := bracketLookup)
      (s := Grammar.initial nestedLookup) (by decide) (by decide))
    have hopening := (hbody.tail .seqFirst).tail (.seqSecond rfl)
    have hlookup := (hopening.tail (.silent rfl)).tail (.altSecond rfl)
    have hagain := ((hlookup.tail (.pair (by decide) (by decide))).tail .seqFirst).tail (.altSecond rfl)
    exact ⟨_, hagain, rfl, rfl, terminates.2.2.1 bracketLookup _ _ rfl rfl hagain⟩
  · have hfails : (parse {} .liquidHtml "\x7b% if a %\x7d").isOk = false := by decide +kernel
    cases h : parse {} .liquidHtml "\x7b% if a %\x7d" with
    | error e => exact ⟨e, rfl, terminates.2.2.2.2.2.2 _ _ _ e h⟩
    | ok d =>
        rw [h] at hfails
        cases hfails

end Document

end LiquidTemplate
