import Mathlib.Data.List.Chain
import LiquidTemplate.Proofs.Rule.Delimiters

namespace LiquidTemplate

open Text
open Peg Peg.Expr Rule

def isElementNameChar (x : Char) : Bool := x.isAlphanum || x == '-' || x == '_' || x == ':' || x == '.'

variable {c : Context} {s t : State Rule} {text : List Char} {p : Pair Rule}

theorem takes_nameChar (h : Derives grammar c (call nameChar) s t) :
    ∃ x, s.Takes t [x] [] ∧ isElementNameChar x := by
  cases h with
  | silent _ h => exact h.takes_test rfl
  | pair hkind | hidden hkind => exact absurd rfl hkind

/-- A text in a name is of characters of names, and none follows it. -/
theorem takes_nameRun (hc : c.atomicity ≠ .spaced) (h : Derives grammar c (plus (call nameChar)) s t) :
    ∃ v, s.Takes t v [] ∧ v ≠ [] ∧ (∀ x ∈ v, isElementNameChar x) ∧
      ∀ x ∈ t.rest.head?, isElementNameChar x = false := by
  have hround : ∀ {s t}, Derives grammar c (call nameChar) s t →
      ∃ w, s.Takes t w [] ∧ w ≠ [] ∧ ∀ x ∈ w, isElementNameChar x := by
    intro s t h
    obtain ⟨x, hx, hchar⟩ := takes_nameChar h
    exact ⟨[x], hx, by simp, by simpa using hchar⟩
  obtain ⟨w, ws, hws, ⟨hne, hw⟩, hrounds⟩ := h.takes_plus hc hround
  refine ⟨w ++ ws.flatten, hws, by simp [hne], ?_, ?_⟩
  · refine List.forall_mem_append.mpr ⟨hw, ?_⟩
    intro x hx
    obtain ⟨w', hw', hx⟩ := List.mem_flatten.mp hx
    exact (hrounds w' hw').2 x hx
  · obtain ⟨u, _, hmore⟩ := h.seq_meets hc
    obtain ⟨t', r, hfails, hrest⟩ := hmore.many_fails hc
    intro x hx
    obtain ⟨rest, heq⟩ := List.head?_eq_some_iff.mp hx
    exact (hfails.silent rfl).not_test rfl (hrest.trans heq)

theorem nameText_chars (h : Grown grammar text p) (hp : p.rule = .nameText) :
    p.text ≠ [] ∧ ∀ x ∈ p.text, isElementNameChar x := by
  cases h with
  | @mk c s t rule _ _ _ _ h _ =>
      cases hp
      obtain ⟨v, hv, hne, hchars, _⟩ := takes_nameRun Atomicity.noConfusion h
      rw [← hv.consumed_eq] at hne hchars
      exact ⟨hne, hchars⟩

/-- A part of a name is an output, or a text where a character of names stands and that none follows. -/
theorem takes_namePart (hc : c.leavesPair) (h : Derives grammar c (call liquidDrop ||| call Rule.nameText) s t) :
    ∃ q, s.Takes t q.text [q] ∧ (q.rule = .liquidDrop ∨
      (∃ x ∈ s.rest.head?, isElementNameChar x) ∧ ∀ x ∈ t.rest.head?, isElementNameChar x = false) := by
  cases h with
  | first h =>
      obtain ⟨q, hq, hrule, _⟩ := h.takes_call Kind.noConfusion hc
      exact ⟨q, hq, .inl hrule⟩
  | second _ h =>
      obtain ⟨q, hq, _⟩ := h.takes_call Kind.noConfusion hc
      obtain ⟨s', t', h, hs', ht'⟩ := h.call_body
      obtain ⟨v, hv, hne, hchars, hend⟩ := takes_nameRun Atomicity.noConfusion h
      obtain ⟨x, v, rfl⟩ := List.exists_cons_of_ne_nil hne
      refine ⟨q, ⟨hq.rest_eq, hq.offset_eq, hq.pairs_eq⟩, .inr ⟨⟨x, ?_, hchars x (by simp)⟩, ht' ▸ hend⟩⟩
      change s.rest.head? = some x
      rw [← show s'.rest = s.rest from hs', hv.rest_eq]
      rfl

def TextsApart (q q' : Pair Rule) : Prop := q.rule = .liquidDrop ∨ q'.rule = .liquidDrop

/-- What the parts of a name can be from the rest of a text on: no two texts are side by side, and no text is
first where no character of names stands. -/
structure NameParts (rest : List Char) (ps : List (Pair Rule)) : Prop where
  apart : ps.IsChain TextsApart
  head : (∀ x ∈ rest.head?, isElementNameChar x = false) → ∀ q ∈ ps.head?, q.rule = .liquidDrop

theorem NameParts.cons {ps : List (Pair Rule)} (hps : NameParts t.rest ps) (hc : c.leavesPair)
    (h : Derives grammar c (call liquidDrop ||| call Rule.nameText) s t) :
    ∃ q, s.Takes t q.text [q] ∧ NameParts s.rest (q :: ps) := by
  obtain ⟨q, hq, hpart⟩ := takes_namePart hc h
  refine ⟨q, hq, List.isChain_cons.mpr ⟨?_, hps.apart⟩, ?_⟩
  · intro q' hq'
    rcases hpart with hrule | ⟨_, hend⟩
    · exact .inl hrule
    · exact .inr (hps.head hend q' hq')
  · rintro hnone q' ⟨⟩
    rcases hpart with hrule | ⟨⟨x, hx, hchar⟩, _⟩
    · exact hrule
    · rw [hnone x hx] at hchar
      cases hchar

/-- In a name, one of two parts that are side by side is an output. -/
theorem htmlName_apart (h : Grown grammar text p) (hp : p.rule = .htmlName) : p.children.IsChain TextsApart := by
  obtain ⟨c, s, t, hc, _, _, h, htakes⟩ := h.derives (by rw [hp]; rfl)
  rw [hp] at hc h
  have hc' : (c.inside (grammar.kind htmlName)).atomicity ≠ .spaced := Atomicity.noConfusion
  obtain ⟨u, hfirst, hmore⟩ := h.seq_meets hc'
  -- the rounds are followed from the last one on, since what comes after a text decides where it ends
  have hrounds : ∃ w ps, u.Takes t w ps ∧ NameParts u.rest ps := by
    refine hmore.many_induct (P := fun s t => ∃ w ps, s.Takes t w ps ∧ NameParts s.rest ps) ?_ ?_
    · intro s s' r _ _
      exact ⟨[], [], .idle r, .nil, by simp⟩
    · rintro s s' t u hs hround ⟨w, ps, hw, hps⟩
      rw [State.skip_of_ne_spaced _ _ hc', or_self] at hs
      subst hs
      obtain ⟨q, hq, hps⟩ := hps.cons hc hround
      exact ⟨q.text ++ w, q :: ps, hq.trans hw, hps⟩
  obtain ⟨w, ps, hw, hps⟩ := hrounds
  obtain ⟨q, hq, hps⟩ := hps.cons hc hfirst
  rw [(htakes.unique (hq.trans hw)).2]
  exact hps.apart

end LiquidTemplate
