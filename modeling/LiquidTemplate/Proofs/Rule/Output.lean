import LiquidTemplate.Proofs.Rule.Dash

namespace LiquidTemplate

open Text
open Peg Peg.Expr Rule

variable {c : Context} {s t : State Rule} {rest : List Char} {text : List Char} {p : Pair Rule}

def Hollow (word : List Char) : Prop :=
  ∃ before after blanks, (∀ x ∈ blanks, x ∈ spaceLetters) ∧
    word = ['{', '{'] ++ dash before ++ blanks ++ dash after ++ ['}', '}']

theorem rest_strip {r : Rule} (hbody : grammar.body r = lit "-") (h : Derives grammar c (.opt (.call r)) s t) :
    s.rest = '-' :: t.rest ∨ (t.rest = s.rest ∧ ∀ more, s.rest ≠ '-' :: more) := by
  cases h with
  | present h =>
      obtain ⟨s', t', h, hs', ht'⟩ := h.call_body
      rw [hbody] at h
      have heq := h.takes_word.rest_eq
      rw [hs', ht'] at heq
      exact .inl heq
  | absent h =>
      obtain ⟨s', r', h, hs'⟩ := h.call
      rw [hbody] at h
      exact .inr ⟨rfl, fun more hs => h.not_word more (hs'.trans hs)⟩

/-- The markup of an output does not start where the output ends. -/
theorem not_closed_markup {b : Bool} (h : Derives grammar c (call dropMarkup) s t) :
    s.rest ≠ dash b ++ ['}', '}'] ++ rest := by
  obtain ⟨s₁, t₁, h, hs₁, _⟩ := h.call_body
  obtain ⟨u₁, _, _, h, _⟩ := h.seq_takes
  obtain ⟨s₂, t₂, h, hs₂, _⟩ := h.call_body
  obtain ⟨u₂, _, _, h, _⟩ := h.seq_takes
  obtain ⟨u₃, _, _, h, _⟩ := h.seq_takes
  cases h with
  | notAhead hfails =>
      obtain ⟨_, hfails, hplain⟩ := hfails.alt
      obtain ⟨_, _, hdashed⟩ := hfails.alt
      intro hs
      cases b with
      | false => exact hplain.not_word rest (hs₂.trans (hs₁.trans hs))
      | true => exact hdashed.not_word rest (hs₂.trans (hs₁.trans hs))

/-- After the dash and the blanks of an output without markup comes its end. -/
theorem rest_hollow {u v : State Rule} {before after : Bool} {blanks : List Char} (hc : c.atomicity ≠ .spaced)
    (hblanks : ∀ x ∈ blanks, x ∈ spaceLetters) (hstrip : Derives grammar c (opt (call stripStart)) s u)
    (hspaces : Derives grammar c spaces u v)
    (hs : s.rest = dash before ++ blanks ++ dash after ++ ['}', '}'] ++ rest) :
    ∃ b, v.rest = dash b ++ ['}', '}'] ++ rest := by
  have hu : ∃ blanks b, (∀ x ∈ blanks, x ∈ spaceLetters) ∧
      u.rest = blanks ++ (dash b ++ ['}', '}'] ++ rest) := by
    rcases rest_strip rfl hstrip with hdash | ⟨hsame, hno⟩
    · rw [hs] at hdash
      cases before with
      | true => exact ⟨blanks, after, hblanks, by simpa [dash] using (List.cons.inj hdash).2.symm⟩
      | false =>
          cases blanks with
          | cons x blanks =>
              have hx : x = '-' := (List.cons.inj hdash).1
              exact absurd (hblanks x (by simp)) (by rw [hx]; decide)
          | nil =>
              cases after with
              | true => exact ⟨[], false, by simp, (List.cons.inj hdash).2.symm⟩
              | false => exact absurd (List.cons.inj hdash).1 (by decide)
    · cases before with
      | true => exact absurd hs (hno _)
      | false => exact ⟨blanks, after, hblanks, by rw [hsame, hs]; simp [dash]⟩
  obtain ⟨blanks, b, hblanks, hu⟩ := hu
  refine ⟨b, (takes_spaces_eq hc hblanks ?_ hspaces hu).rest_of hu⟩
  cases b <;> (rintro x ⟨⟩; decide)

/-- An output is hollow just if it has no markup. -/
theorem hollow_iff (h : Grown grammar text p) (hp : p.rule = .liquidDrop) :
    Hollow p.text ↔ ∀ q ∈ p.children, q.rule ≠ .dropMarkup := by
  obtain ⟨c, s, t, hc, _, _, h, htakes⟩ := h.derives (by rw [hp]; rfl)
  rw [hp] at hc h
  have hc' : (c.inside (grammar.kind liquidDrop)).atomicity ≠ .spaced := Atomicity.noConfusion
  obtain ⟨s₆, h, hstop⟩ := h.seq_meets hc'
  obtain ⟨s₅, h, hstripEnd⟩ := h.seq_meets hc'
  obtain ⟨s₄, h, hafter⟩ := h.seq_meets hc'
  obtain ⟨s₃, h, hmarkup⟩ := h.seq_meets hc'
  obtain ⟨b₁, v, ps₁, hlead, hps₁, hv, _⟩ := takes_lead ['{', '{'] hc hc' h
  obtain ⟨b₂, w, ps₂, htrail, hps₂, hw⟩ := takes_trail ['}', '}'] hc hc' hafter hstripEnd hstop
  obtain ⟨s₂, h, hbefore⟩ := h.seq_meets hc'
  obtain ⟨s₁, hstart, hstripStart⟩ := h.seq_meets hc'
  rcases hmarkup.takes_opt with hmarkup | hnone
  · obtain ⟨m, hm', hm, _⟩ := hmarkup.takes_call (by decide) hc
    obtain ⟨_, hchildren⟩ := htakes.unique ((hlead.trans hm').trans htrail)
    constructor
    -- a hollow output would end where its markup has to start
    · rintro ⟨before, after, blanks, hblanks, htext⟩
      have hs := htakes.rest_eq
      rw [htext] at hs
      simp only [List.append_assoc] at hs
      have hs₁ := hstart.takes_word.rest_of hs
      obtain ⟨b, hs₃⟩ : ∃ b, s₃.rest = dash b ++ ['}', '}'] ++ t.rest :=
        rest_hollow hc' hblanks hstripStart hbefore (by simpa only [List.append_assoc] using hs₁)
      exact absurd hs₃ (not_closed_markup hmarkup)
    · intro hno
      exact absurd hm (hno m (by simp [hchildren]))
  · obtain ⟨htext, hchildren⟩ := htakes.unique ((hlead.trans hnone).trans htrail)
    constructor
    · intro _ q hq
      have hrule : q.rule ∈ ps₁.map Pair.rule ++ ps₂.map Pair.rule := by
        rw [← List.map_append]
        exact List.mem_map_of_mem (by simpa [hchildren] using hq)
      rw [hps₁, hps₂] at hrule
      rintro heq
      rw [heq] at hrule
      revert hrule
      cases b₁ <;> cases b₂ <;> decide
    · intro _
      refine ⟨b₁, b₂, v ++ w, List.forall_mem_append.mpr ⟨hv, hw⟩, ?_⟩
      rw [htext]
      simp

end LiquidTemplate
