import LiquidTemplate.Proofs.Peg.Provenance

namespace LiquidTemplate.Peg

open State

variable {ρ : Type} {text : List Char} {s : State ρ}

structure State.Fit (text : List Char) (s : State ρ) : Prop where
  inText : s.In text
  farthest : s.attempts.offset ≤ Text.byteLength text

def Outcome.Fit (text : List Char) : Outcome ρ → Prop
  | matched t => t.Fit text
  | failed a => a.offset ≤ Text.byteLength text
  | fault _ => True

theorem Attempts.offset_record {a : Attempts ρ} {offset m : Nat} (before after : Surprises ρ)
    (ha : a.offset ≤ m) (hoffset : offset ≤ m) : (a.record offset before after).offset ≤ m := by
  unfold Attempts.record
  split
  · exact ha
  · exact hoffset

namespace State.Fit

theorem offset_le (h : s.Fit text) : s.offset ≤ Text.byteLength text := by
  obtain ⟨before, htext, hoffset⟩ := h.inText
  rw [htext, Text.byteLength_append]
  omega

theorem reaches {t : State ρ} (h : s.Fit text) (hst : s.Reaches t)
    (ht : t.attempts.offset ≤ Text.byteLength text) : t.Fit text :=
  ⟨h.inText.reaches hst, ht⟩

theorem skip (h : s.Fit text) (c : Context) (blank : Char → Bool) : (s.skip c blank).Fit text := by
  apply h.reaches (reaches_skip s c blank)
  unfold State.skip
  split
  · exact h.farthest
  · exact h.farthest

theorem withAttempts (h : s.Fit text) {a : Attempts ρ} (ha : a.offset ≤ Text.byteLength text) :
    State.Fit text { s with attempts := a } :=
  ⟨h.inText, ha⟩

end State.Fit

/-- What goes on from an outcome that fits fits, if it does from each state that fits and from each failure. -/
theorem Outcome.Fit.next {o : Outcome ρ} {onMatched : State ρ → Outcome ρ} {onFailed : Attempts ρ → Outcome ρ}
    (hmatched : ∀ {t : State ρ}, t.Fit text → (onMatched t).Fit text)
    (hfailed : ∀ {a : Attempts ρ}, a.offset ≤ Text.byteLength text → (onFailed a).Fit text) : o.Fit text →
    Outcome.Fit text (match o with | .matched t => onMatched t | .failed r => onFailed r | .fault f => .fault f) := by
  intro h
  cases o with
  | matched t => exact hmatched h
  | failed a => exact hfailed h
  | fault f => trivial

theorem fit_advanceWord (hs : s.Fit text) {w : List Char} {rest? : Option (List Char)}
    (hrest : ∀ rest, rest? = some rest →
      ∃ w', s.rest = w' ++ rest ∧ Text.byteLength w' = Text.byteLength w) :
    (s.advanceWord w rest?).Fit text := by
  cases rest? with
  | none => exact hs.farthest
  | some rest =>
      obtain ⟨w', hw', hlength⟩ := hrest rest rfl
      exact hs.reaches ⟨w', hw', by rw [hlength]⟩ hs.farthest

/-- No match looks beyond the end of the text. -/
theorem Grammar.fit_run (g : Grammar ρ) (n : Nat) (c : Context) (e : Expr ρ) (hs : s.Fit text) :
    (g.run n c e s).Fit text := by
  induction n generalizing c e s with
  | zero => trivial
  | succ n ih =>
      have hstrip : ∀ {s : State ρ} {w : List Char}, s.Fit text →
          (s.advanceWord w (Text.stripWord? w s.rest)).Fit text := by
        intro s w hs
        apply fit_advanceWord hs
        intro rest hrest
        exact ⟨w, Text.stripWord?_eq_some hrest, rfl⟩
      cases e with
      | word w => exact hstrip hs
      | caseless w =>
          apply fit_advanceWord hs
          intro rest hrest
          exact Text.stripCaseless?_eq_some hrest
      | char test =>
          simp only [Grammar.run]
          split
          · exact hs.farthest
          · split
            · rename_i x xs hrest _
              exact hs.reaches ⟨[x], hrest, by simp [State.advance]⟩ hs.farthest
            · exact hs.farthest
      | start =>
          simp only [Grammar.run]
          split
          · exact hs
          · exact hs.farthest
      | finish =>
          simp only [Grammar.run]
          split
          · exact hs
          · exact hs.farthest
      | seq a b =>
          simp only [Grammar.run]
          exact (ih c a hs).next (fun ht => ih c b (ht.skip c g.blank)) id
      | alt a b =>
          simp only [Grammar.run]
          exact (ih c a hs).next id fun ha => ih c b (hs.withAttempts ha)
      | opt a =>
          simp only [Grammar.run]
          exact (ih c a hs).next id hs.withAttempts
      | many a =>
          simp only [Grammar.run]
          exact (ih c a hs).next (ih c (.again a)) hs.withAttempts
      | again a =>
          simp only [Grammar.run]
          exact (ih c a (hs.skip c g.blank)).next (ih c (.again a)) hs.withAttempts
      | ahead a =>
          simp only [Grammar.run]
          exact (ih c.ahead a hs).next (fun ht => hs.withAttempts ht.farthest) id
      | notAhead a =>
          simp only [Grammar.run]
          exact (ih c.notAhead a hs).next State.Fit.farthest hs.withAttempts
      | push a =>
          simp only [Grammar.run]
          exact (ih c a hs).next (fun ht => ⟨ht.inText, ht.farthest⟩) id
      | top =>
          simp only [Grammar.run]
          split
          · trivial
          · exact hstrip hs
      | pop =>
          simp only [Grammar.run]
          split
          · trivial
          · exact hstrip ⟨hs.inText, hs.farthest⟩
      | call r =>
          simp only [Grammar.run]
          split
          · exact ih c (g.body r) hs
          · have hinner : State.Fit text
                (if (c.outside (g.kind r)).leavesPair then { s with pairs := [] } else s) := by
              split
              · exact ⟨hs.inText, hs.farthest⟩
              · exact hs
            refine (ih (c.inside (g.kind r)) (g.body r) hinner).next ?_ ?_
            · intro t ht
              split
              · exact ⟨ht.inText, ht.farthest⟩
              · split
                · exact ht.withAttempts (Attempts.offset_record _ _ ht.farthest hs.offset_le)
                · exact ht
            · intro a ha
              change Attempts.offset _ ≤ _
              split
              · exact Attempts.offset_record _ _ ha hs.offset_le
              · exact ha

theorem Grammar.offset_parse_le {g : Grammar ρ} {rule : ρ} {offset : Nat} {surprises : Surprises ρ}
    (h : g.parse rule text = .error (.unmatched offset surprises)) :
    offset ≤ Text.byteLength text := by
  have hfit : (Grammar.initial text : State ρ).Fit text := ⟨⟨[], rfl, rfl⟩, Nat.zero_le _⟩
  have hrun := g.fit_run (depthPerChar * (text.length + 1)) .top (.call rule) hfit
  unfold Grammar.parse at h
  split at h
  · cases h
  · rename_i a ha
    cases h
    rwa [ha] at hrun
  · cases h

end LiquidTemplate.Peg
