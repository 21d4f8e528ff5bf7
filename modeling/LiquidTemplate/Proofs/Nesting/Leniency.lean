import LiquidTemplate.Proofs.Nesting.Steps

namespace LiquidTemplate

namespace Nesting

theorem acceptsDangling_completion {mode : Mode} {stack : List Frame} (h : acceptsDangling mode stack) :
    acceptsDangling .completion stack := by
  cases stack with
  | nil => exact h
  | cons f rest =>
      cases f with
      | element => rfl
      | block | branched => exact h

theorem closeElement_completion {mode : Mode} {b b' : Nesting} {name : List Piece} {span : Span}
    (h : b.closeElement mode name span = .ok b') : b.closeElement .completion name span = .ok b' := by
  obtain ⟨roots, stack⟩ := b
  cases stack with
  | nil => cases h
  | cons f rest =>
      simp only [closeElement] at h ⊢
      by_cases htop : closesTop (nameText name) (f :: rest)
      · rwa [if_pos htop] at h ⊢
      · rw [if_neg htop] at h ⊢
        by_cases hdangling : acceptsDangling mode (f :: rest)
        · rw [if_pos hdangling] at h
          rwa [if_pos (acceptsDangling_completion hdangling)]
        · rw [if_neg hdangling] at h
          cases h

theorem step_completion {mode : Mode} {b b' : Nesting} {item : Item} (h : b.step mode item = .ok b') :
    b.step .completion item = .ok b' := by
  cases item with
  | closeElement name span => exact closeElement_completion h
  | _ => exact h

mutual

/-- A token that can be completed is completed to the same when completions are asked for. -/
theorem complete_completion {mode : Mode} {allow : Bool} :
    ∀ {t : Token} {item : Item}, complete ⟨mode, allow⟩ t = .ok item →
      complete ⟨.completion, allow⟩ t = .ok item
  | .rawElement .., item, h | .voidElement .., item, h | .selfClosing .., item, h | .elementOpen .., item, h
  | .valueAttribute .., item, h | .statements .., item, h => by
      simp only [complete, bind_eq_ok, Options.nested] at h ⊢
      obtain ⟨b, hb, h⟩ := h
      exact ⟨b, feed_completion hb, h⟩
  | .text _, item, h | .frontmatter .., item, h | .doctype .., item, h | .comment .., item, h
  | .elementClose .., item, h | .bareAttribute .., item, h | .output _, item, h | .tagOpen _, item, h
  | .tag _, item, h | .tagClose _, item, h | .rawTag .., item, h | .docParam _, item, h
  | .docExample .., item, h | .docDescription .., item, h => by
      simpa only [complete] using h

theorem feed_completion {mode : Mode} {allow : Bool} :
    ∀ {ts : List Token} {b b' : Nesting}, feed ⟨mode, allow⟩ b ts = .ok b' →
      feed ⟨.completion, allow⟩ b ts = .ok b'
  | [], b, b', h => h
  | t :: ts, b, b', h => by
      simp only [feed, bind_eq_ok] at h ⊢
      obtain ⟨item, hitem, c, hc, h⟩ := h
      exact ⟨item, complete_completion hitem, c, step_completion hc, feed_completion h⟩

end

theorem complete_allow (mode : Mode) (allow allow' : Bool) (t : Token) :
    complete ⟨mode, allow⟩ t = complete ⟨mode, allow'⟩ t := by
  cases t <;> rfl

/-- Whether constructs may stay open makes no difference before the end. -/
theorem feed_allow (mode : Mode) (allow allow' : Bool) (b : Nesting) (ts : List Token) :
    feed ⟨mode, allow⟩ b ts = feed ⟨mode, allow'⟩ b ts := by
  induction ts generalizing b with
  | nil => rfl
  | cons t ts ih => simp only [feed, complete_allow mode allow allow', ih]

theorem finish_allow {mode : Mode} {stop : Nat} (b : Nesting) :
    b.finish ⟨mode, true⟩ stop = b.finish ⟨mode, false⟩ stop ∨
      ∃ unclosed nodes, b.finish ⟨mode, true⟩ stop = .ok nodes ∧
        b.finish ⟨mode, false⟩ stop = .error (.misnested (.endBefore unclosed) (.point stop)) := by
  obtain ⟨roots, stack⟩ := b
  cases stack with
  | nil => exact .inl rfl
  | cons f rest => exact .inr ⟨f.unclosed, _, rfl, rfl⟩

end Nesting

namespace Node

open Nesting

theorem ofTokens_completion {mode : Mode} {allow : Bool} {stop : Nat} {ts : List Token}
    {nodes : List Node} (h : ofTokens ⟨mode, allow⟩ stop ts = .ok nodes) :
    ofTokens ⟨.completion, allow⟩ stop ts = .ok nodes := by
  simp only [ofTokens, bind_eq_ok] at h ⊢
  obtain ⟨b, hb, h⟩ := h
  exact ⟨b, feed_completion hb, h⟩

/-- Where constructs may stay open, the result is the same, except that what is open at the end is no
error. -/
theorem ofTokens_allow (mode : Mode) (stop : Nat) (ts : List Token) :
    ofTokens ⟨mode, true⟩ stop ts = ofTokens ⟨mode, false⟩ stop ts ∨
      ∃ unclosed nodes, ofTokens ⟨mode, true⟩ stop ts = .ok nodes ∧
        ofTokens ⟨mode, false⟩ stop ts = .error (.misnested (.endBefore unclosed) (.point stop)) := by
  rw [ofTokens, ofTokens, feed_allow mode true false]
  cases feed ⟨mode, false⟩ {} ts with
  | error e => exact .inl rfl
  | ok b => exact finish_allow b

/-- Looser options turn errors into trees, and change no tree: what is a tree in another mode is the same
tree when completions are asked for; what is a tree when nothing may stay open is the same tree when
things may; an error when they may is the same error when they may not, and an error only when they
may not blames what is open at the end. -/
theorem ofTokens_looser (stop : Nat) (ts : List Token) :
    (∀ mode allow nodes, mode = .strict ∨ mode = .tolerant →
      ofTokens ⟨mode, allow⟩ stop ts = .ok nodes → ofTokens ⟨.completion, allow⟩ stop ts = .ok nodes) ∧
    (∀ mode nodes, ofTokens ⟨mode, false⟩ stop ts = .ok nodes →
      ofTokens ⟨mode, true⟩ stop ts = .ok nodes) ∧
    (∀ mode e, ofTokens ⟨mode, true⟩ stop ts = .error e → ofTokens ⟨mode, false⟩ stop ts = .error e) ∧
    ∀ mode e nodes, ofTokens ⟨mode, false⟩ stop ts = .error e → ofTokens ⟨mode, true⟩ stop ts = .ok nodes →
      ∃ unclosed, e = .misnested (.endBefore unclosed) (.point stop) ∧
        e.message = "Attempting to end parsing before " ++ unclosed.label ++ " was closed" := by
  refine ⟨fun mode allow nodes _ h => ofTokens_completion h, ?_, ?_, ?_⟩
  · intro mode nodes h
    rcases ofTokens_allow mode stop ts with hsame | ⟨_, _, _, herror⟩
    · rwa [hsame]
    · rw [h] at herror
      cases herror
  · intro mode e h
    rcases ofTokens_allow mode stop ts with hsame | ⟨_, _, hok, _⟩
    · rwa [← hsame]
    · rw [h] at hok
      cases hok
  · intro mode e nodes h hok
    rcases ofTokens_allow mode stop ts with hsame | ⟨unclosed, _, _, herror⟩
    · rw [hsame, h] at hok
      cases hok
    · rw [h] at herror
      cases herror
      exact ⟨unclosed, rfl, rfl⟩

def openParagraph : List Token :=
  [.elementOpen [.text ⟨"p", .between 1 2⟩] [] (.between 0 3), .text ⟨"a", .between 3 4⟩]

def strayEnd : List Token := [.tagClose ⟨"if", {}, .between 0 11⟩]

/-- The paragraph is a tree wherever it may stay open, and the end of the text is to blame where it may
not; the stray end is no tree under any options. -/
theorem ofTokens_looser_openParagraph :
    (∃ nodes, ofTokens ⟨.strict, true⟩ 4 openParagraph = .ok nodes ∧
      ofTokens ⟨.completion, true⟩ 4 openParagraph = .ok nodes) ∧
    (∃ nodes, ofTokens ⟨.tolerant, false⟩ 4 [.text ⟨"a", .between 3 4⟩] = .ok nodes ∧
      ofTokens ⟨.tolerant, true⟩ 4 [.text ⟨"a", .between 3 4⟩] = .ok nodes) ∧
    (∃ e, ofTokens ⟨.strict, true⟩ 11 strayEnd = .error e ∧ ofTokens ⟨.strict, false⟩ 11 strayEnd = .error e) ∧
    ∃ e nodes, ofTokens ⟨.strict, false⟩ 4 openParagraph = .error e ∧
      ofTokens ⟨.strict, true⟩ 4 openParagraph = .ok nodes ∧
      ∃ unclosed, e = .misnested (.endBefore unclosed) (.point 4) ∧
        e.message = "Attempting to end parsing before " ++ unclosed.label ++ " was closed" :=
  ⟨⟨_, rfl, (ofTokens_looser 4 openParagraph).1 .strict true _ (.inl rfl) rfl⟩,
    ⟨_, rfl, (ofTokens_looser 4 _).2.1 .tolerant _ rfl⟩,
    ⟨_, rfl, (ofTokens_looser 11 strayEnd).2.2.1 .strict _ rfl⟩,
    ⟨_, _, rfl, rfl, (ofTokens_looser 4 openParagraph).2.2.2 .strict _ _ rfl rfl⟩⟩

end Node

end LiquidTemplate
