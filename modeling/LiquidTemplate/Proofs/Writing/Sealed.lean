import LiquidTemplate.Proofs.Writing.Expression

namespace LiquidTemplate

open Text

namespace Text

def Sealed (w : List Char) : Prop := ∃ bare, Balanced w bare ∧ placeholder ∉ bare

variable {v w : List Char}

theorem Sealed.append (hv : Sealed v) (hw : Sealed w) : Sealed (v ++ w) := by
  obtain ⟨bare, hv, hbare⟩ := hv
  obtain ⟨bare', hw, hbare'⟩ := hw
  exact ⟨bare ++ bare', hv.append hw, by simp [hbare, hbare']⟩

theorem Sealed.outside (h : Sealed w) : placeholder ∉ outsideQuotes none w := by
  obtain ⟨bare, hw, hbare⟩ := h
  have heq := hw []
  rw [List.append_nil] at heq
  simpa [heq, outsideQuotes] using hbare

theorem sealed_of_unquoted (h : ∀ x ∈ w, isQuote x = false ∧ x ≠ placeholder) : Sealed w :=
  ⟨w, balanced_of_unquoted fun x hx => (h x hx).1, fun hmem => (h _ hmem).2 rfl⟩

theorem sealed_of_all (h : w.all fun x => !isQuote x && x != placeholder) : Sealed w := by
  simp only [List.all_eq_true, Bool.and_eq_true, Bool.not_eq_true', bne_iff_ne] at h
  exact sealed_of_unquoted h

theorem sealed_of_isIdentifier (h : isIdentifier w) : Sealed w := by
  obtain ⟨_, _, _, _, _, hplaceholder⟩ := exists_of_isIdentifier h
  refine sealed_of_unquoted fun x hx => ⟨isQuote_of_isNameChar (isNameChar_of_isIdentifier h x hx), ?_⟩
  rintro rfl
  exact hplaceholder hx

theorem sealed_of_unasked (h : isIdentifier (unasked w)) : Sealed w := by
  rcases unasked_cases w with hplain | hasked
  · rw [hplain]
    exact sealed_of_isIdentifier h
  · rw [hasked]
    exact (sealed_of_isIdentifier h).append (sealed_of_all rfl)

theorem sealed_of_isNumber (h : IsNumber w) : Sealed w := by
  have hsign : ∀ {sign : List Char}, sign ∈ [[], ['-']] → Sealed sign := by
    intro sign hsign
    simp only [List.mem_cons, List.not_mem_nil, or_false] at hsign
    rcases hsign with rfl | rfl <;> exact sealed_of_all rfl
  have hdigits : ∀ {digits : List Char}, IsDigits digits → Sealed digits := by
    intro digits hdigits
    refine sealed_of_unquoted fun x hx => ⟨isQuote_of_isNameChar (isNameChar_of_isDigit (hdigits.2 x hx)), ?_⟩
    rintro rfl
    exact absurd (hdigits.2 _ hx) (by decide)
  cases h with
  | whole hs hd => exact (hsign hs).append (hdigits hd)
  | fraction hs hd hds =>
      have hpoint : Sealed ['.'] := sealed_of_all rfl
      exact ((hsign hs).append (hdigits hd)).append (hpoint.append (hdigits hds))

theorem sealed_string {single : Bool} (h : quoteMark single ∉ w) :
    Sealed (quoteMark single :: (w ++ [quoteMark single])) := by
  refine ⟨[], balanced_quoted ?_ h, by simp⟩
  cases single <;> rfl

end Text

namespace Expression

mutual

theorem sealed_write (dots : Expression → Bool) : (bound : Bool) → (e : Expression) → e.Writable bound →
    Sealed (e.write dots)
  | _, string _ _ _, h => sealed_string h.2
  | _, number _ _, h => sealed_of_isNumber h
  | _, literal l _, _ => sealed_of_isIdentifier l.isIdentifier_keyword
  | _, range first last _, h => by
    rw [write]
    have hopen : Sealed ['('] := sealed_of_all rfl
    have hdots : Sealed ['.', '.'] := sealed_of_all rfl
    have hclose : Sealed [')'] := sealed_of_all rfl
    have hfirst := hopen.append (sealed_write dots true first h.2.1)
    exact ((hfirst.append hdots).append (sealed_write dots true last h.2.2)).append hclose
  | _, lookup (some _) keys _, h => (sealed_of_unasked h.1).append (sealed_writeKeys dots true keys h.2.2)
  | _, lookup none keys _, h => sealed_writeKeys dots false keys h.2

theorem sealed_writeKeys (dots : Expression → Bool) (rooted : Bool) : (keys : List Expression) → KeysWritable keys →
    Sealed (writeKeys dots rooted keys)
  | [], _ => sealed_of_all rfl
  | key :: keys, h => by
    refine Sealed.append ?_ (sealed_writeKeys dots true keys h.2)
    cases hdotted : dotted? dots rooted key with
    | some name =>
        have hdot : Sealed ['.'] := sealed_of_all rfl
        exact hdot.append (sealed_of_unasked (dotted?_eq_some hdotted).1)
    | none =>
        have hopen : Sealed ['['] := sealed_of_all rfl
        have hclose : Sealed [']'] := sealed_of_all rfl
        exact hopen.append ((sealed_write dots false key h.1).append hclose)

end

end Expression

end LiquidTemplate
