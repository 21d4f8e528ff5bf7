import LiquidTemplate.Proofs.Peg.Tight
import LiquidTemplate.Proofs.Placeholder.Quotes
import LiquidTemplate.Proofs.Rule.Expression
import LiquidTemplate.Proofs.Rule.Statement

namespace LiquidTemplate

open Text
open Peg Peg.Expr Rule

namespace Text

/-- A letter or an underscore, and then letters, digits, underscores and dashes.  The completion placeholder,
which names may have in them, is no part of it. -/
def isIdentifier : List Char → Bool
  | [] => false
  | x :: w => isNameStart x && w.all isNameChar && !(x :: w).contains placeholder

def unasked (w : List Char) : List Char := if w.getLast? = some '?' then w.dropLast else w

theorem unasked_cases (w : List Char) : w = unasked w ∨ w = unasked w ++ ['?'] := by
  unfold unasked
  split
  · rename_i h
    obtain ⟨v, rfl⟩ := List.getLast?_eq_some_iff.mp h
    simp
  · exact .inl rfl

theorem exists_of_isIdentifier {w : List Char} (h : isIdentifier w) :
    ∃ x v, w = x :: v ∧ isNameStart x ∧ (∀ y ∈ v, isNameChar y) ∧ placeholder ∉ w := by
  cases w with
  | nil => cases h
  | cons x v =>
      simp only [isIdentifier, Bool.and_eq_true, List.all_eq_true, Bool.not_eq_true',
        List.contains_eq_mem, decide_eq_false_iff_not] at h
      exact ⟨x, v, rfl, h.1.1, h.1.2, h.2⟩

theorem isNameChar_of_isIdentifier {w : List Char} (h : isIdentifier w) : ∀ x ∈ w, isNameChar x := by
  obtain ⟨x, v, rfl, hx, hv, _⟩ := exists_of_isIdentifier h
  exact List.forall_mem_cons.mpr ⟨isNameChar_of_isNameStart hx, hv⟩

def IsDigits (w : List Char) : Prop := w ≠ [] ∧ ∀ x ∈ w, x.isDigit

inductive IsNumber : List Char → Prop
  | whole {sign digits : List Char} : sign ∈ [[], ['-']] → IsDigits digits → IsNumber (sign ++ digits)
  | fraction {sign digits decimals : List Char} : sign ∈ [[], ['-']] → IsDigits digits → IsDigits decimals →
      IsNumber (sign ++ digits ++ '.' :: decimals)

theorem IsNumber.head {w : List Char} (h : IsNumber w) : ∃ x v, w = x :: v ∧ (x = '-' ∨ x.isDigit) := by
  have hwhole : ∀ {sign digits : List Char}, sign ∈ [[], ['-']] → IsDigits digits →
      ∃ x v, sign ++ digits = x :: v ∧ (x = '-' ∨ x.isDigit) := by
    intro sign digits hsign hdigits
    simp only [List.mem_cons, List.not_mem_nil, or_false] at hsign
    rcases hsign with rfl | rfl
    · obtain ⟨x, v, rfl⟩ := List.exists_cons_of_ne_nil hdigits.1
      exact ⟨x, v, rfl, .inr (hdigits.2 x List.mem_cons_self)⟩
    · exact ⟨'-', digits, rfl, .inl rfl⟩
  cases h with
  | whole hsign hdigits => exact hwhole hsign hdigits
  | @fraction sign digits decimals hsign hdigits =>
      obtain ⟨x, v, hv, hx⟩ := hwhole hsign hdigits
      exact ⟨x, v ++ '.' :: decimals, by rw [hv, List.cons_append], hx⟩

end Text

variable {c : Context} {s : State Rule} {r : Rule} {x : Char} {w name body rest : List Char}

section Names

variable (hc : c.leavesPair) (hkind : grammar.kind r = .atomic)

include hc hkind

theorem gives_nameRule (hbody : grammar.body r = call idStart ++ many (call idChar)) (hname : isIdentifier name)
    (hrest : ∀ y ∈ rest.head?, isNameChar y = false) (hs : s.rest = name ++ rest) :
    Gives grammar c (call r) s (some (s.past name rest [s.pair r name []])) := by
  obtain ⟨x, w, rfl, hx, hw, _⟩ := exists_of_isIdentifier hname
  have h : Gives grammar (c.inside .atomic) (call idStart ++ many (call idChar)) s (some (s.past (x :: w) rest [])) :=
    gives_name Atomicity.noConfusion hx hw hrest hs
  exact .pair_past hkind Kind.noConfusion hbody hc hs h

theorem gives_askedRule (hbody : grammar.body r = call idStart ++ many (call idChar) ++ opt (lit "?"))
    (hname : isIdentifier (unasked name)) (hrest : ∀ y ∈ rest.head?, isNameChar y = false ∧ y ≠ '?')
    (hs : s.rest = name ++ rest) :
    Gives grammar c (call r) s (some (s.past name rest [s.pair r name []])) := by
  obtain ⟨x, w, hv, hx, hw, _⟩ := exists_of_isIdentifier hname
  suffices hall : Gives grammar (c.inside .atomic) (call idStart ++ many (call idChar) ++ opt (lit "?")) s
      (some (s.past name rest [])) from .pair_past hkind Kind.noConfusion hbody hc hs hall
  rcases unasked_cases name with hplain | hasked
  · rw [hplain, hv] at hs ⊢
    have h : Gives grammar (c.inside .atomic) _ s (some (s.past (x :: w) rest [])) :=
      gives_name Atomicity.noConfusion hx hw (fun y hy => (hrest y hy).1) hs
    have hmark : Gives grammar (c.inside .atomic) (lit "?") (s.over (x :: w) rest) none := by
      apply gives_word_none_of_head
      intro hmark
      exact (hrest '?' hmark).2 rfl
    exact h.seq_idle Atomicity.noConfusion (gives_opt.mpr (.inr ⟨hmark, rfl⟩))
  · rw [hasked, hv, List.append_assoc] at hs
    rw [hasked, hv]
    have h : Gives grammar (c.inside .atomic) _ s (some (s.past (x :: w) ('?' :: rest) [])) :=
      gives_name Atomicity.noConfusion hx hw (by rintro y ⟨⟩; decide) hs
    have hmark : Gives grammar (c.inside .atomic) (lit "?") (s.over (x :: w) ('?' :: rest))
        (some ((s.over (x :: w) ('?' :: rest)).past ['?'] rest [])) := gives_word_over rfl
    exact h.seq_past Atomicity.noConfusion (gives_opt.mpr (.inl ⟨_, hmark, rfl⟩))

end Names

theorem gives_nameRule_none (hc : c.leavesPair) (hkind : grammar.kind r = .atomic) {e : Expr Rule}
    (hbody : grammar.body r = call idStart ++ e ∨ ∃ e', grammar.body r = call idStart ++ e ++ e')
    (hs : ∀ y ∈ s.rest.head?, isNameStart y = false) : Gives grammar c (call r) s none := by
  have hstart : Gives grammar (c.inside .atomic) (call idStart) s none := by
    rw [← State.one?_of_not hs]
    exact gives_idStart
  rcases hbody with hbody | ⟨e', hbody⟩
  · exact .pair_none hkind Kind.noConfusion hbody hc hstart.seq_none
  · exact .pair_none hkind Kind.noConfusion hbody hc hstart.seq_none.seq_none

section Strings

def quotedRule (single : Bool) : Rule := if single then singleQuoted else doubleQuoted

variable (hc : c.leavesPair)

include hc

theorem gives_quoted {mark : Char} (hkind : grammar.kind r = .atomic) (hrule : grammar.body r = until0 (word [mark]))
    (hbody : mark ∉ body) (hs : s.rest = body ++ mark :: rest) :
    Gives grammar c (call r) s (some (s.past body (mark :: rest) [s.pair r body []])) := by
  have hrun : Gives grammar (c.inside .atomic) (until0 (word [mark])) s (some (s.past body (mark :: rest) [])) := by
    refine gives_until0 Atomicity.noConfusion ?_ ?_ rfl hs
    · intro t x v _ hv ht
      apply gives_word_none_of_head
      rw [ht]
      rintro ⟨⟩
      exact hbody (hv.subset List.mem_cons_self)
    · intro t _ ht
      exact gives_unless_stop (gives_word_over (w := [mark]) ht)
  exact .pair_past hkind Kind.noConfusion hrule hc hs hrun

theorem gives_string {single : Bool} (hbody : quoteMark single ∉ body)
    (hs : s.rest = quoteMark single :: (body ++ [quoteMark single]) ++ rest) :
    ∃ q, q.rule = quotedRule single ∧ q.text = body ∧
      Gives grammar c (call string) s (some (s.past (quoteMark single :: (body ++ [quoteMark single])) rest
        [s.pair string (quoteMark single :: (body ++ [quoteMark single])) [q]])) := by
  have hquoted : ∀ {r : Rule} {mark : Char}, grammar.kind r = .atomic → grammar.body r = until0 (word [mark]) →
      mark ∉ body → s.rest = mark :: (body ++ [mark]) ++ rest →
      ∃ q, q.rule = r ∧ q.text = body ∧ Gives grammar (c.inside .compound) (word [mark] ++ call r ++ word [mark]) s
        (some (s.past (mark :: (body ++ [mark])) rest [q])) := by
    intro r mark hkind hrule hbody hs
    have hs' : s.rest = [mark] ++ (body ++ mark :: rest) := by simpa using hs
    have hopen : Gives grammar (c.inside .compound) (word [mark]) s (some (s.past [mark] (body ++ mark :: rest) [])) :=
      gives_word_over hs'
    have hinner := gives_quoted (s := s.over [mark] (body ++ mark :: rest)) (c.leavesPair_compound hc) hkind hrule
      hbody rfl
    have hclose : Gives grammar (c.inside .compound) (word [mark]) (s.over ([mark] ++ body) (mark :: rest))
        (some ((s.over ([mark] ++ body) (mark :: rest)).past [mark] rest [])) := gives_word_over rfl
    have hword : [mark] ++ body ++ [mark] = mark :: (body ++ [mark]) := rfl
    have h := (hopen.seq_past Atomicity.noConfusion hinner).seq_past Atomicity.noConfusion hclose
    rw [hword] at h
    exact ⟨_, rfl, rfl, h⟩
  cases single with
  | true =>
      obtain ⟨q, hrule, htext, h⟩ := hquoted (r := singleQuoted) rfl rfl hbody hs
      have h := Gives.pair_past (r := string) rfl Kind.noConfusion rfl hc hs h.first
      exact ⟨q, hrule, htext, h⟩
  | false =>
      obtain ⟨q, hrule, htext, h⟩ := hquoted (r := doubleQuoted) rfl rfl hbody hs
      have hother : Gives grammar (c.inside .compound) (lit "'") s none := by
        apply gives_word_none_of_head
        rw [hs]
        nofun
      have h := Gives.pair_past (r := string) rfl Kind.noConfusion rfl hc hs (hother.seq_none.seq_none.alt h)
      exact ⟨q, hrule, htext, h⟩

theorem gives_string_none (hs : ∀ x ∈ s.rest.head?, isQuote x = false) : Gives grammar c (call string) s none := by
  have hmark : ∀ {mark : Char} {r : Rule}, isQuote mark →
      Gives grammar (c.inside .compound) (word [mark] ++ call r ++ word [mark]) s none := by
    intro mark r hmark
    refine Gives.seq_none (.seq_none (gives_word_none_of_head ?_))
    intro hhead
    rw [hs mark hhead] at hmark
    cases hmark
  exact .pair_none rfl Kind.noConfusion rfl hc ((hmark rfl).alt (hmark rfl))

end Strings

theorem le_toNat_of_isAlpha (h : x.isAlpha) : 65 ≤ x.toNat := by
  rcases Bool.or_eq_true_iff.mp h with h | h
  · exact UInt32.le_iff_toNat_le.mp (of_decide_eq_true h).1
  · have hlower : 'a'.val ≤ x.val := of_decide_eq_true (Bool.and_eq_true_iff.mp h).1
    exact Nat.le_trans (by decide) (UInt32.le_iff_toNat_le.mp hlower)

theorem isNameStart_of_isDigit (h : x.isDigit) : isNameStart x = false := by
  have hx : x.toNat ≤ 57 := UInt32.le_iff_toNat_le.mp (of_decide_eq_true (Bool.and_eq_true_iff.mp h).2)
  by_contra hname
  have hlarge : 65 ≤ x.toNat := by
    simp only [isNameStart, Bool.not_eq_false, Bool.or_eq_true, beq_iff_eq] at hname
    rcases hname with (halpha | rfl) | rfl
    · exact le_toNat_of_isAlpha halpha
    · decide
    · decide
  omega

theorem isNameChar_of_isDigit (h : x.isDigit) : isNameChar x := by
  simp [isNameChar, Char.isAlphanum, h]

theorem isDigit_of_not_isNameChar (h : isNameChar x = false) : x.isDigit = false := by
  by_contra hdigit
  rw [isNameChar_of_isDigit (Bool.of_not_eq_false hdigit)] at h
  cases h

theorem gives_digit : Gives grammar c digit s (s.one? Char.isDigit) := gives_test rfl

theorem gives_digits (hc : c.atomicity ≠ .spaced) (hw : IsDigits w) (hrest : ∀ x ∈ rest.head?, x.isDigit = false)
    (hs : s.rest = w ++ rest) : Gives grammar c (plus digit) s (some (s.over w rest)) := by
  obtain ⟨hne, hdigits⟩ := hw
  obtain ⟨x, w, rfl⟩ := List.exists_cons_of_ne_nil hne
  obtain ⟨hx, hdigits⟩ := List.forall_mem_cons.mp hdigits
  exact gives_run hc (fun _ => gives_digit) (fun _ => gives_digit) hx hdigits hrest hs

/-- A dot that no digit follows on starts no decimals. -/
theorem gives_decimals_none (hc : c.atomicity ≠ .spaced) (hdot : ∀ x, ['.', x] <+: s.rest → x.isDigit = false) :
    Gives grammar c (lit "." ++ plus digit) s none := by
  by_cases h : ∃ more, s.rest = '.' :: more
  · obtain ⟨more, hs⟩ := h
    have hpoint : Gives grammar c (lit ".") s (some (s.past ['.'] more [])) := gives_word_over hs
    have hno : (s.over ['.'] more).one? Char.isDigit = none := by
      apply State.one?_of_not
      intro x hx
      obtain ⟨rest', hmore⟩ := List.head?_eq_some_iff.mp hx
      refine hdot x ⟨rest', ?_⟩
      rw [hs, ← State.rest_over s ['.'] more, hmore]
      rfl
    exact hpoint.seq_past_none hc (Gives.seq_none (hno ▸ gives_digit))
  · exact Gives.seq_none (gives_word_none fun more hmore => h ⟨more, hmore⟩)

theorem gives_signed {sign digits : List Char} (hc : c.atomicity ≠ .spaced) (hsign : sign ∈ [[], ['-']])
    (hdigits : IsDigits digits) (hrest : ∀ x ∈ rest.head?, x.isDigit = false) (hs : s.rest = sign ++ digits ++ rest) :
    Gives grammar c (opt (lit "-") ++ plus digit) s (some (s.past (sign ++ digits) rest [])) := by
  rw [List.append_assoc] at hs
  have hopt : Gives grammar c (opt (lit "-")) s (some (s.past sign (digits ++ rest) [])) := by
    simp only [List.mem_cons, List.not_mem_nil, or_false] at hsign
    rcases hsign with rfl | rfl
    · refine .opt_none (gives_word_none_of_head ?_) hs
      obtain ⟨x, v, rfl⟩ := List.exists_cons_of_ne_nil hdigits.1
      rw [hs]
      rintro ⟨⟩
      exact absurd (hdigits.2 '-' List.mem_cons_self) (by decide)
    · exact gives_opt.mpr (.inl ⟨_, gives_word_over hs, rfl⟩)
  exact hopt.seq_past hc (gives_digits hc hdigits hrest rfl)

/-- No name goes on where no character of one stands. -/
theorem gives_notAhead_idChar (hs : ∀ x ∈ s.rest.head?, isNameChar x = false) :
    Gives grammar c (notAhead (call idChar)) s (some s.bare) := by
  have hnone : Gives grammar c.notAhead (call idChar) s none := State.one?_of_not hs ▸ gives_idChar
  exact gives_notAhead.mpr (.inr ⟨hnone, rfl⟩)

section Numbers

variable (hc : c.leavesPair)

include hc

theorem gives_number (hw : IsNumber w) (hname : ∀ x ∈ rest.head?, isNameChar x = false)
    (hdot : ∀ x, ['.', x] <+: rest → x.isDigit = false) (hs : s.rest = w ++ rest) :
    Gives grammar c (call number) s (some (s.past w rest [s.pair number w []])) := by
  have hc' : (c.inside .atomic).atomicity ≠ .spaced := Atomicity.noConfusion
  have hdigit : ∀ x ∈ rest.head?, x.isDigit = false := fun x hx => isDigit_of_not_isNameChar (hname x hx)
  suffices hall : Gives grammar (c.inside .atomic) (opt (lit "-") ++ plus digit ++ opt (lit "." ++ plus digit)) s
      (some (s.past w rest [])) by
    have h := hall.seq_idle hc' (gives_notAhead_idChar hname)
    exact .pair_past (r := number) rfl Kind.noConfusion rfl hc hs h
  cases hw with
  | @whole sign digits hsign hdigits =>
      have hnone : Gives grammar (c.inside .atomic) (lit "." ++ plus digit) (s.over (sign ++ digits) rest) none :=
        gives_decimals_none hc' hdot
      exact (gives_signed hc' hsign hdigits hdigit hs).seq_idle hc' (gives_opt.mpr (.inr ⟨hnone, rfl⟩))
  | @fraction sign digits decimals hsign hdigits hdecimals =>
      rw [List.append_assoc] at hs
      have hpoint : Gives grammar (c.inside .atomic) (lit ".") (s.over (sign ++ digits) (['.'] ++ (decimals ++ rest)))
          (some ((s.over (sign ++ digits) (['.'] ++ (decimals ++ rest))).past ['.'] (decimals ++ rest) [])) :=
        gives_word_over rfl
      have hfraction := hpoint.seq_past hc' (gives_digits hc' hdecimals hdigit rfl)
      have hfirst := gives_signed hc' hsign hdigits (by rintro x ⟨⟩; decide) hs
      exact hfirst.seq_past hc' (gives_opt.mpr (.inl ⟨_, hfraction, rfl⟩))

theorem gives_number_none (hs : ∀ x ∈ s.rest.head?, x.isDigit = false ∧ x ≠ '-') :
    Gives grammar c (call number) s none := by
  have hsign : Gives grammar (c.inside .atomic) (opt (lit "-")) s (some (s.past [] s.rest [])) := by
    refine .opt_none (gives_word_none_of_head ?_) rfl
    intro hhead
    exact (hs '-' hhead).2 rfl
  have hdigit : Gives grammar (c.inside .atomic) digit (s.over [] s.rest) none :=
    State.one?_of_not (s := s.over [] s.rest) (fun x hx => (hs x hx).1) ▸ gives_digit
  have hdigits := hsign.seq_past_none Atomicity.noConfusion (hdigit.seq_none (b := many digit))
  exact .pair_none rfl Kind.noConfusion rfl hc hdigits.seq_none.seq_none

end Numbers

def Literal.all : List Literal := [bool true, bool false, nil, null, empty, blank]

theorem Literal.mem_all (l : Literal) : l ∈ all := by
  rcases l with (_ | _) | _ | _ | _ | _ <;> decide

theorem Literal.isIdentifier_keyword (l : Literal) : isIdentifier l.keyword.toList := by
  rcases l with (_ | _) | _ | _ | _ | _ <;> decide

/-- The keywords differ in their first two letters. -/
theorem Literal.eq_of_keyword_append {l l' : Literal} {v w : List Char}
    (h : l.keyword.toList ++ v = l'.keyword.toList ++ w) : l = l' := by
  have hlength : ∀ l : Literal, 2 ≤ l.keyword.toList.length := by
    rintro ((_ | _) | _ | _ | _ | _) <;> decide
  have htake : l.keyword.toList.take 2 = l'.keyword.toList.take 2 := by
    rw [← List.take_append_of_le_length (hlength l), h, List.take_append_of_le_length (hlength l')]
  revert htake
  rcases l with (_ | _) | _ | _ | _ | _ <;> rcases l' with (_ | _) | _ | _ | _ | _ <;> decide

section Keywords

def keywords : Expr Rule :=
  lit "true" ||| lit "false" ||| lit "nil" ||| lit "null" ||| lit "empty" ||| lit "blank"

theorem gives_keywords (c : Context) (s : State Rule) :
    (Gives grammar c keywords s none ∧ ∀ (l : Literal) rest, s.rest ≠ l.keyword.toList ++ rest) ∨
      ∃ (l : Literal) (rest : List Char), s.rest = l.keyword.toList ++ rest ∧
        Gives grammar c keywords s (some (s.over l.keyword.toList rest)) := by
  have hwords : keywords.words = some (Literal.all.map (·.keyword.toList)) := rfl
  rcases gives_words (g := grammar) (c := c) (s := s) hwords with ⟨h, hno⟩ | ⟨w, hw, rest, hs, h⟩
  · exact .inl ⟨h, fun l => hno _ (List.mem_map_of_mem l.mem_all)⟩
  · obtain ⟨l, _, rfl⟩ := List.mem_map.mp hw
    exact .inr ⟨l, rest, hs, h⟩

variable (hc : c.leavesPair)

include hc

theorem gives_literal (l : Literal) (hrest : ∀ x ∈ rest.head?, isNameChar x = false)
    (hs : s.rest = l.keyword.toList ++ rest) :
    Gives grammar c (call literal) s (some (s.past l.keyword.toList rest [s.pair literal l.keyword.toList []])) := by
  rcases gives_keywords (c.inside .atomic) s with ⟨_, hno⟩ | ⟨l', rest', hs', hword⟩
  · exact absurd hs (hno l rest)
  · have htext : l.keyword.toList ++ rest = l'.keyword.toList ++ rest' := hs.symm.trans hs'
    obtain rfl : l = l' := Literal.eq_of_keyword_append htext
    obtain rfl : rest = rest' := List.append_cancel_left htext
    have hword : Gives grammar (c.inside .atomic) keywords s (some (s.past l.keyword.toList rest [])) := hword
    have h := hword.seq_idle Atomicity.noConfusion (gives_notAhead_idChar hrest)
    exact .pair_past (r := literal) rfl Kind.noConfusion rfl hc hs h

/-- A name that is no keyword, and does not go on, is not read as one. -/
theorem gives_literal_none (hw : ∀ x ∈ w, isNameChar x) (hrest : ∀ x ∈ rest.head?, isNameChar x = false)
    (hkeyword : ∀ l : Literal, w ≠ l.keyword.toList) (hs : s.rest = w ++ rest) :
    Gives grammar c (call literal) s none := by
  suffices h : Gives grammar (c.inside .atomic) (whole keywords) s none from
    .pair_none (r := literal) rfl Kind.noConfusion rfl hc h
  rcases gives_keywords (c.inside .atomic) s with ⟨hnone, _⟩ | ⟨l, rest', hs', hword⟩
  · exact hnone.seq_none
  · have hword : Gives grammar (c.inside .atomic) keywords s (some (s.past l.keyword.toList rest' [])) := hword
    refine hword.seq_past_none Atomicity.noConfusion (gives_notAhead.mpr (.inl ?_))
    -- The keyword ends before the name does.
    have hends : (∀ x ∈ rest'.head?, isNameChar x = false) → w = l.keyword.toList := by
      intro hstop
      have hword := isNameChar_of_isIdentifier l.isIdentifier_keyword
      rw [← takeWhile_append_stop hw hrest, ← hs, hs', takeWhile_append_stop hword hstop]
    obtain ⟨x, more, rfl, hx⟩ : ∃ x more, rest' = x :: more ∧ isNameChar x := by
      cases rest' with
      | nil => exact absurd (hends (by simp)) (hkeyword l)
      | cons x more =>
          by_cases hx : isNameChar x
          · exact ⟨x, more, rfl, hx⟩
          · exact absurd (hends (by simpa using hx)) (hkeyword l)
    have hone : (s.over l.keyword.toList (x :: more)).one? isNameChar = some _ := State.one?_cons rfl hx
    exact ⟨_, hone ▸ gives_idChar, rfl⟩

theorem gives_literal_none_nameless (hs : ∀ x ∈ s.rest.head?, isNameChar x = false) :
    Gives grammar c (call literal) s none := by
  refine gives_literal_none (w := []) hc (by simp) hs ?_ rfl
  intro l hl
  have hkeyword := l.isIdentifier_keyword
  rw [← hl] at hkeyword
  cases hkeyword

end Keywords

end LiquidTemplate
