import LiquidTemplate.Proofs.Rule.Expression

namespace LiquidTemplate

open Text
open Peg Peg.Expr Rule

variable {text : List Char} {p : Pair Rule}

namespace Text

theorem dropWhile_eq_self {f : Char → Bool} {w : List Char} (h : ∀ x ∈ w.head?, f x = false) :
    w.dropWhile f = w := by
  cases w with
  | nil => rfl
  | cons x w => exact List.dropWhile_cons_of_neg (by simp [h x rfl])

theorem trim_eq_self {w : List Char} (hfront : ∀ x ∈ w.head?, isBlank x = false)
    (hback : ∀ x ∈ w.getLast?, isBlank x = false) : trim w = w := by
  have hend : w.reverse.dropWhile isBlank = w.reverse := by
    apply dropWhile_eq_self
    rwa [List.head?_reverse]
  rw [trim, trimStart, dropWhile_eq_self hfront, trimEnd, hend, List.reverse_reverse]

theorem isBlank_of_isAlphanum {x : Char} (h : x.isAlphanum) : isBlank x = false := by
  have hbetween : ∀ {lo hi : UInt32}, lo ≤ x.val → x.val ≤ hi → lo.toNat ≤ x.toNat ∧ x.toNat ≤ hi.toNat :=
    fun hlo hhi => ⟨UInt32.le_iff_toNat_le.mp hlo, UInt32.le_iff_toNat_le.mp hhi⟩
  have hrange : 48 ≤ x.toNat ∧ x.toNat ≤ 122 := by
    rcases (Bool.or_eq_true _ _).mp h with hletter | hdigit
    · rcases (Bool.or_eq_true _ _).mp hletter with hupper | hlower
      · obtain ⟨hlo, hhi⟩ := of_decide_eq_true hupper
        have hletter : 65 ≤ x.toNat ∧ x.toNat ≤ 90 := hbetween hlo hhi
        omega
      · obtain ⟨hlo, hhi⟩ := (Bool.and_eq_true _ _).mp hlower
        have hletter : 97 ≤ x.toNat ∧ x.toNat ≤ 122 := hbetween (of_decide_eq_true hlo) (of_decide_eq_true hhi)
        omega
    · obtain ⟨hlo, hhi⟩ := (Bool.and_eq_true _ _).mp hdigit
      have hdigit : 48 ≤ x.toNat ∧ x.toNat ≤ 57 := hbetween (of_decide_eq_true hlo) (of_decide_eq_true hhi)
      omega
  simp [isBlank, UInt32.le_iff_toNat_le, ← UInt32.toNat_inj]
  omega

end Text

def markupBlanks : List Char := [' ', '\t', '\n', '\r']

theorem mem_markupBlanks {x : Char} : x ∈ markupBlanks ↔ grammar.blank x := by
  simp [markupBlanks, grammar, or_assoc]

/-- Blanks beside a text that has none around it are no text at all. -/
theorem trimmed_padded {front word back : List Char} (h : Trimmed markupBlanks (front ++ word ++ back))
    (hfront : ∀ x ∈ front, grammar.blank x) (hback : ∀ x ∈ back, grammar.blank x) : front = [] ∧ back = [] := by
  constructor
  · cases front with
    | nil => rfl
    | cons x front => exact absurd (mem_markupBlanks.mpr (hfront x (by simp))) (h.head x (by simp))
  · rcases List.eq_nil_or_concat back with rfl | ⟨back, x, rfl⟩
    · rfl
    · exact absurd (mem_markupBlanks.mpr (hback x (by simp))) (h.last x (by simp))

/-- A markup of one part, which may have blanks around it, is nothing but that part if it has none. -/
theorem parts_single {r : Rule} {a : Expr Rule} {rules : List Rule} {pairs : List (Pair Rule)}
    (hkind : grammar.kind r = .plain) (hbody : grammar.body r = .start ++ a ++ call endOfInput)
    (hrules : endOfInput ∉ rules)
    (ha : ∀ {s t : State Rule}, Derives grammar .top a s t → ∃ q, s.Takes t q.text [q] ∧ q.rule ∈ rules)
    (htext : Trimmed markupBlanks text) (h : grammar.parse r text = .ok pairs) :
    ∃ p value, pairs = [p] ∧ Markup.parts p = [value] ∧ value.rule ∈ rules ∧ value.text = text := by
  obtain ⟨p, t, rfl, _, _, h, htakes⟩ := Grammar.parse_ok h (by rw [hkind]; rfl)
  rw [hkind, hbody] at h
  change Derives grammar .top _ _ _ at h
  cases h with
  | @seq _ _ u _ _ _ h hfinish =>
      cases h with
      | seq hstart hvalue =>
          cases hstart
          obtain ⟨front, hfront, hfrontBlank⟩ := (Grammar.initial text).takes_skip .top grammar.blank
          obtain ⟨back, hback, hbackBlank⟩ := u.takes_skip .top grammar.blank
          obtain ⟨value, hvalue, hrule⟩ := ha hvalue
          obtain ⟨hrest, _⟩ := hfinish.rest_call_finish rfl
          obtain ⟨finish, hfinish, hrule', _⟩ := hfinish.takes_call (by decide) rfl
          have hpadded := (hfront.trans hvalue).trans hback
          obtain ⟨_, hchildren⟩ := htakes.unique (hpadded.trans hfinish)
          have htext' : text = front ++ value.text ++ back := by
            have heq := hpadded.rest_eq
            rwa [hrest, List.append_nil] at heq
          obtain ⟨rfl, rfl⟩ := trimmed_padded (htext' ▸ htext) hfrontBlank hbackBlank
          have hvalue : value.rule ≠ .endOfInput := fun heq => hrules (heq ▸ hrule)
          exact ⟨p, value, rfl, by simp [Markup.parts, hchildren, hvalue, hrule'], hrule, by simp [htext']⟩

theorem takes_line {c : Context} {s t : State Rule} (hc : c.atomicity ≠ .spaced)
    (h : Derives grammar c (grammar.body statementMarkup) s t) :
    ∃ v, s.Takes t v [] ∧ Trimmed markupBlanks v := by
  refine h.takes_words hc rfl rfl rfl rfl ?_
  intro c s r x rest h hrest
  obtain ⟨_, hspace, h⟩ := h.alt
  obtain ⟨_, h, hreturn⟩ := h.alt
  obtain ⟨_, hfeed, _⟩ := h.alt
  have hspace : x ∉ [' ', '\t'] := (hspace.silent rfl).not_letter rfl hrest
  have hfeed : x ∉ ['\n'] := hfeed.not_letter rfl hrest
  have hreturn : x ∉ ['\r'] := hreturn.not_letter rfl hrest
  simp_all [markupBlanks]

theorem takes_dropMarkup {c : Context} {s t : State Rule} (hc : c.atomicity ≠ .spaced)
    (h : Derives grammar c (grammar.body dropMarkup) s t) :
    ∃ v, s.Takes t v [] ∧ Trimmed spaceLetters v := by
  refine h.takes_words hc rfl rfl rfl rfl ?_
  intro c s r x rest h hrest
  obtain ⟨_, h, _⟩ := h.alt
  obtain ⟨_, h, _⟩ := h.alt
  exact (h.silent rfl).not_letter (by decide) hrest

theorem trimmed_markupBlanks {w : List Char} (h : Trimmed spaceLetters w) : Trimmed markupBlanks w := by
  have hsub : markupBlanks <+: spaceLetters := ⟨['\x0c'], rfl⟩
  constructor
  · intro x hx hmem
    exact h.head x hx (hsub.subset hmem)
  · intro x hx hmem
    exact h.last x hx (hsub.subset hmem)

def Rule.isMarkup (r : Rule) : Bool := r == .dropMarkup || Token.isTagMarkupRule r

theorem isMarkup_cases (r : Rule) :
    r.isMarkup → r = .dropMarkup ∨ r = .tagMarkup ∨ r = .statementMarkup := by
  cases r <;> decide

theorem trimmed_markup (h : Grown grammar text p) (hp : p.rule.isMarkup) :
    Trimmed markupBlanks p.text := by
  cases h with
  | @mk c s t r _ _ _ _ h _ =>
      have hatomic : (c.inside .atomic).atomicity ≠ .spaced := Atomicity.noConfusion
      have htakes : ∃ v, s.Takes t v [] ∧ Trimmed markupBlanks v := by
        rcases isMarkup_cases r hp with rfl | rfl | rfl
        · obtain ⟨v, hv, htrimmed⟩ := takes_dropMarkup hatomic h
          exact ⟨v, hv, trimmed_markupBlanks htrimmed⟩
        · obtain ⟨v, hv, htrimmed⟩ := takes_tagMarkup hatomic h
          exact ⟨v, hv, trimmed_markupBlanks htrimmed⟩
        · exact takes_line hatomic h
      obtain ⟨v, hv, htrimmed⟩ := htakes
      rw [← hv.consumed_eq] at htrimmed
      exact htrimmed

namespace Rule

def visible : Rule → Bool
  | idStart | idChar | identifier | lookupName | filterName | argumentName | string | number | literal
  | range | rangeBound | variableLookup | bracketLookup | expression | liquidVariable | filter
  | argument | namedArgument => true
  | _ => false

/-- What a variable is made of starts and ends with characters that are seen. -/
theorem edges_visible (d : Edge) (r : Rule) (h : r.visible) :
    (grammar.body r).edges d (fun x => !isBlank x) solid visible := by
  have hboth : ∀ x : Char, x.isAlphanum → !isBlank x := by
    intro x hx
    rw [isBlank_of_isAlphanum hx]
    rfl
  have hletter : ∀ x : Char, x.isAlpha → !isBlank x :=
    fun x hx => hboth x (by simp [Char.isAlphanum, hx])
  have hdigit : ∀ x : Char, x.isDigit → !isBlank x :=
    fun x hx => hboth x (by simp [Char.isAlphanum, hx])
  simp [isBlank] at hletter hdigit hboth
  cases r <;> try cases h
  all_goals
    cases d <;>
      simp [grammar, Rule.body, Expr.edges, Edge.outer, Edge.inner, Edge.char?, HAppend.hAppend,
        Append.append, HOr.hOr, OrOp.or, lit, whole, plus, alpha, digit, alphanumeric, placeholder,
        visible, solid, eats, isBlank]
  all_goals assumption

end Rule

theorem edges_liquidVariable {c : Context} {s t : State Rule} (d : Edge)
    (h : Derives grammar c (call liquidVariable) s t) :
    ∀ x ∈ d.char? (s.consumed t), grammar.blank x = false → isBlank x = false := by
  intro x hx hblank
  rcases h.edges eats_body (edges_visible d) rfl x hx with hx | hx
  · simpa using hx
  · rw [hx] at hblank
    cases hblank

/-- A markup that ends with a variable, and has no blanks around it, has none around the variable. -/
theorem trim_lastVariable {r : Rule} {a : Expr Rule} {pairs : List (Pair Rule)}
    (hkind : grammar.kind r = .plain) (hbody : grammar.body r = a ++ call liquidVariable ++ call endOfInput)
    (htext : Trimmed markupBlanks text) (h : grammar.parse r text = .ok pairs) :
    ∃ p before value finish, pairs = [p] ∧ p.children = before ++ [value, finish] ∧
      value.rule = .liquidVariable ∧ finish.rule = .endOfInput ∧ trim value.text = value.text ∧
      ∃ s u w, Derives grammar .top a s u ∧ s.Takes u w before := by
  obtain ⟨p, t, rfl, _, _, h, htakes⟩ := Grammar.parse_ok h (by rw [hkind]; rfl)
  rw [hkind, hbody] at h
  change Derives grammar .top _ _ _ at h
  cases h with
  | @seq _ _ u _ _ _ h hfinish =>
      cases h with
      | @seq _ _ v _ _ _ ha hvalue =>
          obtain ⟨before, ps, hbefore, _⟩ := ha.takes
          obtain ⟨front, hfront, _⟩ := v.takes_skip .top grammar.blank
          obtain ⟨back, hback, hblank⟩ := u.takes_skip .top grammar.blank
          have hedges := fun d => edges_liquidVariable d hvalue
          obtain ⟨value, hvalue, hrule, _⟩ := hvalue.takes_call (by decide) rfl
          obtain ⟨hrest, _⟩ := hfinish.rest_call_finish rfl
          obtain ⟨finish, hfinish, hrule', _⟩ := hfinish.takes_call (by decide) rfl
          have hvalue' := ((hbefore.trans hfront).trans hvalue).trans hback
          obtain ⟨_, hchildren⟩ := htakes.unique (hvalue'.trans hfinish)
          have htext' : text = before ++ front ++ value.text ++ back := by
            have heq := hvalue'.rest_eq
            rwa [hrest, List.append_nil] at heq
          have hback' : back = [] := by
            rcases List.eq_nil_or_concat back with rfl | ⟨init, x, rfl⟩
            · rfl
            · have hlast := htext.last x (by rw [htext']; simp)
              exact absurd (mem_markupBlanks.mpr (hblank x (by simp))) hlast
          rw [hback', List.append_nil] at htext'
          refine ⟨p, ps, value, finish, rfl, by simpa using hchildren, hrule, hrule', ?_, _, _, _, ha, hbefore⟩
          rw [hvalue.consumed_eq] at hedges
          apply trim_eq_self
          · intro x hx
            apply hedges .front x hx
            apply v.forall_head?_skip (c := .top) rfl
            rw [hvalue.rest_eq, List.head?_append, Option.mem_def.mp hx]
            rfl
          · intro x hx
            apply hedges .back x hx
            have hlast := htext.last x (by rw [htext', List.getLast?_append, Option.mem_def.mp hx]; rfl)
            rw [mem_markupBlanks] at hlast
            simpa using hlast

theorem parts_markupVariable {pairs : List (Pair Rule)} (htext : Trimmed markupBlanks text)
    (h : grammar.parse .markupVariable text = .ok pairs) :
    ∃ p value, pairs = [p] ∧ Markup.parts p = [value] ∧ value.rule = .liquidVariable ∧
      trim value.text = value.text := by
  obtain ⟨p, before, value, finish, hp, hchildren, hvalue, hfinish, htrim, s, u, w, hstart, htakes⟩ :=
    trim_lastVariable (a := .start) rfl rfl htext h
  cases hstart
  obtain ⟨_, rfl⟩ := htakes.unique (.idle s.attempts)
  exact ⟨p, value, hp, by simp [Markup.parts, hchildren, hvalue, hfinish], hvalue, htrim⟩

theorem parts_markupAssign {pairs : List (Pair Rule)} (htext : Trimmed markupBlanks text)
    (h : grammar.parse .markupAssign text = .ok pairs) :
    ∃ p name value, pairs = [p] ∧ Markup.parts p = [name, value] ∧ value.rule = .liquidVariable ∧
      trim value.text = value.text := by
  obtain ⟨p, before, value, finish, hp, hchildren, hvalue, hfinish, htrim, s, u, w, h, htakes⟩ :=
    trim_lastVariable (a := .start ++ call variableName ++ lit "=") rfl rfl htext h
  cases h with
  | @seq _ _ v _ _ _ h hequals =>
      cases h with
      | seq hstart hname =>
          cases hstart
          obtain ⟨_, hskip, _⟩ := s.takes_skip .top grammar.blank
          obtain ⟨_, hskip', _⟩ := v.takes_skip .top grammar.blank
          obtain ⟨name, hname, hrule, _⟩ := hname.takes_call (by decide) rfl
          obtain ⟨_, rfl⟩ := htakes.unique (((hskip.trans hname).trans hskip').trans hequals.takes_word)
          exact ⟨p, name, value, hp, by simp [Markup.parts, hchildren, hrule, hvalue, hfinish], hvalue, htrim⟩

end LiquidTemplate
