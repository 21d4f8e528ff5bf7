import LiquidTemplate.Markup.Reader
import LiquidTemplate.Proofs.Rule.Dash

namespace LiquidTemplate

open Text
open Peg Peg.Expr Rule

namespace Text

def isQuote (x : Char) : Bool := x == '\'' || x == '"'

/-- The characters of a text that stand outside quoted strings, from where the string with the given quote
mark is open, if any.  Quote marks themselves are left out. -/
def outsideQuotes : Option Char → List Char → List Char
  | _, [] => []
  | none, x :: w => if isQuote x then outsideQuotes (some x) w else x :: outsideQuotes none w
  | some mark, x :: w => if x == mark then outsideQuotes none w else outsideQuotes (some mark) w

/-- Every string that is opened in the text is closed in it, and outside of the strings it has the
characters `bare`. -/
def Balanced (w bare : List Char) : Prop :=
  ∀ rest, outsideQuotes none (w ++ rest) = bare ++ outsideQuotes none rest

variable {v w bare bare' body : List Char}

theorem Balanced.append (hv : Balanced v bare) (hw : Balanced w bare') : Balanced (v ++ w) (bare ++ bare') := by
  intro rest
  rw [List.append_assoc, hv, hw, List.append_assoc]

theorem Balanced.unique (h : Balanced w bare) (h' : Balanced w bare') : bare = bare' := by
  have heq := (h []).symm.trans (h' [])
  simpa [outsideQuotes] using heq

theorem balanced_of_unquoted (h : ∀ x ∈ w, isQuote x = false) : Balanced w w := by
  intro rest
  induction w with
  | nil => rfl
  | cons x w ih =>
      obtain ⟨hx, hw⟩ := List.forall_mem_cons.mp h
      simp [outsideQuotes, hx, ih hw]

theorem outsideQuotes_body {mark : Char} (h : mark ∉ body) (rest : List Char) :
    outsideQuotes (some mark) (body ++ mark :: rest) = outsideQuotes none rest := by
  induction body with
  | nil => simp [outsideQuotes]
  | cons x body ih =>
      obtain ⟨hx, hbody⟩ := not_or.mp (mt List.mem_cons.mpr h)
      simp [outsideQuotes, Ne.symm hx, ih hbody]

theorem balanced_quoted {mark : Char} (hmark : isQuote mark) (h : mark ∉ body) :
    Balanced ([mark] ++ body ++ [mark]) [] := by
  intro rest
  simp [outsideQuotes, hmark, outsideQuotes_body h]

end Text

def NamesOf (bare : List Char) (ps : List (Pair Rule)) : Prop :=
  ∀ p ∈ ps, ∀ q ∈ p.flatten, Markup.isNameRule q.rule → q.text ⊆ bare

theorem mem_flattenAll {q : Pair Rule} {ps : List (Pair Rule)} :
    q ∈ Pair.flattenAll ps ↔ ∃ p ∈ ps, q ∈ p.flatten := by
  induction ps with
  | nil => simp [Pair.flattenAll]
  | cons p ps ih => simp [Pair.flattenAll, ih]

theorem mem_flatten {p q : Pair Rule} : q ∈ p.flatten ↔ q = p ∨ ∃ child ∈ p.children, q ∈ child.flatten := by
  obtain ⟨rule, start, stop, text, children⟩ := p
  simp [Pair.flatten, mem_flattenAll]

def Peg.Expr.bare (known : Rule → Bool) : Expr Rule → Bool
  | word w => w.all (!isQuote ·)
  | char f => !f '\'' && !f '"'
  | start | finish | ahead _ | notAhead _ => true
  | seq a b | alt a b => a.bare known && b.bare known
  | opt a | many a | again a => a.bare known
  | call r => known r
  | _ => false

def Rule.inMarkup : Rule → Bool
  | endOfInput | idStart | idChar | identifier | variableName | filterName | argumentName | lookupName
  | string | number | literal | range | rangeBound | variableLookup | bracketLookup | expression
  | liquidVariable | filter | argument | namedArgument | condition | comparison | comparator
  | logicalOperator | kwIn | kwBy | kwAs | reversed | renderKind | cycleGroup | renderSnippet
  | renderVariable | renderAlias | markupVariable | markupCondition | markupAssign | markupVariableName
  | markupCase | markupWhen | markupFor | markupCycle | markupRender | markupPaginate | markupContentFor
  | markupForm | markupLayout | markupString => true
  | _ => false

theorem bare_body (r : Rule) (hr : r.inMarkup) (hstring : r ≠ .string) :
    (grammar.body r).bare Rule.inMarkup := by
  revert hr hstring
  cases r <;> decide

variable {c : Context} {e : Expr Rule} {s t : State Rule}

/-- The match takes a text in which every string is closed, and leaves pairs whose names stand outside the
strings. -/
def TakesBalanced (s t : State Rule) : Prop :=
  ∃ w ps bare, s.Takes t w ps ∧ Balanced w bare ∧ NamesOf bare ps

theorem TakesBalanced.trans {u : State Rule} (hst : TakesBalanced s t) (htu : TakesBalanced t u) :
    TakesBalanced s u := by
  obtain ⟨v, ps, bare, hv, hbare, hps⟩ := hst
  obtain ⟨w, qs, bare', hw, hbare', hqs⟩ := htu
  refine ⟨v ++ w, ps ++ qs, bare ++ bare', hv.trans hw, hbare.append hbare', ?_⟩
  intro p hp q hq hname
  rcases List.mem_append.mp hp with hp | hp
  · exact List.subset_append_of_subset_left _ (hps p hp q hq hname)
  · exact List.subset_append_of_subset_right _ (hqs p hp q hq hname)

theorem takesBalanced_of_unquoted {w : List Char} (h : s.Takes t w []) (hw : ∀ x ∈ w, isQuote x = false) :
    TakesBalanced s t :=
  ⟨w, [], w, h, balanced_of_unquoted hw, by simp [NamesOf]⟩

theorem isQuote_of_blank {x : Char} (h : grammar.blank x) : isQuote x = false := by
  simp only [grammar, Bool.or_eq_true, beq_iff_eq] at h
  rcases h with ((rfl | rfl) | rfl) | rfl <;> rfl

theorem takesBalanced_skip (s : State Rule) (c : Context) : TakesBalanced s (s.skip c grammar.blank) := by
  obtain ⟨v, hv, hblank⟩ := s.takes_skip c grammar.blank
  exact takesBalanced_of_unquoted hv fun x hx => isQuote_of_blank (hblank x hx)

theorem takesBalanced_idle (s : State Rule) (a : Attempts Rule) : TakesBalanced s { s with attempts := a } :=
  takesBalanced_of_unquoted (.idle a) (by simp)

theorem isQuote_of_isNameChar {x : Char} (h : isNameChar x) : isQuote x = false := by
  rw [isQuote, Bool.or_eq_false_iff, beq_eq_false_iff_ne, beq_eq_false_iff_ne]
  constructor
  · rintro rfl
    exact absurd h (by decide)
  · rintro rfl
    exact absurd h (by decide)

theorem unquoted_name {r : Rule} (hr : Markup.isNameRule r) (hc : c.atomicity ≠ .spaced)
    (h : Derives grammar c (grammar.body r) s t) : ∃ w, s.Takes t w [] ∧ ∀ x ∈ w, isQuote x = false := by
  have hname : ∀ {s t}, Derives grammar c (call idStart ++ many (call idChar)) s t →
      ∃ w, s.Takes t w [] ∧ ∀ x ∈ w, isQuote x = false := by
    intro s t h
    obtain ⟨x, v, hv, _, hchars⟩ := takes_startedName hc h
    exact ⟨x :: v, hv, fun y hy => isQuote_of_isNameChar (hchars y hy)⟩
  have hasked : Derives grammar c (call idStart ++ many (call idChar) ++ opt (lit "?")) s t →
      ∃ w, s.Takes t w [] ∧ ∀ x ∈ w, isQuote x = false := by
    intro h
    obtain ⟨u, h, hmark⟩ := h.seq_meets hc
    obtain ⟨w, hw, hquotes⟩ := hname h
    rcases hmark.takes_opt with hmark | hmark
    · refine ⟨_, hw.trans hmark.takes_word, List.forall_mem_append.mpr ⟨hquotes, ?_⟩⟩
      simp [isQuote]
    · exact ⟨_, hw.trans hmark, by simpa using hquotes⟩
  cases r with
  | identifier | lookupName => exact hasked h
  | variableName | filterName | argumentName => exact hname h
  | _ => cases hr

/-- What stands between the quote marks of a string has no such mark in it. -/
theorem takes_quotedBody {r : Rule} {mark : Char} (hkind : grammar.kind r = .atomic)
    (hname : Markup.isNameRule r = false) (hbody : grammar.body r = until0 (word [mark]))
    (h : Derives grammar c (call r) s t) : ∃ w ps, s.Takes t w ps ∧ mark ∉ w ∧ NamesOf [] ps := by
  have htakes : ∀ {s t}, Derives grammar (c.inside .atomic) (until0 (word [mark])) s t →
      ∃ w, s.Takes t w [] ∧ mark ∉ w := by
    intro s t h
    have hround : ∀ {s t}, Derives grammar (c.inside .atomic) (notAhead (word [mark]) ++ any) s t →
        ∃ w, s.Takes t w [] ∧ mark ∉ w := by
      intro s t h
      obtain ⟨u, hahead, hany⟩ := h.seq_meets Atomicity.noConfusion
      cases hahead with
      | notAhead hfails =>
          cases hany with
          | @char _ _ _ x rest hrest =>
              refine ⟨[x], ⟨hrest, by simp [State.advance], rfl⟩, ?_⟩
              rintro hmem
              rw [← List.mem_singleton.mp hmem] at hrest
              exact hfails.not_word rest hrest
    obtain ⟨ws, hws, hmarks⟩ := h.takes_many Atomicity.noConfusion hround
    refine ⟨ws.flatten, hws, ?_⟩
    intro hmem
    obtain ⟨w, hw, hmem⟩ := List.mem_flatten.mp hmem
    exact hmarks w hw hmem
  cases h with
  | silent hsilent => exact absurd (hkind.symm.trans hsilent) (by decide)
  | pair _ _ h =>
      rw [hkind, hbody] at h
      obtain ⟨w, hw, hmark⟩ := htakes h
      refine ⟨w, [_], ⟨hw.rest_eq, hw.offset_eq, rfl⟩, hmark, ?_⟩
      rw [NamesOf, List.forall_mem_singleton]
      have hnone := hw.pairs_eq
      intro q hq hqname
      rcases mem_flatten.mp hq with rfl | ⟨child, hchild, _⟩
      · exact absurd hqname (by simp [hname])
      · simp [hnone] at hchild
  | hidden _ _ h =>
      rw [hkind, hbody] at h
      obtain ⟨w, hw, hmark⟩ := htakes h
      exact ⟨w, [], ⟨hw.rest_eq, hw.offset_eq, hw.pairs_eq⟩, hmark, by simp [NamesOf]⟩

theorem takesBalanced_string (hc : c.atomicity ≠ .spaced) (h : Derives grammar c (grammar.body string) s t) :
    ∃ w ps, s.Takes t w ps ∧ Balanced w [] ∧ NamesOf [] ps := by
  have hquoted : ∀ {r : Rule} {mark : Char} {s t : State Rule}, isQuote mark → grammar.kind r = .atomic →
      Markup.isNameRule r = false → grammar.body r = until0 (word [mark]) →
      Derives grammar c (word [mark] ++ call r ++ word [mark]) s t →
      ∃ w ps, s.Takes t w ps ∧ Balanced w [] ∧ NamesOf [] ps := by
    intro r mark s t hmark hkind hname hbody h
    obtain ⟨u, h, hclose⟩ := h.seq_meets hc
    obtain ⟨v, hopen, h⟩ := h.seq_meets hc
    obtain ⟨w, ps, hw, hnot, hps⟩ := takes_quotedBody hkind hname hbody h
    refine ⟨_, _, (hopen.takes_word.trans hw).trans hclose.takes_word, balanced_quoted hmark hnot, ?_⟩
    simpa using hps
  cases h with
  | first h => exact hquoted rfl rfl rfl rfl h
  | second _ h =>
      obtain ⟨w, ps, hw, hbalanced, hps⟩ := hquoted rfl rfl rfl rfl h
      exact ⟨w, ps, ⟨hw.rest_eq, hw.offset_eq, hw.pairs_eq⟩, hbalanced, hps⟩

/-- The body of a rule of markup closes the strings that it opens, if all that it uses does, and the pair of
the rule is as good as the pairs in it. -/
theorem takesBalanced_body {r : Rule} (hr : r.inMarkup)
    (hbody : (grammar.body r).bare Rule.inMarkup → TakesBalanced s t)
    (h : Derives grammar (c.inside (grammar.kind r)) (grammar.body r) s t) :
    ∃ w ps bare, s.Takes t w ps ∧ Balanced w bare ∧ NamesOf bare ps ∧
      (Markup.isNameRule r → w ⊆ bare) := by
  by_cases hstring : r = .string
  · subst hstring
    obtain ⟨w, ps, hw, hbalanced, hps⟩ := takesBalanced_string Atomicity.noConfusion h
    exact ⟨w, ps, [], hw, hbalanced, hps, nofun⟩
  · obtain ⟨w, ps, bare, hw, hbalanced, hps⟩ := hbody (bare_body r hr hstring)
    refine ⟨w, ps, bare, hw, hbalanced, hps, ?_⟩
    intro hname
    have hkind : grammar.kind r = .atomic := by
      revert hname
      cases r <;> decide
    rw [hkind] at h
    obtain ⟨w', hw', hquotes⟩ := unquoted_name hname Atomicity.noConfusion h
    obtain ⟨rfl, _⟩ := hw.unique hw'
    rw [hbalanced.unique (balanced_of_unquoted hquotes)]
    exact List.Subset.refl w

/-- Whatever matches in markup closes the strings that it opens, and has its names outside of them. -/
theorem takesBalanced_of_bare (h : Derives grammar c e s t) (he : e.bare Rule.inMarkup) : TakesBalanced s t := by
  induction h with
  | @word c s w rest hrest =>
      refine takesBalanced_of_unquoted (w := w) ⟨stripWord?_eq_some hrest, rfl, rfl⟩ ?_
      simpa [bare] using he
  | @char c s f x xs hrest hx =>
      refine takesBalanced_of_unquoted (w := [x]) ⟨hrest, by simp [State.advance], rfl⟩ ?_
      simp only [bare, Bool.and_eq_true, Bool.not_eq_true'] at he
      rw [List.forall_mem_singleton, isQuote, Bool.or_eq_false_iff, beq_eq_false_iff_ne, beq_eq_false_iff_ne]
      constructor
      · rintro rfl
        exact absurd (he.1.symm.trans hx) (by decide)
      · rintro rfl
        exact absurd (he.2.symm.trans hx) (by decide)
  | start | finish => exact takesBalanced_idle _ _
  | @seq c s t u a b _ _ iha ihb =>
      simp only [bare, Bool.and_eq_true] at he
      exact ((iha he.1).trans (takesBalanced_skip t c)).trans (ihb he.2)
  | first _ ih =>
      simp only [bare, Bool.and_eq_true] at he
      exact ih he.1
  | second _ _ ih =>
      simp only [bare, Bool.and_eq_true] at he
      exact (takesBalanced_idle _ _).trans (ih he.2)
  | present _ ih => exact ih he
  | absent | none | last | ahead | notAhead => exact takesBalanced_idle _ _
  | some _ _ iha ihb => exact (iha he).trans (ihb he)
  | @next c s t u a _ _ iha ihb => exact ((takesBalanced_skip s c).trans (iha he)).trans (ihb he)
  | silent hkind _ ih =>
      refine ih (bare_body _ he ?_)
      rintro rfl
      cases hkind
  | @pair c s t r _ _ h ih =>
      obtain ⟨w, ps, bare, hw, hbalanced, hps, hname⟩ := takesBalanced_body he ih h
      have htext : s.consumed t = w := hw.consumed_eq
      have hchildren : t.pairs.reverse = ps := by
        rw [hw.pairs_eq, List.append_nil, List.reverse_reverse]
      refine ⟨w, [_], bare, ⟨hw.rest_eq, hw.offset_eq, rfl⟩, hbalanced, ?_⟩
      rw [NamesOf, List.forall_mem_singleton, htext, hchildren]
      intro q hq hqname
      rcases mem_flatten.mp hq with rfl | ⟨child, hchild, hq⟩
      · exact hname hqname
      · exact hps child hchild q hq hqname
  | hidden _ _ h ih =>
      obtain ⟨w, ps, bare, hw, hbalanced, hps, _⟩ := takesBalanced_body he ih h
      exact ⟨w, ps, bare, ⟨hw.rest_eq, hw.offset_eq, hw.pairs_eq⟩, hbalanced, hps⟩
  | caseless | push | top | pop => cases he

/-- The names of a markup are made of characters that stand outside quoted strings. -/
theorem names_outsideQuotes {rule : Rule} {text : List Char} {pairs : List (Pair Rule)} (hrule : rule.inMarkup)
    (h : grammar.parse rule text = .ok pairs) : NamesOf (outsideQuotes none text) pairs := by
  unfold Grammar.parse at h
  split at h
  · rename_i t hrun
    cases h
    obtain ⟨w, ps, bare, hw, hbalanced, hps⟩ :=
      takesBalanced_of_bare (e := .call rule) (Derives.of_run hrun) hrule
    have htext : outsideQuotes none text = bare ++ outsideQuotes none t.rest := by
      rw [← hbalanced t.rest, ← hw.rest_eq]
      rfl
    have hpairs : t.pairs.reverse = ps := by
      rw [hw.pairs_eq, Grammar.initial, List.append_nil, List.reverse_reverse]
    rw [hpairs, htext]
    intro p hp q hq hname
    exact List.subset_append_of_subset_left _ (hps p hp q hq hname)
  · cases h
  · cases h

end LiquidTemplate
