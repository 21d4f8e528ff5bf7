import LiquidTemplate.Proofs.Peg.Edges
import LiquidTemplate.Proofs.Peg.Greedy
import LiquidTemplate.Proofs.Peg.Runs
import LiquidTemplate.Proofs.Rule.Tag

namespace LiquidTemplate

open Text
open Peg Peg.Expr Rule

def isNameChar (x : Char) : Bool := x.isAlphanum || x == '_' || x == '-' || x == placeholder

def isNameStart (x : Char) : Bool := x.isAlpha || x == '_' || x == placeholder

theorem isNameChar_of_isNameStart {x : Char} (h : isNameStart x) : isNameChar x := by
  simp only [isNameStart, Bool.or_eq_true] at h
  rcases h with (h | h) | h <;> simp [isNameChar, Char.isAlphanum, h]

def dashEnd : List Char := ['-', '%', '}']

structure Dashed (before : Bool) (name rest word : List Char) : Prop where
  text_eq : ∃ blanks, (∀ x ∈ blanks, x ∈ spaceLetters) ∧
    word = ['{', '%'] ++ dash before ++ blanks ++ (name ++ (dashEnd ++ rest))
  start : ∃ x ∈ name.head?, isNameStart x
  chars : ∀ x ∈ name, isNameChar x

variable {c : Context} {s t : State Rule} {r : Rule} {name blanks rest more : List Char} {b : Bool}

theorem takes_idChar (h : Derives grammar c (call idChar) s t) : ∃ x, s.Takes t [x] [] ∧ isNameChar x := by
  cases h with
  | silent _ h => exact h.takes_test rfl
  | pair hkind | hidden hkind => exact absurd rfl hkind

theorem takes_idStart (h : Derives grammar c (call idStart) s t) : ∃ x, s.Takes t [x] [] ∧ isNameStart x := by
  cases h with
  | silent _ h => exact h.takes_test rfl
  | pair hkind | hidden hkind => exact absurd rfl hkind

theorem takes_startedName (hc : c.atomicity ≠ .spaced)
    (h : Derives grammar c (call idStart ++ many (call idChar)) s t) :
    ∃ x v, s.Takes t (x :: v) [] ∧ isNameStart x ∧ ∀ y ∈ x :: v, isNameChar y := by
  obtain ⟨u, hfirst, hmore⟩ := h.seq_meets hc
  obtain ⟨x, hx, hstart⟩ := takes_idStart hfirst
  have hround : ∀ {s t}, Derives grammar c (call idChar) s t → ∃ w, s.Takes t w [] ∧ ∀ x ∈ w, isNameChar x := by
    intro s t h
    obtain ⟨y, hy, hchar⟩ := takes_idChar h
    exact ⟨[y], hy, by simpa using hchar⟩
  obtain ⟨ws, hws, hchars⟩ := hmore.takes_many hc hround
  refine ⟨x, ws.flatten, hx.trans hws, hstart, List.forall_mem_cons.mpr ⟨isNameChar_of_isNameStart hstart, ?_⟩⟩
  intro y hy
  obtain ⟨w, hw, hy⟩ := List.mem_flatten.mp hy
  exact hchars w hw y hy

theorem not_isNameChar {a : Attempts Rule} {x : Char} (h : Fails grammar c (call idChar) s a)
    (hs : s.rest = x :: rest) : isNameChar x = false :=
  (h.silent rfl).not_test rfl hs

theorem takes_spaces_eq (hc : c.atomicity ≠ .spaced) (hblanks : ∀ x ∈ blanks, x ∈ spaceLetters)
    (hmore : ∀ x ∈ more.head?, x ∉ spaceLetters) (h : Derives grammar c spaces s t)
    (hs : s.rest = blanks ++ more) : s.Takes t blanks [] := by
  have hletter : ∀ {s t}, Derives grammar c (call space) s t → ∃ x ∈ spaceLetters, s.Takes t [x] [] := by
    intro s t h
    cases h with
    | silent _ h => exact h.takes_letter (by decide)
    | pair hkind | hidden hkind => exact absurd rfl hkind
  have ht : t.rest = more := by
    refine Derives.rest_many (f := (· ∈ spaceLetters)) hc ?_ ?_ ?_ h hblanks hs
    · intro s t x rest hs h
      obtain ⟨y, _, htakes⟩ := hletter h
      have heq := htakes.rest_eq
      rw [hs] at heq
      exact (List.cons.inj heq).2.symm
    · intro s r x xs hxs hs h
      exact (h.silent rfl).not_letter (by decide) hs (hxs x (by simp))
    · intro s t hs h
      obtain ⟨y, hy, htakes⟩ := hletter h
      have heq := htakes.rest_eq
      rw [hs] at heq
      exact hmore y (by simp [heq]) hy
  obtain ⟨w, hw, _⟩ := takes_spaces hc h
  rwa [hw.word_of hs ht] at hw

theorem takes_noSpaces (hc : c.atomicity ≠ .spaced) (hs : ∀ x ∈ s.rest.head?, x ∉ spaceLetters)
    (h : Derives grammar c spaces s t) : s.Takes t [] [] :=
  takes_spaces_eq hc (List.forall_mem_nil _) hs h rfl

/-- A name goes on only where the end with whitespace control does not start. -/
theorem rest_notAhead (hc : c.atomicity ≠ .spaced)
    (h : Derives grammar c (notAhead (lit "-" ++ tagStop)) s t) :
    t.rest = s.rest ∧ ∀ rest, s.rest ≠ dashEnd ++ rest := by
  cases h with
  | notAhead h =>
      refine ⟨rfl, fun rest => ?_⟩
      exact h.not_words (by rwa [Context.atomicity_notAhead]) rest

/-- The characters of a name after the first one reach as far as the end with whitespace control. -/
theorem rest_nameTail (hc : c.atomicity ≠ .spaced) (hname : ∀ x ∈ name, isNameChar x)
    (h : Derives grammar c (many (notAhead (lit "-" ++ tagStop) ++ call idChar)) s t)
    (hs : s.rest = name ++ (dashEnd ++ rest)) : t.rest = dashEnd ++ rest := by
  refine Derives.rest_many (f := (isNameChar ·)) hc ?_ ?_ ?_ h hname hs
  · intro s t x rest hs h
    obtain ⟨u, hahead, h⟩ := h.seq_meets hc
    obtain ⟨y, htakes, _⟩ := takes_idChar h
    have heq := htakes.rest_eq
    rw [(rest_notAhead hc hahead).1, hs] at heq
    exact (List.cons.inj heq).2.symm
  · intro s a x xs hxs hs h
    rcases h.seq with h | ⟨u, hahead, h⟩
    · obtain ⟨u, h⟩ := h.notAhead
      obtain ⟨v, hdash, hstop⟩ := h.seq_meets (by rwa [Context.atomicity_notAhead])
      have heq := (hdash.takes_word.trans hstop.takes_word).rest_eq
      rw [hs] at heq
      -- The second character would have to be the percent sign, which is in no name.
      cases xs with
      | nil => cases (List.cons.inj (List.cons.inj heq).2).1
      | cons y xs =>
          have hy : y = '%' := (List.cons.inj (List.cons.inj heq).2).1
          have hchar := hxs y (by simp)
          rw [hy] at hchar
          exact absurd hchar (by decide)
    · rw [State.skip_of_ne_spaced _ _ hc] at h
      have hx := not_isNameChar h ((rest_notAhead hc hahead).1.trans hs)
      rw [hxs x (by simp)] at hx
      cases hx
  · intro s t hs h
    obtain ⟨u, hahead, _⟩ := h.seq_meets hc
    exact (rest_notAhead hc hahead).2 rest hs

theorem rest_longName (hc : c.atomicity ≠ .spaced) (hname : ∀ x ∈ name, isNameChar x)
    (h : Derives grammar c (call idStart ++ many (notAhead (lit "-" ++ tagStop) ++ call idChar)) s t)
    (hs : s.rest = name ++ (dashEnd ++ rest)) : t.rest = dashEnd ++ rest := by
  obtain ⟨u, hstart, h⟩ := h.seq_meets hc
  obtain ⟨x, htakes, hx⟩ := takes_idStart hstart
  have heq := htakes.rest_eq
  rw [hs] at heq
  cases name with
  | nil =>
      have hdash : '-' = x := (List.cons.inj heq).1
      rw [← hdash] at hx
      exact absurd hx (by decide)
  | cons y name => exact rest_nameTail hc (List.forall_mem_cons.mp hname).2 h (List.cons.inj heq).2.symm

theorem rest_closeName (hname : ∀ x ∈ name, isNameChar x) (h : Derives grammar c (call closeName) s t)
    (hs : s.rest = name ++ (dashEnd ++ rest)) : t.rest = dashEnd ++ rest := by
  obtain ⟨s', t', h, hs', ht'⟩ := h.call_body
  rw [← ht']
  exact rest_longName Atomicity.noConfusion hname h (hs'.trans hs)

theorem rest_tagName (hname : ∀ x ∈ name, isNameChar x) (h : Derives grammar c (call tagName) s t)
    (hs : s.rest = name ++ (dashEnd ++ rest)) : t.rest = dashEnd ++ rest := by
  obtain ⟨s', t', h, hs', ht'⟩ := h.call_body
  rw [← ht']
  cases h with
  | first h =>
      have heq := h.takes_word.rest_eq
      rw [hs', hs] at heq
      cases name with
      | nil => cases (List.cons.inj heq).1
      | cons y name =>
          have hy := hname y (by simp)
          rw [(List.cons.inj heq).1] at hy
          exact absurd hy (by decide)
  | second _ h => exact rest_longName Atomicity.noConfusion hname h (hs'.trans hs)

/-- A word that no name character may follow does not stand before the end with whitespace control,
as that starts with a name character. -/
theorem not_dashed_whole {e : Expr Rule} (hkind : grammar.kind r = .atomic) (hbody : grammar.body r = whole e)
    (he : e.spells fun w => w.all Char.isAlpha) (hname : ∀ x ∈ name, isNameChar x)
    (h : Derives grammar c (call r) s t) : s.rest ≠ name ++ (dashEnd ++ rest) := by
  obtain ⟨s', t', h, hs', ht'⟩ := h.call_body
  rw [hkind, hbody] at h
  obtain ⟨u, h, hahead⟩ := h.seq_meets Atomicity.noConfusion
  obtain ⟨w, htakes, hw⟩ := h.takes_spelled he
  have hw : ∀ x ∈ w, x.isAlpha := by simpa using hw
  have hwname : ∀ x ∈ w, isNameChar x := by
    intro x hx
    simp [isNameChar, Char.isAlphanum, hw x hx]
  have hstop : ∀ x ∈ u.rest.head?, isNameChar x = false := by
    intro x hx
    cases hahead with
    | notAhead hfails =>
        obtain ⟨rest', hrest'⟩ := List.head?_eq_some_iff.mp hx
        exact not_isNameChar hfails hrest'
  intro hs
  have heq := htakes.rest_eq
  rw [hs', hs] at heq
  have hdash : '-' ∈ w := by
    have hlong : ∀ x ∈ name ++ ['-'], isNameChar x :=
      List.forall_mem_append.mpr ⟨hname, List.forall_mem_singleton.mpr rfl⟩
    have hsplit : name ++ (dashEnd ++ rest) = (name ++ ['-']) ++ ('%' :: '}' :: rest) := by simp [dashEnd]
    have hpercent : ∀ x ∈ ('%' :: '}' :: rest).head?, isNameChar x = false := by
      rintro x ⟨⟩
      decide
    have hword := congrArg (List.takeWhile isNameChar) heq
    rw [takeWhile_append_stop hwname hstop, hsplit, takeWhile_append_stop hlong hpercent] at hword
    rw [← hword]
    simp
  exact absurd (hw '-' hdash) (by decide)

theorem takes_strip_eq (hkind : grammar.kind r ≠ .silent) (hbody : grammar.body r = lit "-")
    (hc : c.leavesPair) (hmore : ∀ x ∈ more.head?, x ≠ '-') (h : Derives grammar c (.opt (.call r)) s t)
    (hs : s.rest = dash b ++ more) :
    ∃ ps, s.Takes t (dash b) ps ∧ ps.map Pair.rule = if b then [r] else [] := by
  cases h with
  | present h =>
      obtain ⟨p, htakes, hrule, _⟩ := h.takes_call hkind hc
      obtain ⟨s', t', h, hs', ht'⟩ := h.call_body
      rw [hbody] at h
      have heq := h.takes_word.rest_eq
      rw [hs', ht'] at heq
      cases b with
      | false =>
          have hhead : more = '-' :: t.rest := hs.symm.trans heq
          exact absurd rfl (hmore '-' (by simp [hhead]))
      | true =>
          have htext : p.text = dash true := htakes.word_of heq rfl
          rw [htext] at htakes
          exact ⟨[p], htakes, by simp [hrule]⟩
  | absent h =>
      cases b with
      | false => exact ⟨[], .idle _, rfl⟩
      | true =>
          obtain ⟨s', r', h, hs'⟩ := h.call
          rw [hbody] at h
          exact absurd (hs'.trans hs) (h.not_word more)

def tagHead : Expr Rule := tagStart ++ opt (call stripStart) ++ spaces

theorem takes_tagHead (hc : c.leavesPair) (hc' : c.atomicity ≠ .spaced)
    (hblanks : ∀ x ∈ blanks, x ∈ spaceLetters)
    (hmore : ∀ x ∈ more.head?, x ≠ '-' ∧ x ∉ spaceLetters) (h : Derives grammar c tagHead s t)
    (hs : s.rest = ['{', '%'] ++ dash b ++ blanks ++ more) :
    ∃ ps, s.Takes t (['{', '%'] ++ dash b ++ blanks) ps ∧
      ps.map Pair.rule = if b then [stripStart] else [] := by
  obtain ⟨u, h, hspaces⟩ := h.seq_meets hc'
  obtain ⟨v, hstart, hstrip⟩ := h.seq_meets hc'
  rw [List.append_assoc, List.append_assoc] at hs
  have hv := hstart.takes_word.rest_of hs
  have hhead : ∀ x ∈ (blanks ++ more).head?, x ≠ '-' := by
    intro x hx
    cases blanks with
    | nil => exact (hmore x hx).1
    | cons y blanks =>
        cases hx
        rintro rfl
        exact absurd (hblanks '-' (by simp)) (by decide)
  obtain ⟨ps, hps, hrules⟩ := takes_strip_eq (by decide) rfl hc hhead hstrip hv
  have hspaces := takes_spaces_eq hc' hblanks (fun x hx => (hmore x hx).2) hspaces (hps.rest_of hv)
  have hall := (hstart.takes_word.trans hps).trans hspaces
  refine ⟨ps, ?_, hrules⟩
  simpa using hall

theorem head_dashEnd (hs : s.rest = dashEnd ++ rest) : ∀ x ∈ s.rest.head?, x ∉ spaceLetters := by
  rw [hs]
  rintro x ⟨⟩
  decide

theorem not_dashed_markup (h : Derives grammar c (call tagMarkup) s t) : s.rest ≠ dashEnd ++ rest := by
  obtain ⟨s₁, t₁, h, hs₁, _⟩ := h.call_body
  obtain ⟨u₁, _, _, h, _⟩ := h.seq_takes
  obtain ⟨s₂, t₂, h, hs₂, _⟩ := h.call_body
  obtain ⟨u₂, _, _, h, _⟩ := h.seq_takes
  obtain ⟨u₃, _, _, h, _⟩ := h.seq_takes
  cases h with
  | notAhead hfails =>
      obtain ⟨_, hfails, _⟩ := hfails.alt
      obtain ⟨_, _, hfails⟩ := hfails.alt
      intro hs
      exact hfails.not_word rest (hs₂.trans (hs₁.trans hs))

theorem takes_noMarkup (hc : c.atomicity ≠ .spaced) (h : Derives grammar c (opt (spaces ++ call tagMarkup)) s t)
    (hs : s.rest = dashEnd ++ rest) : s.Takes t [] [] := by
  rcases h.takes_opt with h | h
  · obtain ⟨u, hspaces, h⟩ := h.seq_meets hc
    have hu := (takes_noSpaces hc (head_dashEnd hs) hspaces).rest_eq
    exact absurd (hu.symm.trans hs) (not_dashed_markup h)
  · exact h

theorem takes_dashEnd {u v : State Rule} (hc : c.leavesPair) (hc' : c.atomicity ≠ .spaced)
    (hspaces : Derives grammar c spaces s u) (hstrip : Derives grammar c (opt (call stripEnd)) u v)
    (hstop : Derives grammar c tagStop v t) (hs : s.rest = dashEnd ++ rest) :
    ∃ q, s.Takes t dashEnd [q] ∧ q.rule = stripEnd := by
  have hnone := takes_noSpaces hc' (head_dashEnd hs) hspaces
  have hpercent : ∀ x ∈ ('%' :: '}' :: rest).head?, x ≠ '-' := by
    rintro x ⟨⟩
    decide
  obtain ⟨ps, hps, hrules⟩ :=
    takes_strip_eq (b := true) (by decide) rfl hc hpercent hstrip (hnone.rest_eq.symm.trans hs)
  obtain ⟨q, rfl, hq⟩ := List.map_eq_singleton_iff.mp hrules
  exact ⟨q, (hnone.trans hps).trans hstop.takes_word, hq⟩

variable {text : List Char} {p : Pair Rule}

theorem isNameStart_ne {x : Char} (h : isNameStart x) : x ≠ '-' ∧ x ∉ spaceLetters := by
  constructor
  · rintro rfl
    exact absurd h (by decide)
  · intro hx
    simp only [spaceLetters, List.mem_cons, List.not_mem_nil, or_false] at hx
    rcases hx with rfl | rfl | rfl | rfl | rfl <;> exact absurd h (by decide)

theorem dashed_children {ps : List (Pair Rule)} {q q' : Pair Rule}
    (hps : ps.map Pair.rule = if b then [stripStart] else []) (hq : Token.isTagNameRule q.rule)
    (hq' : q'.rule = stripEnd) :
    (ps ++ [q, q']).find? (Token.isTagNameRule ·.rule) = some q ∧
      (ps ++ [q, q']).find? (Token.isTagMarkupRule ·.rule) = none ∧
      Token.trimOfPairs (ps ++ [q, q']) = ⟨b, true⟩ := by
  have hname : ps.find? (Token.isTagNameRule ·.rule) = none := find?_strip hps rfl
  have hmarkup : ps.find? (Token.isTagMarkupRule ·.rule) = none := find?_strip hps rfl
  obtain ⟨hstart, hend⟩ := not_strip_of_isTagNameRule _ hq
  refine ⟨?_, ?_, ?_⟩
  · rw [List.find?_append, hname, Option.none_or, List.find?_cons_of_pos (by exact hq)]
  · rw [List.find?_append, hmarkup, Option.none_or, List.find?_cons_of_neg (by simp [not_isTagMarkupRule _ hq]),
      List.find?_cons_of_neg (by rw [hq']; decide)]
    rfl
  · rw [trimOfPairs_eq, List.map_append, hps]
    cases b <;> simp [hstart, hq']

namespace Rule

def opensStatement : Rule → Bool
  | statementOpen | statementTag | statementClose | statementComment | blockName | statementName
  | idStart => true
  | _ => false

theorem edges_opensStatement (r : Rule) (h : r.opensStatement) :
    (grammar.body r).edges .front (· != '{') solid opensStatement := by
  have hletter : ∀ x : Char, x.isAlpha → x ≠ '{' := by
    rintro x hx rfl
    exact absurd hx (by decide)
  cases r <;> try cases h
  all_goals
    simp [grammar, Rule.body, Expr.edges, Edge.outer, Edge.inner, Edge.char?, HAppend.hAppend,
      Append.append, HOr.hOr, OrOp.or, lit, whole, alpha, placeholder, opensStatement, solid, eats]
  exact hletter

end Rule

theorem split_name {w v : List Char} (hw : '-' ∉ w) (h : name ++ (dashEnd ++ rest) = w ++ v) :
    ∃ name', name = w ++ name' ∧ v = name' ++ (dashEnd ++ rest) := by
  rcases List.append_eq_append_iff.mp h with ⟨u, hu, hv⟩ | hu
  · cases u with
    | nil => exact ⟨[], by simpa using hu.symm, hv.symm⟩
    | cons x u =>
        have hx : '-' = x := (List.cons.inj hv).1
        subst hx
        exact absurd (by simp [hu]) hw
  · exact hu

namespace Dashed

variable {word : List Char}

/-- Where a rule for tags is matched, its name stands before the end with whitespace control. -/
theorem takes_head (h : Dashed b name rest word) {u : State Rule} (hc : c.leavesPair)
    (hc' : c.atomicity ≠ .spaced) (hs : s.rest = word ++ more) (hhead : Derives grammar c tagHead s u) :
    ∃ lead ps, s.Takes u lead ps ∧ word = lead ++ (name ++ (dashEnd ++ rest)) ∧
      ps.map Pair.rule = (if b then [stripStart] else []) ∧ u.rest = name ++ (dashEnd ++ (rest ++ more)) := by
  obtain ⟨blanks, hblanks, hword⟩ := h.text_eq
  obtain ⟨x, hx, hstart⟩ := h.start
  rw [hword, List.append_assoc] at hs
  have hmore : ∀ y ∈ (name ++ (dashEnd ++ rest) ++ more).head?, y ≠ '-' ∧ y ∉ spaceLetters := by
    intro y hy
    rw [List.append_assoc, List.head?_append, Option.mem_def.mp hx] at hy
    cases hy
    exact isNameStart_ne hstart
  obtain ⟨ps, hps, hrules⟩ := takes_tagHead hc hc' hblanks hmore hhead hs
  refine ⟨_, ps, hps, hword, hrules, ?_⟩
  rw [hps.rest_of hs, List.append_assoc, List.append_assoc]

theorem head?_eq (h : Dashed b name rest word) : word.head? = some '{' := by
  obtain ⟨blanks, _, rfl⟩ := h.text_eq
  rfl

/-- A block tag is not opened if whitespace control follows its name. -/
theorem not_open (h : Dashed b name rest p.text) (hp : Grown grammar text p) : p.rule ≠ .liquidTagOpen := by
  intro hrule
  obtain ⟨c, s, t, hc, _, _, hbody, htakes⟩ := hp.derives (by rw [hrule]; rfl)
  rw [hrule] at hc hbody
  obtain ⟨_, _, _, hbody, _⟩ := hbody.seq_takes
  obtain ⟨_, _, _, hbody, _⟩ := hbody.seq_takes
  obtain ⟨_, _, _, hbody, _⟩ := hbody.seq_takes
  obtain ⟨_, _, _, hbody, _⟩ := hbody.seq_takes
  obtain ⟨u, hhead, hname⟩ := hbody.seq_meets Atomicity.noConfusion
  obtain ⟨_, _, _, _, _, hu⟩ := h.takes_head hc Atomicity.noConfusion htakes.rest_eq hhead
  exact not_dashed_whole rfl rfl (by decide) h.chars hname hu

/-- A raw tag is not opened if whitespace control follows its name. -/
theorem not_rawTag (h : Dashed b name rest p.text) (hp : Grown grammar text p) : p.rule ≠ .liquidRawTag := by
  intro hrule
  obtain ⟨c, s, t, hc, _, _, hbody, htakes⟩ := hp.derives (by rw [hrule]; rfl)
  rw [hrule] at hc hbody
  obtain ⟨_, _, _, hbody, _⟩ := hbody.seq_takes
  obtain ⟨_, _, _, hbody, _⟩ := hbody.seq_takes
  obtain ⟨s', t', hbody, hs', _⟩ := hbody.call_body
  obtain ⟨_, _, _, hbody, _⟩ := hbody.seq_takes
  obtain ⟨_, _, _, hbody, _⟩ := hbody.seq_takes
  obtain ⟨_, _, _, hbody, _⟩ := hbody.seq_takes
  obtain ⟨_, _, _, hbody, _⟩ := hbody.seq_takes
  obtain ⟨u, hhead, hname⟩ := hbody.seq_meets Atomicity.noConfusion
  obtain ⟨_, _, _, _, _, hu⟩ := h.takes_head hc Atomicity.noConfusion (hs'.trans htakes.rest_eq) hhead
  cases hname with
  | push hname => exact not_dashed_whole rfl rfl (by decide) h.chars hname hu

/-- A plain tag ends with the whitespace control, and its name before it. -/
theorem tag_children (h : Dashed b name rest p.text) (hp : Grown grammar text p) (hrule : p.rule = .liquidTag) :
    rest = [] ∧ ∃ q, p.children.find? (Token.isTagNameRule ·.rule) = some q ∧ q.text = name ∧
      p.children.find? (Token.isTagMarkupRule ·.rule) = none ∧ Token.trimOfPairs p.children = ⟨b, true⟩ := by
  obtain ⟨c, s, t, hc, _, _, hbody, htakes⟩ := hp.derives (by rw [hrule]; rfl)
  rw [hrule] at hc hbody
  have hc' : (c.inside .compound).atomicity ≠ .spaced := Atomicity.noConfusion
  obtain ⟨s₆, hbody, hstop⟩ := hbody.seq_meets hc'
  obtain ⟨s₅, hbody, hstrip⟩ := hbody.seq_meets hc'
  obtain ⟨s₄, hbody, hspaces⟩ := hbody.seq_meets hc'
  obtain ⟨s₃, hbody, hmarkup⟩ := hbody.seq_meets hc'
  obtain ⟨s₂, hhead, hname⟩ := hbody.seq_meets hc'
  obtain ⟨lead, ps, hlead, hword, hps, hs₂⟩ := h.takes_head hc hc' htakes.rest_eq hhead
  obtain ⟨q, hq, hqrule, _⟩ := hname.takes_call (by decide) hc
  have hs₃ := rest_tagName h.chars hname hs₂
  have hqtext : q.text = name := hq.word_of hs₂ hs₃
  have hmarkup := takes_noMarkup hc' hmarkup hs₃
  obtain ⟨q', hq', hq'rule⟩ := takes_dashEnd hc hc' hspaces hstrip hstop (hmarkup.rest_eq.symm.trans hs₃)
  obtain ⟨htext, hchildren⟩ := htakes.unique (((hlead.trans hq).trans hmarkup).trans hq')
  obtain ⟨hfind, hnone, htrim⟩ := dashed_children hps (by rw [hqrule]; rfl) hq'rule
  simp only [List.append_nil, List.append_assoc, List.cons_append, List.nil_append] at hchildren
  rw [hchildren]
  refine ⟨?_, q, hfind, hqtext, hnone, htrim⟩
  rw [hword, hqtext] at htext
  simpa using htext

/-- The closing of a tag ends with the whitespace control, and its name before it. -/
theorem close_children (h : Dashed b name rest p.text) (hp : Grown grammar text p)
    (hrule : p.rule = .liquidTagClose) :
    rest = [] ∧ ∃ q, p.children.find? (Token.isTagNameRule ·.rule) = some q ∧ name = "end".toList ++ q.text ∧
      Token.trimOfPairs p.children = ⟨b, true⟩ := by
  obtain ⟨c, s, t, hc, _, _, hbody, htakes⟩ := hp.derives (by rw [hrule]; rfl)
  rw [hrule] at hc hbody
  have hc' : (c.inside .compound).atomicity ≠ .spaced := Atomicity.noConfusion
  obtain ⟨s₆, hbody, hstop⟩ := hbody.seq_meets hc'
  obtain ⟨s₅, hbody, hstrip⟩ := hbody.seq_meets hc'
  obtain ⟨s₄, hbody, hspaces⟩ := hbody.seq_meets hc'
  obtain ⟨s₃, hbody, hname⟩ := hbody.seq_meets hc'
  obtain ⟨s₂, hhead, hend⟩ := hbody.seq_meets hc'
  obtain ⟨lead, ps, hlead, hword, hps, hs₂⟩ := h.takes_head hc hc' htakes.rest_eq hhead
  obtain ⟨name', rfl, hs₃⟩ := split_name (by decide) (hs₂.symm.trans hend.takes_word.rest_eq)
  obtain ⟨q, hq, hqrule, _⟩ := hname.takes_call (by decide) hc
  have hs₄ := rest_closeName (List.forall_mem_append.mp h.chars).2 hname hs₃
  have hqtext : q.text = name' := hq.word_of hs₃ hs₄
  obtain ⟨q', hq', hq'rule⟩ := takes_dashEnd hc hc' hspaces hstrip hstop hs₄
  obtain ⟨htext, hchildren⟩ := htakes.unique (((hlead.trans hend.takes_word).trans hq).trans hq')
  obtain ⟨hfind, _, htrim⟩ := dashed_children hps (by rw [hqrule]; rfl) hq'rule
  simp only [List.append_nil, List.append_assoc, List.cons_append, List.nil_append] at hchildren
  rw [hchildren]
  refine ⟨?_, q, hfind, by rw [hqtext], htrim⟩
  rw [hword, hqtext] at htext
  simpa using htext

theorem not_statement (h : Dashed b name rest p.text) (hp : Grown grammar text p) :
    p.rule.opensStatement = false := by
  cases hp with
  | @mk c s t r _ _ _ _ hbody _ =>
      rw [Bool.eq_false_iff]
      intro hr
      rcases hbody.edges eats_body edges_opensStatement (edges_opensStatement r hr) '{' h.head?_eq with hx | hx
      · exact absurd hx (by decide)
      · exact absurd hx (by decide)

end Dashed

end LiquidTemplate
