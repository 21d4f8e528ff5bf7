import LiquidTemplate.Proofs.Condition.Fold
import LiquidTemplate.Proofs.Geometry.Markup
import LiquidTemplate.Proofs.Intact.Markup
import LiquidTemplate.Proofs.Rule.Dash
import LiquidTemplate.Proofs.Rule.Expression

namespace LiquidTemplate

open Text
open Peg Peg.Expr Rule

variable {text : List Char} {p : Pair Rule} {offset : Nat} {s t : State Rule}

namespace Clause

def word (c : Clause) : List Char := (c.connective.map (·.spelling.toList)).getD []

/-- The clauses stand one after another in a text, `pos` bytes into the markup at `offset`: each has its
word before its test, and all else is blank. A word is not the front of a longer one. -/
inductive Written (offset : Nat) : Nat → List Clause → List Char → Prop
  | nil {pos : Nat} {blanks : List Char} (hblanks : ∀ x ∈ blanks, grammar.blank x) :
      Written offset pos [] blanks
  | cons {pos : Nat} {front back test more : List Char} {c : Clause} {clauses : List Clause}
      (hfront : ∀ x ∈ front, grammar.blank x) (hback : ∀ x ∈ back, grammar.blank x) (htest : test ≠ [])
      (hword : c.connective.isSome → ∀ x ∈ (back ++ (test ++ more)).head?, isNameChar x = false)
      (hspan : c.span = .between (offset + (pos + byteLength (front ++ c.word ++ back)))
        (offset + (pos + byteLength (front ++ c.word ++ back ++ test))))
      (hsame : c.test.span = c.span)
      (hmore : Written offset (pos + byteLength (front ++ c.word ++ back ++ test)) clauses more) :
      Written offset pos (c :: clauses) (front ++ c.word ++ (back ++ (test ++ more)))

/-- Only the first clause has no word before it. -/
def Joined (clauses : List Clause) : Prop :=
  ∃ first rest, clauses = first :: rest ∧ first.connective = none ∧ ∀ c ∈ rest, c.connective.isSome

end Clause

def Rule.tests (r : Rule) : Bool := r == .comparison || r.expressions

theorem picks_tests (r : Rule) :
    r.tests → grammar.kind r = .silent → (grammar.body r).picks Rule.tests := by
  cases r <;> decide

/-- A clause is as long as its test. -/
theorem condition_children (h : Grown grammar text p) (hp : p.rule = .condition) :
    ∃ test, p.children = [test] ∧ ∀ offset, test.span offset = p.span offset := by
  obtain ⟨_, _, _, _, hpstop⟩ := h.text_eq
  have hgrown := h.children
  obtain ⟨c, s, t, hc, _, ⟨hstart, _⟩, h, htakes⟩ := h.derives (by rw [hp]; rfl)
  rw [hp] at hc h
  obtain ⟨test, _, htest, _, _, hteststart, _⟩ := h.takes_pick picks_tests hc rfl
  obtain ⟨htext, hchildren⟩ := htakes.unique htest
  obtain ⟨_, _, _, _, hstop⟩ := (hgrown test (by simp [hchildren])).text_eq
  refine ⟨test, hchildren, fun offset => ?_⟩
  rw [Pair.span, Pair.span, hstop, hpstop, hteststart, hstart, htext]

theorem Connective.ofSpelling?_spelling (r : Connective) : ofSpelling? r.spelling = some r := by
  cases r <;> decide

/-- Between two clauses stands one of the connectives, and no longer word. -/
theorem takes_logicalOperator (h : Derives grammar .top (call logicalOperator) s t) :
    ∃ (p : Pair Rule) (r : Connective), s.Takes t r.spelling.toList [p] ∧ p.rule = .logicalOperator ∧
      Connective.ofSpelling? p.string = some r ∧ ∀ x ∈ t.rest.head?, isNameChar x = false := by
  obtain ⟨u, hbody, hu, _⟩ := h.call_inner (by decide) rfl
  obtain ⟨v, hword, hahead⟩ := hbody.seq_meets Atomicity.noConfusion
  obtain ⟨w, hw, hr⟩ := hword.takes_spelled
    (P := fun w => w ∈ [Connective.and.spelling.toList, Connective.or.spelling.toList]) (by decide)
  cases hahead with
  | notAhead hfails =>
      have hconsumed : s.consumed v = w := hw.consumed_eq
      obtain ⟨r, rfl⟩ : ∃ r : Connective, w = r.spelling.toList := by
        simp only [List.mem_cons, List.not_mem_nil, or_false, decide_eq_true_eq] at hr
        rcases hr with rfl | rfl
        · exact ⟨.and, rfl⟩
        · exact ⟨.or, rfl⟩
      change s.Takes t (s.consumed v) _ at hu
      rw [hconsumed] at hu
      refine ⟨_, r, hu, rfl, ?_, ?_⟩
      · change Connective.ofSpelling? (String.ofList (s.consumed v)) = some r
        rw [hconsumed, String.ofList_toList, Connective.ofSpelling?_spelling]
      · intro x hx
        have hrest : v.rest = t.rest := hw.rest_of hu.rest_eq
        obtain ⟨rest, hrest'⟩ := List.head?_eq_some_iff.mp (hrest ▸ hx)
        exact not_isNameChar hfails hrest'

namespace Clause

theorem Written.prepend {pos : Nat} {clauses : List Clause} {blanks w : List Char}
    (hblanks : ∀ x ∈ blanks, grammar.blank x) (h : Written offset (pos + byteLength blanks) clauses w) :
    Written offset pos clauses (blanks ++ w) := by
  cases h with
  | nil hw => exact .nil (List.forall_mem_append.mpr ⟨hblanks, hw⟩)
  | @cons _ front back test more c _ hfront hback htest hword hspan hsame hmore =>
      have hall := List.forall_mem_append.mpr ⟨hblanks, hfront⟩
      rw [← List.append_assoc blanks, ← List.append_assoc blanks]
      refine .cons hall hback htest hword ?_ hsame ?_
      · simpa [byteLength_append, Nat.add_assoc] using hspan
      · simpa [byteLength_append, Nat.add_assoc] using hmore

/-- A clause that is read has the span of its pair, and so has its test. -/
theorem ofPairs_condition (h : Grown grammar text p) (hp : p.rule = .condition) {ps : List (Pair Rule)}
    {clauses : List Clause} (hps : ofPairs offset none ps = .ok clauses) (before : Option Connective) :
    ∃ c, ofPairs offset before (p :: ps) = .ok (c :: clauses) ∧ c.connective = before ∧
      c.span = p.span offset ∧ c.test.span = c.span := by
  obtain ⟨test, hchildren, hspan⟩ := condition_children h hp
  obtain ⟨_, _, htest, hrule, _⟩ := arranged_children h hp rfl
  rw [hchildren] at htest
  cases htest
  obtain ⟨value, hvalue⟩ : Succeeds (Test.ofPair offset test) :=
    Test.succeeds_ofPair (h.children test (by simp [hchildren])) hrule
  refine ⟨⟨before, value, p.span offset⟩, ?_, rfl, rfl, (Test.span_ofPair hvalue).trans (hspan offset)⟩
  simp only [ofPairs, hp, hchildren, hvalue, hps]
  rfl

theorem ne_endOfInput_of_ofPairs {ps : List (Pair Rule)} {before : Option Connective} {clauses : List Clause}
    (h : ofPairs offset before ps = .ok clauses) : ∀ q ∈ ps, q.rule ≠ .endOfInput := by
  induction ps generalizing before clauses with
  | nil => simp
  | cons p ps ih =>
      rw [List.forall_mem_cons]
      unfold ofPairs at h
      split at h
      · rename_i hrule
        exact ⟨by rw [hrule]; decide, ih h⟩
      · cases h
      · rename_i hrule _
        simp only [bind_eq_ok] at h
        obtain ⟨_, _, _, hrest, _⟩ := h
        exact ⟨by rw [hrule]; decide, ih hrest⟩
      · cases h

/-- The clauses after the first one are read with the words before them. -/
theorem written_many (h : Derives grammar .top (many (call logicalOperator ++ call condition)) s t) :
    (∀ p ∈ t.pairs, Grown grammar text p) → (∀ x ∈ t.rest, grammar.blank x) →
    ∃ w ps clauses, s.Takes t w ps ∧ ofPairs offset none ps = .ok clauses ∧
      (∀ c ∈ clauses, c.connective.isSome) ∧ Written offset s.offset clauses s.rest := by
  -- Pairs are only added, so all of them are known to be grown from the last state.
  refine h.many_induct (P := fun s t => (∀ p ∈ t.pairs, Grown grammar text p) →
    (∀ x ∈ t.rest, grammar.blank x) →
      ∃ w ps clauses, s.Takes t w ps ∧ ofPairs offset none ps = .ok clauses ∧
        (∀ c ∈ clauses, c.connective.isSome) ∧ Written offset s.offset clauses s.rest) ?_ ?_
  · intro s s' r _ _ _ hblank
    exact ⟨[], [], [], .idle r, rfl, by simp, .nil hblank⟩
  · intro s s' t u hs' hround ih hgrown hblank
    obtain ⟨w, ps, clauses, htu, hps, hsome, hwritten⟩ := ih hgrown hblank
    obtain ⟨front, hfront, hfrontblank⟩ : ∃ v, s.Takes s' v [] ∧ ∀ x ∈ v, grammar.blank x := by
      rcases hs' with rfl | rfl
      · exact ⟨[], .idle s'.attempts, by simp⟩
      · exact s.takes_skip .top grammar.blank
    cases hround with
    | @seq _ _ v _ _ _ hword hitem =>
        obtain ⟨op, r, hop, hoprule, hr, hstop⟩ := takes_logicalOperator hword
        obtain ⟨back, hback, hbackblank⟩ := v.takes_skip .top grammar.blank
        obtain ⟨item, hitem, hitemrule, hstart, hend, _⟩ := hitem.takes_call (by decide) rfl
        have hitemgrown : Grown grammar text item := by
          apply hgrown
          rw [htu.pairs_eq, hitem.pairs_eq]
          simp
        obtain ⟨c, hc, hconn, hspan, hsame⟩ := ofPairs_condition hitemgrown hitemrule hps (some r)
        have hcword : c.word = r.spelling.toList := by simp [word, hconn]
        have htakes := ((hfront.trans hop).trans hback).trans hitem
        refine ⟨_, _, c :: clauses, htakes.trans htu, ?_, ?_, ?_⟩
        · simp only [List.nil_append, List.append_nil, List.cons_append, ofPairs, hoprule, hr]
          exact hc
        · exact List.forall_mem_cons.mpr ⟨by rw [hconn]; rfl, hsome⟩
        · have hrest : s.rest = front ++ c.word ++ (back ++ (item.text ++ t.rest)) := by
            rw [htakes.rest_eq, hcword]
            simp
          have hbefore : item.start = s.offset + byteLength (front ++ c.word ++ back) := by
            rw [hstart, ((hfront.trans hop).trans hback).offset_eq, hcword]
          have hafter : t.offset = s.offset + byteLength (front ++ c.word ++ back ++ item.text) := by
            rw [htakes.offset_eq, hcword]
          rw [hrest]
          refine .cons hfrontblank hbackblank (text_ne_nil hitemgrown (by rw [hitemrule]; rfl)) ?_ ?_ hsame ?_
          · intro _
            rwa [← hitem.rest_eq, ← hback.rest_eq]
          · rw [hspan, Pair.span, hbefore, hend, hafter]
          · rwa [← hafter]

/-- The first clause is read without a word before it. -/
theorem written_clauses
    (h : Derives grammar .top (start ++ call condition ++ many (call logicalOperator ++ call condition)) s t)
    (hgrown : ∀ p ∈ t.pairs, Grown grammar text p) (hblank : ∀ x ∈ t.rest, grammar.blank x) :
    ∃ w ps clauses, s.Takes t w ps ∧ ofPairs offset none ps = .ok clauses ∧ Joined clauses ∧
      Written offset s.offset clauses s.rest := by
  cases h with
  | @seq _ _ u _ _ _ h hmany =>
      cases h with
      | seq hstart hitem =>
          cases hstart
          obtain ⟨front, hfront, hfrontblank⟩ := s.takes_skip .top grammar.blank
          obtain ⟨item, hitem, hrule, hstart, hend, _⟩ := hitem.takes_call (by decide) rfl
          obtain ⟨back, hback, hbackblank⟩ := u.takes_skip .top grammar.blank
          obtain ⟨w, ps, clauses, hps, hread, hsome, hwritten⟩ := written_many hmany hgrown hblank
          have hitemgrown : Grown grammar text item := by
            apply hgrown
            rw [hps.pairs_eq, hback.pairs_eq, hitem.pairs_eq]
            simp
          obtain ⟨c, hc, hconn, hspan, hsame⟩ := ofPairs_condition hitemgrown hrule hread none
          have htakes := hfront.trans hitem
          refine ⟨_, _, c :: clauses, htakes.trans (hback.trans hps), hc, ⟨c, clauses, rfl, hconn, hsome⟩, ?_⟩
          have hword : c.word = [] := by rw [word, hconn, Option.map_none, Option.getD_none]
          have hrest : s.rest = [] ++ c.word ++ (front ++ (item.text ++ u.rest)) := by
            rw [htakes.rest_eq, hword, List.nil_append, List.nil_append, List.append_assoc]
          have hbefore : item.start = s.offset + byteLength ([] ++ c.word ++ front) := by
            rw [hstart, hfront.offset_eq, hword, List.nil_append, List.nil_append]
          have hafter : u.offset = s.offset + byteLength ([] ++ c.word ++ front ++ item.text) := by
            rw [htakes.offset_eq, hword, List.nil_append, List.nil_append]
          rw [hrest]
          refine .cons (by simp) hfrontblank (text_ne_nil hitemgrown (by rw [hrule]; rfl)) ?_ ?_ hsame ?_
          · simp [hconn]
          · rw [hspan, Pair.span, hbefore, hend, hafter]
          · rw [← hafter, hback.rest_eq]
            apply Written.prepend hbackblank
            rwa [← hback.offset_eq]

/-- A condition is read as the clauses that are written in its text. -/
theorem written_ofPairs {pairs : List (Pair Rule)} (h : grammar.parse .markupCondition text = .ok pairs)
    (offset : Nat) :
    ∃ p clauses, pairs = [p] ∧ ofPairs offset none (Markup.parts p) = .ok clauses ∧ Joined clauses ∧
      Written offset 0 clauses text := by
  have hgrown := (Grammar.grown_parse h).1
  obtain ⟨p, t, rfl, hrule, _, h, htakes⟩ := Grammar.parse_ok h rfl
  have hp : Grown grammar text p := hgrown p (by simp)
  cases h with
  | @seq _ _ u _ _ _ h hfinish =>
      change Derives grammar .top (call endOfInput) (u.skip .top grammar.blank) t at hfinish
      obtain ⟨back, hback, hbackblank⟩ := u.takes_skip .top grammar.blank
      obtain ⟨hrest, _⟩ := hfinish.rest_call_finish rfl
      obtain ⟨finish, hfinish, hfinishrule, _⟩ := hfinish.takes_call (by decide) rfl
      have hend := hback.trans hfinish
      obtain ⟨before, qs, hbefore, _⟩ := h.takes
      obtain ⟨_, hchildren⟩ := htakes.unique (hbefore.trans hend)
      have hu : ∀ q ∈ u.pairs, Grown grammar text q := by
        intro q hq
        apply hp.children
        simp only [hbefore.pairs_eq, Grammar.initial, List.append_nil, List.mem_reverse] at hq
        simp [hchildren, hq]
      have hblank : ∀ x ∈ u.rest, grammar.blank x := by
        rwa [hback.rest_eq, hrest, List.append_nil]
      obtain ⟨w, ps, clauses, hps, hread, hjoined, hwritten⟩ := written_clauses h hu hblank
      obtain ⟨_, rfl⟩ := hbefore.unique hps
      refine ⟨p, clauses, rfl, ?_, hjoined, hwritten⟩
      have hparts : Markup.parts p = qs := by
        have hqs : qs.filter (·.rule != .endOfInput) = qs :=
          List.filter_eq_self.mpr fun q hq => by simpa using ne_endOfInput_of_ofPairs hread q hq
        simp [Markup.parts, hchildren, hqs, hfinishrule]
      rw [hparts]
      exact hread

end Clause

/-- Only tags with a condition have its rule, and all of them are read as its clauses. -/
theorem Markup.ofPair_condition {tag : NamedTag} (htag : tag.markupRule? = some .markupCondition)
    {clauses : List Clause} (h : Clause.ofPairs offset none (parts p) = .ok clauses) :
    Markup.ofPair offset tag p = .ok (.condition clauses) := by
  cases tag with
  | ifTag | unlessTag | elsif => simp only [ofPair, h, ok_bind, pure, Except.pure]
  | _ => cases htag

namespace Condition

/-- A condition is read as a list of clauses, of which the first has no connective and every other one
the word that is written before it.  All such lists are folded to the right, and can be told from the tree
that they are folded to. -/
theorem folds_written :
    (∀ (text : List Char) (pairs : List (Pair Rule)) (offset : Nat),
      grammar.parse .markupCondition text = .ok pairs →
      ∃ p clauses, pairs = [p] ∧ Clause.ofPairs offset none (Markup.parts p) = .ok clauses ∧
        (∀ tag : NamedTag, tag.markupRule? = some .markupCondition →
          Markup.ofPair offset tag p = .ok (.condition clauses)) ∧
        Clause.Joined clauses ∧ Clause.Written offset 0 clauses text) ∧
    ∀ clauses : List Clause, Clause.Joined clauses → ∃ t, ofClauses? clauses = some t ∧ Folds clauses t := by
  constructor
  · intro text pairs offset h
    obtain ⟨p, clauses, hpairs, hread, hjoined, hwritten⟩ := Clause.written_ofPairs h offset
    exact ⟨p, clauses, hpairs, hread, fun _ htag => Markup.ofPair_condition htag hread, hjoined, hwritten⟩
  · rintro _ ⟨first, rest, rfl, hfirst, hrest⟩
    exact ⟨_, rfl, folds_ofClause hfirst hrest⟩

def mixedCondition : List Char := "a and orb or c <> 1 ".toList

theorem folds_written_mixedCondition :
    ∃ pairs p clauses t, grammar.parse .markupCondition mixedCondition = .ok pairs ∧ pairs = [p] ∧
      Clause.ofPairs 3 none (Markup.parts p) = .ok clauses ∧
      clauses.map (·.connective) = [none, some .and, some .or] ∧ Clause.Written 3 0 clauses mixedCondition ∧
      ofClauses? clauses = some t ∧ Folds clauses t ∧
      t.spine = [(.and, .between 3 22), (.or, .between 9 22)] := by
  have hread : (grammar.parse .markupCondition mixedCondition).toOption.bind (fun pairs =>
      (pairs.flatMap Markup.parts |> Clause.ofPairs 3 none).toOption.bind fun clauses =>
        (ofClauses? clauses).map fun t => (clauses.map (·.connective), t.spine)) =
      some ([none, some .and, some .or], [(.and, .between 3 22), (.or, .between 9 22)]) := by
    decide +kernel
  obtain ⟨pairs, hpairs, hread⟩ := Option.bind_eq_some_iff.mp hread
  have hpairs := toOption_eq_some.mp hpairs
  obtain ⟨p, clauses, rfl, hclauses, _, hjoined, hwritten⟩ := folds_written.1 mixedCondition pairs 3 hpairs
  obtain ⟨t, ht, hfolds⟩ := folds_written.2 clauses hjoined
  simp only [List.flatMap_cons, List.flatMap_nil, List.append_nil, hclauses, ht, Except.toOption,
    Option.bind_some, Option.map_some, Option.some.injEq, Prod.mk.injEq] at hread
  exact ⟨[p], p, clauses, t, hpairs, rfl, hclauses, hread.1, hwritten, ht, hfolds, hread.2⟩

end Condition

end LiquidTemplate
