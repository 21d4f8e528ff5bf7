import LiquidTemplate.Proofs.Geometry.Tree

namespace LiquidTemplate

namespace Condition

def leaves : Condition → List Condition
  | logical _ left right _ => left.leaves ++ right.leaves
  | comparison c left right s => [comparison c left right s]
  | expression value s => [expression value s]

def isLogical : Condition → Bool
  | logical _ _ _ _ => true
  | _ => false

/-- Nothing is joined on the left of a connective. -/
def LeansRight : Condition → Prop
  | logical _ left right _ => left.isLogical = false ∧ right.LeansRight
  | _ => True

def spine : Condition → List (Connective × Span)
  | logical connective _ right s => (connective, s) :: right.spine
  | _ => []

/-- The clauses that the tree was folded from, with `before` as the connective of the first one. -/
def unfolded (before : Option Connective) : Condition → List (Option Connective × Condition)
  | logical connective left right _ => (before, left) :: right.unfolded (some connective)
  | comparison c left right s => [(before, comparison c left right s)]
  | expression value s => [(before, expression value s)]

/-- The tree has the tests of the clauses as its leaves and their connectives down its right side. The
connective before clause `k + 1` is in the node from the start of clause `k` to the end of the last one. -/
structure Folds (clauses : List Clause) (t : Condition) : Prop where
  leaves_eq : t.leaves = clauses.map fun c => ofTest c.test
  leansRight : t.LeansRight
  length_spine : t.spine.length + 1 = clauses.length
  spine_eq : ∀ {k : Nat} {item next last : Clause}, clauses[k]? = some item → clauses[k + 1]? = some next →
    clauses.getLast? = some last →
    ∃ r, next.connective = some r ∧ t.spine[k]? = some (r, .between item.test.span.lo last.test.span.hi)
  unfolded_eq : t.unfolded none = clauses.map fun c => (c.connective, ofTest c.test)

variable {first : Clause} {rest : List Clause} (test : Test)

@[simp]
theorem leaves_ofTest : (ofTest test).leaves = [ofTest test] := by
  cases test <;> rfl

@[simp]
theorem isLogical_ofTest : (ofTest test).isLogical = false := by
  cases test <;> rfl

@[simp]
theorem leansRight_ofTest : (ofTest test).LeansRight := by
  cases test <;> trivial

@[simp]
theorem spine_ofTest : (ofTest test).spine = [] := by
  cases test <;> rfl

@[simp]
theorem unfolded_ofTest (before : Option Connective) :
    (ofTest test).unfolded before = [(before, ofTest test)] := by
  cases test <;> rfl

theorem leaves_ofClause (rest : List Clause) :
    (ofClause test rest).leaves = ofTest test :: rest.map fun c => ofTest c.test := by
  induction rest generalizing test with
  | nil => exact leaves_ofTest test
  | cons next rest ih => simp [ofClause, join, leaves, ih]

theorem leansRight_ofClause (rest : List Clause) : (ofClause test rest).LeansRight := by
  induction rest generalizing test with
  | nil => exact leansRight_ofTest test
  | cons next rest ih => exact ⟨isLogical_ofTest test, ih next.test⟩

theorem length_spine_ofClause (rest : List Clause) : (ofClause test rest).spine.length = rest.length := by
  induction rest generalizing test with
  | nil => simp [ofClause]
  | cons next rest ih => simp [ofClause, join, spine, ih]

theorem hi_ofClause {last : Clause} (h : (first :: rest).getLast? = some last) :
    (ofClause first.test rest).span.hi = last.test.span.hi := by
  induction rest generalizing first with
  | nil =>
      obtain rfl : first = last := by simpa using h
      rw [ofClause, span_ofTest]
  | cons next rest ih =>
      rw [List.getLast?_cons_cons] at h
      rw [ofClause, join, span, Span.hi_between _ (Span.hi_lt _)]
      exact ih h

theorem spine_ofClause {k : Nat} {item next last : Clause} (hitem : (first :: rest)[k]? = some item)
    (hnext : rest[k]? = some next) (hlast : (first :: rest).getLast? = some last) :
    (ofClause first.test rest).spine[k]? =
      some (next.connective.getD .and, .between item.test.span.lo last.test.span.hi) := by
  induction rest generalizing first k with
  | nil => simp at hnext
  | cons second rest ih =>
      rw [List.getLast?_cons_cons] at hlast
      cases k with
      | zero =>
          cases hitem
          cases hnext
          rw [ofClause, join, spine, List.getElem?_cons_zero, span_ofTest, hi_ofClause hlast]
      | succ k =>
          rw [ofClause, join, spine, List.getElem?_cons_succ]
          exact ih hitem hnext hlast

theorem unfolded_ofClause (before : Option Connective) (hrest : ∀ c ∈ rest, c.connective.isSome) :
    (ofClause test rest).unfolded before =
      (before, ofTest test) :: rest.map fun c => (c.connective, ofTest c.test) := by
  induction rest generalizing test before with
  | nil => exact unfolded_ofTest test before
  | cons next rest ih =>
      obtain ⟨hnext, hrest⟩ := List.forall_mem_cons.mp hrest
      obtain ⟨r, hr⟩ := Option.isSome_iff_exists.mp hnext
      simp [ofClause, join, unfolded, hr, ih next.test (some r) hrest]

/-- Clauses are folded to a tree that they can be read from. -/
theorem folds_ofClause (hfirst : first.connective = none) (hrest : ∀ c ∈ rest, c.connective.isSome) :
    Folds (first :: rest) (ofClause first.test rest) where
  leaves_eq := leaves_ofClause first.test rest
  leansRight := leansRight_ofClause first.test rest
  length_spine := by rw [length_spine_ofClause, List.length_cons]
  spine_eq := by
    intro k item next last hitem hnext hlast
    rw [List.getElem?_cons_succ] at hnext
    obtain ⟨r, hr⟩ := Option.isSome_iff_exists.mp (hrest next (List.mem_of_getElem? hnext))
    refine ⟨r, hr, ?_⟩
    rw [spine_ofClause hitem hnext hlast, hr, Option.getD_some]
  unfolded_eq := by rw [unfolded_ofClause first.test none hrest, List.map_cons, hfirst]

end Condition

end LiquidTemplate
