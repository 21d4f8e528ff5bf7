import LiquidTemplate.Expression

namespace LiquidTemplate

inductive Comparator where
  | eq
  | ne
  /-- The other spelling of `ne`. -/
  | lessGreater
  | ge
  | le
  | gt
  | lt
  | contains
  deriving DecidableEq, Repr

namespace Comparator

def spelling : Comparator → String
  | eq => "=="
  | ne => "!="
  | lessGreater => "<>"
  | ge => ">="
  | le => "<="
  | gt => ">"
  | lt => "<"
  | contains => "contains"

def ofSpelling? : String → Option Comparator
  | "==" => some eq
  | "!=" => some ne
  | "<>" => some lessGreater
  | ">=" => some ge
  | "<=" => some le
  | ">" => some gt
  | "<" => some lt
  | "contains" => some contains
  | _ => none

def normal : Comparator → Comparator
  | lessGreater => ne
  | c => c

theorem ofSpelling?_spelling (c : Comparator) : ofSpelling? c.spelling = some c := by
  cases c <;> decide

end Comparator

inductive Connective where
  | and
  | or
  deriving DecidableEq, Repr

namespace Connective

def spelling : Connective → String
  | .and => "and"
  | .or => "or"

def ofSpelling? : String → Option Connective
  | "and" => some .and
  | "or" => some .or
  | _ => none

end Connective

inductive Test where
  | comparison (comparator : Comparator) (left right : Expression) (span : Span)
  | expression (value : Expression)
  deriving Repr

structure Clause where
  /-- The word before the clause; the first clause has none. -/
  connective : Option Connective
  test : Test
  span : Span
  deriving Repr

/-- A condition as a tree that leans to the right: `a and b or c` is `a and (b or c)`. -/
inductive Condition where
  | logical (connective : Connective) (left right : Condition) (span : Span)
  | comparison (comparator : Comparator) (left right : Expression) (span : Span)
  | expression (value : Expression) (span : Span)
  deriving Repr

namespace Condition

def span : Condition → Span
  | logical _ _ _ s => s
  | comparison _ _ _ s => s
  | expression _ s => s

def ofTest : Test → Condition
  | .comparison c left right span => comparison c.normal left right span
  | .expression value => expression value value.span

/-- Joins a leaf to the tree of the clauses after it.  A clause without a connective is joined by
`and`. -/
def join (left : Condition) (connective : Option Connective) (right : Condition) : Condition :=
  logical (connective.getD .and) left right (.between left.span.lo right.span.hi)

def ofClause (test : Test) : List Clause → Condition
  | [] => ofTest test
  | next :: rest => join (ofTest test) next.connective (ofClause next.test rest)

def ofClauses? : List Clause → Option Condition
  | [] => none
  | first :: rest => some (ofClause first.test rest)

end Condition

end LiquidTemplate
