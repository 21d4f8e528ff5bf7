namespace LiquidTemplate.Peg

inductive Expr (ρ : Type) where
  /-- The word itself. -/
  | word (w : List Char)
  /-- The word, with ASCII letters in either case. -/
  | caseless (w : List Char)
  /-- One character that passes a test. -/
  | char (test : Char → Bool)
  /-- Matches nothing, at the start of the text only. -/
  | start
  /-- Matches nothing, at the end of the text only. -/
  | finish
  | seq (first second : Expr ρ)
  /-- The second way is tried only if the first one fails. -/
  | alt (first second : Expr ρ)
  | opt (e : Expr ρ)
  /-- As often as possible, without going back. -/
  | many (e : Expr ρ)
  /-- The further rounds of a repetition that has begun. -/
  | again (e : Expr ρ)
  /-- Consumes nothing, and matches where `e` does. -/
  | ahead (e : Expr ρ)
  /-- Consumes nothing, and matches where `e` does not. -/
  | notAhead (e : Expr ρ)
  /-- Remembers the text that `e` matched. -/
  | push (e : Expr ρ)
  /-- The text remembered last. -/
  | top
  /-- The text remembered last, which is then forgotten. -/
  | pop
  | call (rule : ρ)

namespace Expr

variable {ρ : Type}

instance : Append (Expr ρ) := ⟨seq⟩

instance : OrOp (Expr ρ) := ⟨alt⟩

def lit (w : String) : Expr ρ := word w.toList

def litCaseless (w : String) : Expr ρ := caseless w.toList

def any : Expr ρ := char fun _ => true

def plus (e : Expr ρ) : Expr ρ := e ++ many e

/-- The longest run of characters at none of which `stop` matches, and at least one. -/
def until1 (stop : Expr ρ) : Expr ρ := plus (notAhead stop ++ any)

def until0 (stop : Expr ρ) : Expr ρ := many (notAhead stop ++ any)

end Expr

inductive Kind where
  /-- Leaves a pair; blanks as where the rule is used. -/
  | plain
  /-- Leaves no pair and is never reported; blanks as where the rule is used. -/
  | silent
  /-- Leaves a pair without children, and allows no blanks. -/
  | atomic
  /-- Leaves a pair, and allows no blanks. -/
  | compound
  /-- Leaves a pair, and allows blanks. -/
  | spaced
  deriving DecidableEq, Repr

structure Grammar (ρ : Type) where
  kind : ρ → Kind
  body : ρ → Expr ρ
  /-- The characters that may stand between the parts of a sequence where blanks are allowed. -/
  blank : Char → Bool

/-- A node of a parse tree: the rule, the byte range that it matched, the text there, and the pairs
that were left while matching its body. -/
structure Pair (ρ : Type) where
  rule : ρ
  start : Nat
  stop : Nat
  text : List Char
  children : List (Pair ρ)

namespace Pair

variable {ρ : Type}

def string (p : Pair ρ) : String := String.ofList p.text

mutual

/-- The pair and all pairs below it, each before its children. -/
def flatten : Pair ρ → List (Pair ρ)
  | ⟨rule, start, stop, text, children⟩ =>
    ⟨rule, start, stop, text, children⟩ :: flattenAll children

def flattenAll : List (Pair ρ) → List (Pair ρ)
  | [] => []
  | p :: ps => flatten p ++ flattenAll ps

end

end Pair

end LiquidTemplate.Peg
