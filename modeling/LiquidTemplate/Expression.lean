import LiquidTemplate.Span

namespace LiquidTemplate

inductive Literal where
  | bool (value : Bool)
  | nil
  | null
  | empty
  | blank
  deriving DecidableEq, Repr

namespace Literal

def keyword : Literal → String
  | bool true => "true"
  | bool false => "false"
  | nil => "nil"
  | null => "null"
  | empty => "empty"
  | blank => "blank"

def value : Literal → String
  | null => "nil"
  | l => l.keyword

def ofKeyword? : String → Option Literal
  | "true" => some (bool true)
  | "false" => some (bool false)
  | "nil" => some nil
  | "null" => some null
  | "empty" => some empty
  | "blank" => some blank
  | _ => none

theorem ofKeyword?_keyword (l : Literal) : ofKeyword? l.keyword = some l := by
  cases l with
  | bool b => cases b <;> decide
  | _ => decide

end Literal

inductive Expression where
  /-- A quoted string, or the name after a dot in a lookup. -/
  | string (value : String) (singleQuoted : Bool) (span : Span)
  /-- A number, as it is written. -/
  | number (digits : String) (span : Span)
  | literal (value : Literal) (span : Span)
  /-- All numbers from `first` to `last`. -/
  | range (first last : Expression) (span : Span)
  /-- What the keys lead to from a variable, or from the page if no variable is named. -/
  | lookup (name : Option String) (keys : List Expression) (span : Span)
  deriving Repr

namespace Expression

def span : Expression → Span
  | string _ _ s => s
  | number _ s => s
  | literal _ s => s
  | range _ _ s => s
  | lookup _ _ s => s

end Expression

structure NamedArgument where
  name : String
  value : Expression
  span : Span
  deriving Repr

inductive Argument where
  | positional (value : Expression)
  | named (argument : NamedArgument)
  deriving Repr

structure Filter where
  name : String
  arguments : List Argument
  span : Span
  deriving Repr

structure Variable where
  expression : Expression
  filters : List Filter
  /-- The text that was read. -/
  source : String
  span : Span
  deriving Repr

end LiquidTemplate
