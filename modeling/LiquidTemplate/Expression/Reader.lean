import LiquidTemplate.Expression
import LiquidTemplate.Condition
import LiquidTemplate.Error
import LiquidTemplate.Rule.Body

namespace LiquidTemplate

open Peg (Pair)

/-- The span of a pair of a text that starts at `offset`. -/
def Peg.Pair.span {ρ : Type} (p : Pair ρ) (offset : Nat) : Span :=
  .between (offset + p.start) (offset + p.stop)

def missing (part : String) (s : Span) : Error := .unreadable (.missing part) s

def expect (part : String) (s : Span) : Option (Pair Rule) → Except Error (Pair Rule)
  | some p => .ok p
  | none => .error (missing part s)

@[simp] theorem expect_some (part : String) (s : Span) (p : Pair Rule) :
    expect part s (some p) = .ok p := rfl

def unexpected (offset : Nat) (p : Pair Rule) : Error :=
  .unreadable (.unexpected p.rule) (p.span offset)

def malformed (offset : Nat) (p : Pair Rule) : Error :=
  .unreadable (.malformed p.rule) (p.span offset)

namespace Expression

mutual

def ofPair (offset : Nat) : Pair Rule → Except Error Expression
  | ⟨.string, start, stop, _, []⟩ =>
    .ok (.string "" false (.between (offset + start) (offset + stop)))
  | ⟨.string, start, stop, _, body :: _⟩ =>
    let span := .between (offset + start) (offset + stop)
    .ok (.string body.string (body.rule == .singleQuoted) span)
  | ⟨.number, start, stop, text, _⟩ =>
    .ok (.number (String.ofList text) (.between (offset + start) (offset + stop)))
  | ⟨.literal, start, stop, text, children⟩ =>
    match Literal.ofKeyword? (String.ofList text) with
    | some value => .ok (.literal value (.between (offset + start) (offset + stop)))
    | none => .error (malformed offset ⟨.literal, start, stop, text, children⟩)
  | ⟨.range, start, stop, _, []⟩ =>
    .error (missing "range start" (.between (offset + start) (offset + stop)))
  | ⟨.range, start, stop, _, [_]⟩ =>
    .error (missing "range end" (.between (offset + start) (offset + stop)))
  | ⟨.range, start, stop, _, first :: last :: _⟩ => do
    let first ← ofPair offset first
    let last ← ofPair offset last
    return .range first last (.between (offset + start) (offset + stop))
  | ⟨.variableLookup, start, stop, _, ⟨.identifier, _, _, name, _⟩ :: keys⟩ => do
    let keys ← keysOfPairs offset keys
    return .lookup (some (String.ofList name)) keys (.between (offset + start) (offset + stop))
  | ⟨.variableLookup, start, stop, _, keys⟩ => do
    let keys ← keysOfPairs offset keys
    return .lookup none keys (.between (offset + start) (offset + stop))
  | p => .error (unexpected offset p)

def keysOfPairs (offset : Nat) : List (Pair Rule) → Except Error (List Expression)
  | [] => .ok []
  | ⟨.lookupName, start, stop, name, _⟩ :: rest => do
    let key := .string (String.ofList name) false (.between (offset + start) (offset + stop))
    return key :: (← keysOfPairs offset rest)
  | ⟨.bracketLookup, start, stop, _, []⟩ :: _ =>
    .error (missing "lookup" (.between (offset + start) (offset + stop)))
  | ⟨.bracketLookup, _, _, _, key :: _⟩ :: rest => do
    let key ← ofPair offset key
    return key :: (← keysOfPairs offset rest)
  | p :: _ => .error (unexpected offset p)

end

end Expression

def NamedArgument.ofPair (offset : Nat) (p : Pair Rule) : Except Error NamedArgument :=
  match p.rule, p.children with
  | .namedArgument, [] => .error (missing "argument name" (p.span offset))
  | .namedArgument, [_] => .error (missing "argument value" (p.span offset))
  | .namedArgument, name :: value :: _ => do
    return ⟨name.string, ← Expression.ofPair offset value, p.span offset⟩
  | _, _ => .error (unexpected offset p)

def Argument.ofPair (offset : Nat) (p : Pair Rule) : Except Error Argument :=
  if p.rule = .namedArgument then .named <$> NamedArgument.ofPair offset p
  else .positional <$> Expression.ofPair offset p

def Filter.ofPair (offset : Nat) (p : Pair Rule) : Except Error Filter :=
  match p.children with
  | name :: arguments => do
    return ⟨name.string, ← arguments.mapM (Argument.ofPair offset), p.span offset⟩
  | [] => .error (missing "filter name" (p.span offset))

def Variable.ofPair (offset : Nat) (p : Pair Rule) : Except Error Variable :=
  match p.children with
  | value :: filters => do
    let value ← Expression.ofPair offset value
    return ⟨value, ← filters.mapM (Filter.ofPair offset), p.string, p.span offset⟩
  | [] => .error (missing "expression" (p.span offset))

def Test.ofPair (offset : Nat) (p : Pair Rule) : Except Error Test :=
  match p.rule, p.children with
  | .comparison, [] => .error (missing "left operand" (p.span offset))
  | .comparison, [_] => .error (missing "comparator" (p.span offset))
  | .comparison, [_, _] => .error (missing "right operand" (p.span offset))
  | .comparison, left :: comparator :: right :: _ =>
    match Comparator.ofSpelling? comparator.string with
    | some c => do
      let left ← Expression.ofPair offset left
      let right ← Expression.ofPair offset right
      return .comparison c left right (p.span offset)
    | none => .error (malformed offset comparator)
  | _, _ => .expression <$> Expression.ofPair offset p

/-- The clauses of a condition; `before` is the connective read last. -/
def Clause.ofPairs (offset : Nat) (before : Option Connective) :
    List (Pair Rule) → Except Error (List Clause)
  | [] => .ok []
  | p :: rest =>
    match p.rule, p.children with
    | .logicalOperator, _ => ofPairs offset (Connective.ofSpelling? p.string) rest
    | .condition, [] => .error (missing "condition" (p.span offset))
    | .condition, test :: _ => do
      let test ← Test.ofPair offset test
      return ⟨before, test, p.span offset⟩ :: (← ofPairs offset none rest)
    | _, _ => .error (unexpected offset p)

end LiquidTemplate
