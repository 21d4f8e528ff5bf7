import LiquidTemplate.Expression.Reader
import LiquidTemplate.Markup
import LiquidTemplate.TagName
import LiquidTemplate.Options

namespace LiquidTemplate

open Peg (Pair)

/-- A part of a template that is read on its own: where it starts, and how forgiving the reading
is. -/
structure Region where
  offset : Nat
  mode : Mode
  deriving DecidableEq, Repr

namespace Markup

def isNameRule : Rule → Bool
  | .identifier | .variableName | .lookupName | .filterName | .argumentName => true
  | _ => false

def placeholderName? (pairs : List (Pair Rule)) : Option (Pair Rule) :=
  (Pair.flattenAll pairs).find? fun p => isNameRule p.rule && p.text.contains placeholder

/-- Matches markup that starts at `start` in the template.  The mismatch of a strict region is
reported at its offset in the markup, counted from the start of the region; without a match, the
markup of other regions is not read further. -/
def matchRule (region : Region) (start : Nat) (rule : Rule) (text : List Char) :
    Except Error (Option (Pair Rule)) :=
  match grammar.parse rule text with
  | .error mismatch =>
    if region.mode = .strict then .error (.ofMismatch region.offset mismatch) else .ok none
  | .ok pairs =>
    let name? := if region.mode = .completion then none else placeholderName? pairs
    match name? with
    | some name =>
      if region.mode = .strict then .error (.unreadable .placeholder (name.span start))
      else .ok none
    | none =>
      match pairs with
      | p :: _ => .ok (some p)
      | [] => .error (missing "markup" (.between start (start + Text.byteLength text)))

def parts (p : Pair Rule) : List (Pair Rule) := p.children.filter (·.rule != .endOfInput)

def nameOfPair (p : Pair Rule) : String :=
  match p.rule, p.children with
  | .string, body :: _ => body.string
  | .string, [] => ""
  | _, _ => p.string

structure LoopParts where
  name : Option String := none
  collection : Option Expression := none
  reversed : Bool := false
  arguments : List NamedArgument := []

def LoopParts.add (offset : Nat) (l : LoopParts) (p : Pair Rule) : Except Error LoopParts :=
  match p.rule with
  | .variableName => .ok { l with name := some p.string }
  | .kwIn => .ok l
  | .reversed => .ok { l with reversed := true }
  | .namedArgument => do
    return { l with arguments := l.arguments ++ [← NamedArgument.ofPair offset p] }
  | _ => do return { l with collection := some (← Expression.ofPair offset p) }

def loopOfPairs (offset : Nat) (s : Span) (items : List (Pair Rule)) : Except Error Loop := do
  let l ← items.foldlM (LoopParts.add offset) {}
  match l.name, l.collection with
  | some name, some collection => return ⟨name, collection, l.reversed, l.arguments⟩
  | _, _ => .error (missing "loop variable or collection" s)

def renderVariableOfPair (offset : Nat) (p : Pair Rule) : Except Error RenderVariable := do
  let mode ← expect "with or for" (p.span offset) p.children[0]?
  let value ← expect "expression" (p.span offset) p.children[1]?
  match RenderMode.ofSpelling? mode.string with
  | some m => return ⟨m, ← Expression.ofPair offset value, p.span offset⟩
  | none => .error (malformed offset mode)

def renderAliasOfPair (offset : Nat) (p : Pair Rule) : Except Error RenderAlias :=
  match p.children.find? (·.rule == .variableName) with
  | some name => .ok ⟨name.string, name.span offset⟩
  | none => .error (missing "alias" (p.span offset))

structure RenderParts where
  snippet : Option Expression := none
  value : Option RenderVariable := none
  asName : Option RenderAlias := none
  arguments : List NamedArgument := []

def RenderParts.add (offset : Nat) (r : RenderParts) (p : Pair Rule) : Except Error RenderParts :=
  match p.rule with
  | .renderSnippet => do
    let snippet ← expect "snippet" (p.span offset) p.children[0]?
    return { r with snippet := some (← Expression.ofPair offset snippet) }
  | .renderVariable => do return { r with value := some (← renderVariableOfPair offset p) }
  | .renderAlias => do return { r with asName := some (← renderAliasOfPair offset p) }
  | .namedArgument => do
    return { r with arguments := r.arguments ++ [← NamedArgument.ofPair offset p] }
  | _ => .error (unexpected offset p)

def renderOfPairs (offset : Nat) (s : Span) (items : List (Pair Rule)) : Except Error Render := do
  let r ← items.foldlM (RenderParts.add offset) {}
  match r.snippet with
  | some snippet => return ⟨snippet, r.value, r.asName, r.arguments⟩
  | none => .error (missing "snippet" s)

structure CycleParts where
  group : Option Expression := none
  values : List Expression := []

def CycleParts.add (offset : Nat) (s : Span) (c : CycleParts) (p : Pair Rule) :
    Except Error CycleParts :=
  match p.rule with
  | .cycleGroup => do
    let group ← expect "cycle group" s p.children[0]?
    return { c with group := some (← Expression.ofPair offset group) }
  | _ => do return { c with values := c.values ++ [← Expression.ofPair offset p] }

def cycleOfPairs (offset : Nat) (s : Span) (items : List (Pair Rule)) : Except Error Flat := do
  let c ← items.foldlM (CycleParts.add offset s) {}
  return cycle c.group c.values

structure PageParts where
  operands : List Expression := []
  arguments : List NamedArgument := []

def PageParts.add (offset : Nat) (g : PageParts) (p : Pair Rule) : Except Error PageParts :=
  match p.rule with
  | .kwBy => .ok g
  | .namedArgument => do
    return { g with arguments := g.arguments ++ [← NamedArgument.ofPair offset p] }
  | _ => do return { g with operands := g.operands ++ [← Expression.ofPair offset p] }

def paginateOfPairs (offset : Nat) (s : Span) (items : List (Pair Rule)) : Except Error Flat := do
  let g ← items.foldlM (PageParts.add offset) {}
  match g.operands with
  | collection :: pageSize :: _ => return paginate collection pageSize g.arguments
  | _ => .error (missing "paginate operands" s)

/-- The markup of a tag from the parse tree `p` of the tag's own rule, matched at `offset`. -/
def ofPair (offset : Nat) (tag : NamedTag) (p : Pair Rule) : Except Error Flat := do
  let items := parts p
  let s := p.span offset
  match tag with
  | .assign =>
    let name ← expect "variable name" s items[0]?
    let value ← expect "assigned value" s items[1]?
    return assign name.string (← Variable.ofPair offset value)
  | .capture | .decrement | .increment =>
    return variableName (nameOfPair (← expect "variable name" s items[0]?))
  | .caseTag => return caseOf (← Expression.ofPair offset (← expect "expression" s items[0]?))
  | .layout => return layout (← Expression.ofPair offset (← expect "layout" s items[0]?))
  | .sectionTag | .sections =>
    return sectionName (← Expression.ofPair offset (← expect "section name" s items[0]?))
  | .echo => return echo (← Variable.ofPair offset (← expect "variable" s items[0]?))
  | .whenTag =>
    let values := items.filter (·.rule != .logicalOperator)
    return whenAny (← values.mapM (Expression.ofPair offset))
  | .ifTag | .unlessTag | .elsif => return condition (← Clause.ofPairs offset none items)
  | .forTag | .tablerow => return loop (← loopOfPairs offset s items)
  | .cycle => cycleOfPairs offset s items
  | .includeTag | .render => return render (← renderOfPairs offset s items)
  | .paginate => paginateOfPairs offset s items
  | .contentFor =>
    let type ← Expression.ofPair offset (← expect "content type" s items[0]?)
    return contentFor type (← items.tail.mapM (NamedArgument.ofPair offset))
  | .form => return form (← items.mapM (Argument.ofPair offset))
  | .liquid => .error (.unreadable .statementsAsMarkup s)

def read (region : Region) (start : Nat) (tag : NamedTag) (rule : Rule) (markup : List Char) :
    Except Error Flat := do
  match ← matchRule region start rule markup with
  | some p => ofPair start tag p
  | none => return text (String.ofList (Text.trim markup))

end Markup

end LiquidTemplate
