import LiquidTemplate.Condition

namespace LiquidTemplate

structure Loop where
  /-- The variable that holds the current member. -/
  name : String
  collection : Expression
  reversed : Bool
  arguments : List NamedArgument
  deriving Repr

inductive RenderMode where
  | withValue
  | forEach
  deriving DecidableEq, Repr

namespace RenderMode

def spelling : RenderMode → String
  | withValue => "with"
  | forEach => "for"

def ofSpelling? : String → Option RenderMode
  | "with" => some withValue
  | "for" => some forEach
  | _ => none

end RenderMode

structure RenderVariable where
  mode : RenderMode
  value : Expression
  span : Span
  deriving Repr

structure RenderAlias where
  name : String
  span : Span
  deriving Repr

structure Render where
  snippet : Expression
  value : Option RenderVariable
  asName : Option RenderAlias
  arguments : List NamedArgument
  deriving Repr

/-- The markup of a tag, in which a condition is given by a `κ`. -/
inductive Markup (κ : Type) where
  /-- The markup of a tag without a grammar of its own, or one that could not be read. -/
  | text (value : String)
  | assign (name : String) (value : Variable)
  | variableName (name : String)
  | caseOf (subject : Expression)
  | whenAny (values : List Expression)
  | condition (condition : κ)
  | loop (loop : Loop)
  | cycle (group : Option Expression) (values : List Expression)
  | render (render : Render)
  | paginate (collection pageSize : Expression) (arguments : List NamedArgument)
  | contentFor (type : Expression) (arguments : List NamedArgument)
  | form (arguments : List Argument)
  | layout (name : Expression)
  | sectionName (name : Expression)
  | echo (value : Variable)
  deriving Repr

namespace Markup

/-- Markup with its condition as a list of clauses. -/
abbrev Flat := Markup (List Clause)

abbrev Folded := Markup Condition

def fold : Flat → Folded
  | text value => text value
  | assign name value => assign name value
  | variableName name => variableName name
  | caseOf subject => caseOf subject
  | whenAny values => whenAny values
  | condition clauses =>
    match Condition.ofClauses? clauses with
    | some c => condition c
    | none => text ""
  | loop l => loop l
  | cycle group values => cycle group values
  | render r => render r
  | paginate collection pageSize arguments => paginate collection pageSize arguments
  | contentFor type arguments => contentFor type arguments
  | form arguments => form arguments
  | layout name => layout name
  | sectionName name => sectionName name
  | echo value => echo value

end Markup

end LiquidTemplate
