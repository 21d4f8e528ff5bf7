import LiquidTemplate.Condition
import LiquidTemplate.Json.Basic

namespace LiquidTemplate

/-- Which of the two views of a template a value is written for. -/
inductive View where
  | tokens
  | nodes
  deriving DecidableEq, Repr

def Span.toJson (s : Span) : Json :=
  .record [("start", .int s.start.toInt), ("end", .int s.stop.toInt)]

def Span.ofJson? : Json → Option Span
  | .array [start, stop] => do return ⟨.ofInt (← start.int?), .ofInt (← stop.int?)⟩
  | .array _ => none
  | j => do return ⟨.ofInt (← (← j.get? "start").int?), .ofInt (← (← j.get? "end").int?)⟩

namespace Expression

mutual

def toJson (view : View) : Expression → Json
  | string value single span => .record
      [("type", .text "String"), ("value", .text value), ("single_quoted", .bool single),
        ("position", span.toJson)]
  | number digits span => .record
      [("type", .text "Number"), ("value", .text digits), ("position", span.toJson)]
  | literal value span =>
    let meaning := match view with
      | .tokens => []
      | .nodes => [("value", .text value.value)]
    .record ([("type", .text "Literal"), ("keyword", .text value.keyword)] ++ meaning ++
      [("position", span.toJson)])
  | range first last span => .record
      [("type", .text "Range"), ("start", first.toJson view), ("end", last.toJson view),
        ("position", span.toJson)]
  | lookup name keys span => .record
      [("type", .text "VariableLookup"), ("name", .optional .text name),
        ("lookups", .array (listToJson view keys)), ("position", span.toJson)]

def listToJson (view : View) : List Expression → List Json
  | [] => []
  | e :: es => e.toJson view :: listToJson view es

end

end Expression

def NamedArgument.toJson (view : View) (a : NamedArgument) : Json :=
  .record [("name", .text a.name), ("value", a.value.toJson view), ("position", a.span.toJson)]

def Json.kinded (kind : String) (value : Json) : Json :=
  .record [("kind", .text kind), ("value", value)]

def Argument.toJson (view : View) : Argument → Json
  | positional value =>
    match view with
    | .tokens => .kinded "Positional" (value.toJson view)
    | .nodes => value.toJson view
  | named argument =>
    match view with
    | .tokens => .kinded "Named" (argument.toJson view)
    | .nodes => argument.toJson view

def Filter.toJson (view : View) (f : Filter) : Json :=
  .record [("name", .text f.name), ("args", .list (Argument.toJson view) f.arguments),
    ("position", f.span.toJson)]

def Variable.toJson (view : View) (v : Variable) : Json :=
  .record [("expression", v.expression.toJson view),
    ("filters", .list (Filter.toJson view) v.filters), ("raw_source", .text v.source),
    ("position", v.span.toJson)]

def Test.toJson : Test → Json
  | comparison c left right span => .kinded "Comparison" <| .record
      [("comparator", .text c.spelling), ("left", left.toJson .tokens),
        ("right", right.toJson .tokens), ("position", span.toJson)]
  | expression value => .kinded "Expression" (value.toJson .tokens)

def Clause.toJson (c : Clause) : Json :=
  .record [("relation", .optional (.text ·.spelling) c.connective), ("item", c.test.toJson),
    ("position", c.span.toJson)]

def Condition.toJson : Condition → Json
  | logical connective left right span => .record
      [("type", .text "Logical"), ("relation", .text connective.spelling), ("left", left.toJson),
        ("right", right.toJson), ("position", span.toJson)]
  | comparison c left right span => .record
      [("type", .text "Comparison"), ("comparator", .text c.spelling),
        ("left", left.toJson .nodes), ("right", right.toJson .nodes), ("position", span.toJson)]
  | expression value span => .record
      [("type", .text "Expression"), ("expression", value.toJson .nodes),
        ("position", span.toJson)]

end LiquidTemplate
