import LiquidTemplate.Expression.Json
import LiquidTemplate.Markup

namespace LiquidTemplate

def Loop.toJson (view : View) (l : Loop) : Json :=
  .record [("variable_name", .text l.name), ("collection", l.collection.toJson view),
    ("reversed", .bool l.reversed), ("args", .list (NamedArgument.toJson view) l.arguments)]

def RenderVariable.toJson (view : View) (v : RenderVariable) : Json :=
  match view with
  | .tokens => .array [.text v.mode.spelling, v.value.toJson view, v.span.toJson]
  | .nodes => .record
      [("kind", .text v.mode.spelling), ("name", v.value.toJson view), ("position", v.span.toJson)]

def RenderAlias.toJson (view : View) (a : RenderAlias) : Json :=
  match view with
  | .tokens => .array [.text a.name, a.span.toJson]
  | .nodes => .record [("name", .text a.name), ("position", a.span.toJson)]

def Render.toJson (view : View) (r : Render) : Json :=
  .record [("snippet", r.snippet.toJson view),
    ("variable", .optional (RenderVariable.toJson view) r.value),
    ("alias", .optional (RenderAlias.toJson view) r.asName),
    ("args", .list (NamedArgument.toJson view) r.arguments)]

namespace Markup

variable {κ : Type}

def kind : Markup κ → String
  | text _ => "Base"
  | assign .. => "Assign"
  | variableName _ => "VariableName"
  | caseOf _ => "Case"
  | whenAny _ => "When"
  | condition _ => "Condition"
  | loop _ => "For"
  | cycle .. => "Cycle"
  | render _ => "Render"
  | paginate .. => "Paginate"
  | contentFor .. => "ContentFor"
  | form _ => "Form"
  | layout _ => "Layout"
  | sectionName _ => "Section"
  | echo _ => "Echo"

def valueToJson (view : View) (encode : κ → Json) : Markup κ → Json
  | text value => .text value
  | assign name value => .record [("name", .text name), ("value", value.toJson view)]
  | variableName name => .text name
  | caseOf subject => subject.toJson view
  | whenAny values => .list (Expression.toJson view) values
  | condition c => encode c
  | loop l => l.toJson view
  | cycle group values => .record
      [("group", .optional (Expression.toJson view) group),
        ("args", .list (Expression.toJson view) values)]
  | render r => r.toJson view
  | paginate collection pageSize arguments => .record
      [("collection", collection.toJson view), ("page_size", pageSize.toJson view),
        ("args", .list (NamedArgument.toJson view) arguments)]
  | contentFor type arguments => .record
      [("content_type", type.toJson view),
        ("args", .list (NamedArgument.toJson view) arguments)]
  | form arguments => .list (Argument.toJson view) arguments
  | layout name => name.toJson view
  | sectionName name => name.toJson view
  | echo value => value.toJson view

def flatToJson (m : Flat) : Json :=
  .record [("type", .text m.kind), ("value", m.valueToJson .tokens (.list Clause.toJson))]

def foldedToJson (m : Folded) : Json :=
  .kinded m.kind (m.valueToJson .nodes Condition.toJson)

end Markup

end LiquidTemplate
