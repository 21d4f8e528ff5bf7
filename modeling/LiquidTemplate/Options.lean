import LiquidTemplate.Json.Reader

namespace LiquidTemplate

inductive Mode where
  /-- Markup that cannot be read is an error. -/
  | strict
  /-- Markup that cannot be read is kept as text. -/
  | tolerant
  /-- As tolerant, and names may contain the completion placeholder. -/
  | completion
  deriving DecidableEq, Repr, Inhabited

namespace Mode

def name : Mode → String
  | strict => "strict"
  | tolerant => "tolerant"
  | completion => "completion"

def ofName? : String → Option Mode
  | "strict" => some strict
  | "tolerant" => some tolerant
  | "completion" => some completion
  | _ => none

def unknown (name : String) : String := "unknown parse mode '" ++ name ++ "'"

theorem ofName?_name (m : Mode) : ofName? m.name = some m := by
  cases m <;> decide

def ofJson? (j : Json) : Option Mode :=
  match j.text?, j.members? with
  | some name, _ => ofName? name
  | none, some [(name, .null)] => ofName? name
  | _, _ => none

end Mode

structure Options where
  mode : Mode := .tolerant
  /-- Whether constructs that are open at the end of the text are closed there. -/
  allowUnclosed : Bool := false
  deriving DecidableEq, Repr, Inhabited

namespace Options

def member? (members : List (String × Json)) (name : String) : Option (Option Json) :=
  match members.filter (·.1 == name) with
  | [] => some none
  | [m] => some (some m.2)
  | _ => none

/-- Options are written as an object, in which other members are ignored, or as an array of the
values in order.  What is missing has its default. -/
def ofJson? : Json → Option Options
  | .array items =>
    match items with
    | [] => some {}
    | [mode] => do return { mode := ← Mode.ofJson? mode }
    | [mode, allow] => do return { mode := ← Mode.ofJson? mode, allowUnclosed := ← allow.bool? }
    | _ => none
  | j => do
    let members ← j.members?
    let defaults : Options := {}
    let mode ← match ← member? members "mode" with
      | none => some defaults.mode
      | some value => Mode.ofJson? value
    let allow ← match ← member? members "allowUnclosedDocumentNode" with
      | none => some defaults.allowUnclosed
      | some value => value.bool?
    return ⟨mode, allow⟩

def parse? (text : String) : Option Options := (Json.parse? text).bind ofJson?

def toJson (o : Options) : Json :=
  .record [("mode", .text o.mode.name), ("allowUnclosedDocumentNode", .bool o.allowUnclosed)]

end Options

end LiquidTemplate
