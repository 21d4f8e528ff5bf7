import LiquidTemplate.Node

namespace LiquidTemplate

def OutputMarkup.source : OutputMarkup → String
  | value v => v.source
  | raw text => text

def Piece.label : Piece → String
  | text run => run.value
  | output o => "\x7b\x7b" ++ o.markup.source ++ "\x7d\x7d"

def nameText (name : List Piece) : String := String.join (name.map Piece.label)

namespace Node

def name? : Node → Option String
  | element name .. => some (nameText name)
  | rawElement e .. => some e.name.value
  | voidElement name .. => some name.value
  | selfClosing name .. => some (nameText name)
  | danglingClose name _ => some (nameText name)
  | valueAttribute _ name .. => some (nameText name)
  | bareAttribute name _ => some (nameText name)
  | tag head => some head.name
  | block head .. => some head.name
  | branched head .. => some head.name
  | statements .. => some "liquid"
  | _ => none

def attributes? : Node → Option (List Node)
  | element _ attributes .. => some attributes
  | rawElement _ _ attributes _ => some attributes
  | voidElement _ attributes _ => some attributes
  | selfClosing _ attributes _ => some attributes
  | _ => none

def branches? : Node → Option (List Branch)
  | branched _ first others _ => some (first :: others)
  | _ => none

def plainText? (nodes : List Node) : Option String :=
  String.join <$> nodes.mapM fun
    | text run => some run.value
    | _ => none

def valueNamed? (wanted : String) : Node → Option String
  | valueAttribute _ name value _ _ =>
    if Text.sameCaseless (nameText name) wanted then plainText? value else none
  | _ => none

def attributeValue? (attributes : List Node) (wanted : String) : Option String :=
  attributes.findSome? (valueNamed? wanted)

end Node

namespace RawKind

def name : RawKind → String
  | css => "css"
  | javascript => "javascript"
  | json => "json"
  | text => "text"

def ofTag : String → RawKind
  | "javascript" => javascript
  | "schema" => json
  | "style" => css
  | "stylesheet" => css
  | _ => text

def ofScriptType (type : String) : RawKind :=
  let type := Text.trim type.toList
  if type.isEmpty ∨ type = "module".toList then javascript
  else if Text.occurs "json".toList type then json
  else if Text.occurs "javascript".toList type ∨ Text.occurs "ecmascript".toList type then javascript
  else text

def ofElement (name : String) (type : Option String) : RawKind :=
  match String.ofList (name.toList.map Char.toLower) with
  | "style" => css
  | "script" => (type.map ofScriptType).getD javascript
  | _ => text

end RawKind

end LiquidTemplate
