import LiquidTemplate.Markup.Json
import LiquidTemplate.Token

namespace LiquidTemplate

def TextRun.toJson (t : TextRun) : Json :=
  .record [("type", .text "TextNode"), ("value", .text t.value), ("position", t.span.toJson)]

def Trim.members (t : Trim) : List (String × Json) :=
  [("whitespace_start", .bool t.before), ("whitespace_end", .bool t.after)]

def Trim.closingMembers (t : Trim) : List (String × Json) :=
  [("delimiter_whitespace_start", .bool t.before), ("delimiter_whitespace_end", .bool t.after)]

def Block.endMembers (b : Block) : List (String × Json) :=
  [("block_start_position", b.opening.toJson), ("block_end_position", b.closing.toJson)]

def OutputMarkup.toJson (view : View) : OutputMarkup → Json
  | value v =>
    match view with
    | .tokens => .kinded "Variable" (v.toJson view)
    | .nodes => v.toJson view
  | raw text =>
    match view with
    | .tokens => .kinded "Raw" (.text text)
    | .nodes => .text text

def View.outputType : View → String
  | tokens => "LiquidDrop"
  | nodes => "LiquidVariableOutput"

def Output.toJson (view : View) (o : Output) : Json :=
  .record ([("type", .text view.outputType), ("markup", o.markup.toJson view)] ++ o.trim.members ++
    [("position", o.span.toJson)])

def Piece.toJson (view : View) : Piece → Json
  | text run => run.toJson
  | output o => o.toJson view

def Quotes.type : Quotes → String
  | double => "AttrDoubleQuoted"
  | single => "AttrSingleQuoted"
  | none => "AttrUnquoted"

def DocParam.toJson (p : DocParam) : Json :=
  .record [("type", .text "LiquidDocParam"), ("name", .text p.name),
    ("param_type", .optional .text p.type), ("description", .optional .text p.description),
    ("required", .bool p.required), ("position", p.span.toJson)]

def Tag.toJson (type : String) (t : Tag) : Json :=
  .record ([("type", .text type), ("name", .text t.name), ("markup", t.markup.flatToJson),
    ("markup_position", t.markupSpan.toJson)] ++ t.trim.members ++ [("position", t.span.toJson)])

namespace Token

mutual

def toJson : Token → Json
  | text run => run.toJson
  | frontmatter body span => .record
      [("type", .text "YamlFrontmatter"), ("body", .text body), ("position", span.toJson)]
  | doctype legacy span => .record
      [("type", .text "HtmlDoctype"), ("legacy_doctype_string", .optional .text legacy),
        ("position", span.toJson)]
  | comment body span => .record
      [("type", .text "HtmlComment"), ("body", .text body), ("position", span.toJson)]
  | rawElement e attributes body => .record
      ([("type", .text "HtmlRawTag"), ("name", .array [e.name.toJson]),
        ("attr_list", .array (listToJson attributes)), ("body", .text e.body),
        ("body_position", e.bodySpan.toJson), ("body_nodes", .array (listToJson body))] ++
        e.block.endMembers ++ [("position", e.block.span.toJson)])
  | voidElement name attributes span => .record
      [("type", .text "HtmlVoidElement"), ("name", .array [name.toJson]),
        ("attr_list", .array (listToJson attributes)), ("position", span.toJson)]
  | selfClosing name attributes span => .record
      [("type", .text "HtmlSelfClosingElement"), ("name", .list (Piece.toJson .tokens) name),
        ("attr_list", .array (listToJson attributes)), ("position", span.toJson)]
  | elementOpen name attributes span => .record
      [("type", .text "HtmlTagOpen"), ("name", .list (Piece.toJson .tokens) name),
        ("attr_list", .array (listToJson attributes)), ("position", span.toJson)]
  | elementClose name span => .record
      [("type", .text "HtmlTagClose"), ("name", .list (Piece.toJson .tokens) name),
        ("position", span.toJson)]
  | valueAttribute quotes name value valueSpan span => .record
      [("type", .text quotes.type), ("name", .list (Piece.toJson .tokens) name),
        ("value", .array (listToJson value)), ("value_position", valueSpan.toJson),
        ("position", span.toJson)]
  | bareAttribute name span => .record
      [("type", .text "AttrEmpty"), ("name", .list (Piece.toJson .tokens) name),
        ("position", span.toJson)]
  | output o => o.toJson .tokens
  | tagOpen t => t.toJson "LiquidTagOpen"
  | tag t => t.toJson "LiquidTag"
  | statements head body => .record
      ([("type", .text "LiquidTag"), ("name", .text "liquid"),
        ("markup", .record [("type", .text "Liquid"), ("value", .array (listToJson body))]),
        ("markup_position", head.markupSpan.toJson)] ++ head.trim.members ++
        [("position", head.span.toJson)])
  | tagClose close => .record
      ([("type", .text "LiquidTagClose"), ("name", .text close.name)] ++ close.trim.members ++
        [("position", close.span.toJson)])
  | rawTag t body => .record
      ([("type", .text "LiquidRawTag"), ("name", .text t.name), ("markup", .text t.markup),
        ("body", .text t.body), ("body_position", t.bodySpan.toJson),
        ("body_nodes", .array (listToJson body))] ++ t.trim.members ++
        t.closingTrim.closingMembers ++ t.block.endMembers ++ [("position", t.block.span.toJson)])
  | docParam p => p.toJson
  | docExample content span => .record
      [("type", .text "LiquidDocExample"), ("content", .text content), ("position", span.toJson)]
  | docDescription content span => .record
      [("type", .text "LiquidDocDescription"), ("content", .text content),
        ("position", span.toJson)]

def listToJson : List Token → List Json
  | [] => []
  | t :: ts => t.toJson :: listToJson ts

end

end Token

end LiquidTemplate
