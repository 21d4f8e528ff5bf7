import LiquidTemplate.Node.Name
import LiquidTemplate.Token.Json

namespace LiquidTemplate

def RawKind.bodyToJson (kind : RawKind) (body : String) (nodes : List Json) (span : Span) : Json :=
  .record [("kind", .text kind.name), ("value", .text body), ("nodes", .array nodes),
    ("position", span.toJson)]

def TagHead.toJson (head : TagHead) (body : Json) (span : Span) (closing : Option Closing) : Json :=
  .record ([("type", .text "LiquidTag"), ("name", .text head.name),
    ("markup", head.markup.foldedToJson), ("body", body)] ++ head.trim.members ++
    (match closing with
      | some c => c.trim.closingMembers
      | none => Trim.closingMembers {}) ++
    [("position", span.toJson), ("block_start_position", head.span.toJson),
      ("block_end_position", .optional Span.toJson (closing.map Closing.span))])

def Json.tagBody (kind : String) (children : Json) : Json :=
  .record [("kind", .text kind), ("children", children)]

def Json.leafBody : Json := .record [("kind", .text "Leaf")]

namespace Node

mutual

def toJson : Node → Json
  | text run => run.toJson
  | frontmatter body span => .record
      [("type", .text "YamlFrontmatter"), ("body", .text body), ("position", span.toJson)]
  | doctype legacy span => .record
      [("type", .text "HtmlDoctype"), ("legacy_doctype_string", .optional .text legacy),
        ("position", span.toJson)]
  | comment body span => .record
      [("type", .text "HtmlComment"), ("body", .text body), ("position", span.toJson)]
  | element name attributes opening children closing => .record
      [("type", .text "HtmlElement"), ("name", .list (Piece.toJson .nodes) name),
        ("attributes", .array (listToJson attributes)), ("children", .array (listToJson children)),
        ("position", (Span.between opening.lo closing.hi).toJson),
        ("block_start_position", opening.toJson), ("block_end_position", closing.toJson)]
  | rawElement e kind attributes nodes => .record
      ([("type", .text "HtmlRawNode"), ("name", .array [e.name.toJson]),
        ("attributes", .array (listToJson attributes)),
        ("body", kind.bodyToJson e.body (listToJson nodes) e.bodySpan),
        ("position", e.block.span.toJson)] ++ e.block.endMembers)
  | voidElement name attributes span => .record
      [("type", .text "HtmlVoidElement"), ("name", .array [name.toJson]),
        ("attributes", .array (listToJson attributes)), ("position", span.toJson)]
  | selfClosing name attributes span => .record
      [("type", .text "HtmlSelfClosingElement"), ("name", .list (Piece.toJson .nodes) name),
        ("attributes", .array (listToJson attributes)), ("position", span.toJson)]
  | danglingClose name span => .record
      [("type", .text "HtmlDanglingMarkerClose"), ("name", .list (Piece.toJson .nodes) name),
        ("position", span.toJson), ("block_start_position", span.toJson)]
  | valueAttribute quotes name value valueSpan span => .record
      [("type", .text quotes.type), ("name", .list (Piece.toJson .nodes) name),
        ("value", .array (listToJson value)), ("attribute_position", valueSpan.toJson),
        ("position", span.toJson)]
  | bareAttribute name span => .record
      [("type", .text "AttrEmpty"), ("name", .list (Piece.toJson .nodes) name),
        ("position", span.toJson)]
  | output o => o.toJson .nodes
  | tag head => head.toJson .leafBody head.span none
  | block head children closing =>
    head.toJson (.tagBody "Block" (.array (listToJson children)))
      (.between head.span.lo closing.span.hi) (some closing)
  | branched head first others closing =>
    head.toJson
      (.tagBody "Branched"
        (.record [("default", branchToJson first), ("alternates", .array (branchesToJson others))]))
      (.between head.span.lo closing.span.hi) (some closing)
  | statements trim span body => .record
      ([("type", .text "LiquidTag"), ("name", .text "liquid"),
        ("markup", .kinded "Liquid" (.array (listToJson body))), ("body", .leafBody)] ++
        trim.members ++ Trim.closingMembers {} ++
        [("position", span.toJson), ("block_start_position", span.toJson),
          ("block_end_position", .null)])
  | rawTag t kind nodes => .record
      ([("type", .text "LiquidRawTag"), ("name", .text t.name), ("markup", .text t.markup),
        ("body", kind.bodyToJson t.body (listToJson nodes) t.bodySpan)] ++ t.trim.members ++
        t.closingTrim.closingMembers ++ [("position", t.block.span.toJson)] ++ t.block.endMembers)
  | docParam p => p.toJson
  | docExample content span => .record
      [("type", .text "LiquidDocExample"), ("content", .text content), ("position", span.toJson)]
  | docDescription content span => .record
      [("type", .text "LiquidDocDescription"), ("content", .text content),
        ("position", span.toJson)]

def listToJson : List Node → List Json
  | [] => []
  | n :: ns => n.toJson :: listToJson ns

def branchToJson : Branch → Json
  | .mk head children closing => .record
      ([("name", .optional .text head.name), ("markup", head.markup.foldedToJson),
        ("children", .array (listToJson children))] ++ head.trim.members ++
        [("position", (Span.between head.span.lo closing.hi).toJson),
          ("block_start_position", head.span.toJson),
          ("block_end_position", closing.toJson)])

def branchesToJson : List Branch → List Json
  | [] => []
  | b :: bs => branchToJson b :: branchesToJson bs

end

end Node

def Document.toJson (d : Document) : Json :=
  .record [("children", .array (Node.listToJson d.children)), ("source", .text d.source),
    ("position", d.span.toJson)]

end LiquidTemplate
