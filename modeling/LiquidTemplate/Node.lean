import LiquidTemplate.Token

namespace LiquidTemplate

inductive RawKind where
  | css
  | javascript
  | json
  | text
  deriving DecidableEq, Repr

structure TagHead where
  name : String
  markup : Markup.Folded
  trim : Trim
  span : Span
  deriving Repr

structure Closing where
  trim : Trim
  span : Span
  deriving DecidableEq, Repr

/-- The opening of a branch.  The first branch of a tag has no name, and its opening is empty. -/
structure BranchHead where
  name : Option String
  markup : Markup.Folded
  trim : Trim
  span : Span
  deriving Repr

mutual

inductive Node where
  | text (run : TextRun)
  | frontmatter (body : String) (span : Span)
  | doctype (legacy : Option String) (span : Span)
  | comment (body : String) (span : Span)
  | element (name : List Piece) (attributes : List Node) (opening : Span) (children : List Node)
      (closing : Span)
  | rawElement (element : RawElement) (kind : RawKind) (attributes nodes : List Node)
  | voidElement (name : TextRun) (attributes : List Node) (span : Span)
  | selfClosing (name : List Piece) (attributes : List Node) (span : Span)
  /-- The closing of an element that was not opened in the same place. -/
  | danglingClose (name : List Piece) (span : Span)
  | valueAttribute (quotes : Quotes) (name : List Piece) (value : List Node)
      (valueSpan span : Span)
  | bareAttribute (name : List Piece) (span : Span)
  | output (output : Output)
  /-- A tag without a body. -/
  | tag (head : TagHead)
  | block (head : TagHead) (children : List Node) (closing : Closing)
  | branched (head : TagHead) (first : Branch) (others : List Branch) (closing : Closing)
  | statements (trim : Trim) (span : Span) (body : List Node)
  | rawTag (tag : RawTag) (kind : RawKind) (nodes : List Node)
  | docParam (param : DocParam)
  | docExample (content : String) (span : Span)
  | docDescription (content : String) (span : Span)

inductive Branch where
  | mk (head : BranchHead) (children : List Node) (closing : Span)

end

namespace Branch

def head : Branch → BranchHead
  | mk h _ _ => h

def children : Branch → List Node
  | mk _ c _ => c

def closing : Branch → Span
  | mk _ _ c => c

def stop (b : Branch) : Nat := b.closing.hi

def span (b : Branch) : Span := .between b.head.span.lo b.stop

end Branch

namespace Node

def span : Node → Span
  | text run => run.span
  | frontmatter _ s => s
  | doctype _ s => s
  | comment _ s => s
  | element _ _ opening _ closing => .between opening.lo closing.hi
  | rawElement e _ _ _ => e.block.span
  | voidElement _ _ s => s
  | selfClosing _ _ s => s
  | danglingClose _ s => s
  | valueAttribute _ _ _ _ s => s
  | bareAttribute _ s => s
  | output o => o.span
  | tag head => head.span
  | block head _ closing => .between head.span.lo closing.span.hi
  | branched head _ _ closing => .between head.span.lo closing.span.hi
  | statements _ s _ => s
  | rawTag t _ _ => t.block.span
  | docParam p => p.span
  | docExample _ s => s
  | docDescription _ s => s

def kind : Node → String
  | text _ => "TextNode"
  | frontmatter .. => "YamlFrontmatter"
  | doctype .. => "HtmlDoctype"
  | comment .. => "HtmlComment"
  | element .. => "HtmlElement"
  | rawElement .. => "HtmlRawNode"
  | voidElement .. => "HtmlVoidElement"
  | selfClosing .. => "HtmlSelfClosingElement"
  | danglingClose .. => "HtmlDanglingMarkerClose"
  | valueAttribute .double .. => "AttrDoubleQuoted"
  | valueAttribute .single .. => "AttrSingleQuoted"
  | valueAttribute .none .. => "AttrUnquoted"
  | bareAttribute .. => "AttrEmpty"
  | output _ => "LiquidVariableOutput"
  | tag _ | block .. | branched .. | statements .. => "LiquidTag"
  | rawTag .. => "LiquidRawTag"
  | docParam _ => "LiquidDocParam"
  | docExample .. => "LiquidDocExample"
  | docDescription .. => "LiquidDocDescription"

def isTag : Node → Bool
  | tag _ | block .. | branched .. | statements .. => true
  | _ => false

def isDanglingClose : Node → Bool
  | danglingClose .. => true
  | _ => false

def ofPiece : Piece → Node
  | .text run => text run
  | .output o => output o

end Node

structure Document where
  children : List Node
  source : String
  span : Span

end LiquidTemplate
