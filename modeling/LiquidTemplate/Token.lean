import LiquidTemplate.Markup

namespace LiquidTemplate

structure TextRun where
  value : String
  span : Span
  deriving DecidableEq, Repr

/-- Whether blanks before and after a construct are to be removed from the output. -/
structure Trim where
  before : Bool := false
  after : Bool := false
  deriving DecidableEq, Repr

structure Block where
  span : Span
  opening : Span
  closing : Span
  deriving DecidableEq, Repr

inductive OutputMarkup where
  | value (value : Variable)
  /-- Markup that could not be read, or nothing. -/
  | raw (text : String)
  deriving Repr

structure Output where
  markup : OutputMarkup
  trim : Trim
  span : Span
  deriving Repr

inductive Piece where
  | text (run : TextRun)
  | output (output : Output)
  deriving Repr

inductive Quotes where
  | double
  | single
  | none
  deriving DecidableEq, Repr

structure Tag where
  name : String
  markup : Markup.Flat
  markupSpan : Span
  trim : Trim
  span : Span
  deriving Repr

structure TagClose where
  name : String
  trim : Trim
  span : Span
  deriving DecidableEq, Repr

structure Statements where
  markupSpan : Span
  trim : Trim
  span : Span
  deriving DecidableEq, Repr

structure RawTag where
  name : String
  markup : String
  body : String
  bodySpan : Span
  trim : Trim
  closingTrim : Trim
  block : Block
  deriving DecidableEq, Repr

structure RawElement where
  name : TextRun
  body : String
  bodySpan : Span
  block : Block
  deriving DecidableEq, Repr

structure DocParam where
  name : String
  type : Option String
  description : Option String
  required : Bool
  span : Span
  deriving DecidableEq, Repr

inductive Token where
  | text (run : TextRun)
  | frontmatter (body : String) (span : Span)
  | doctype (legacy : Option String) (span : Span)
  | comment (body : String) (span : Span)
  | rawElement (element : RawElement) (attributes body : List Token)
  | voidElement (name : TextRun) (attributes : List Token) (span : Span)
  | selfClosing (name : List Piece) (attributes : List Token) (span : Span)
  | elementOpen (name : List Piece) (attributes : List Token) (span : Span)
  | elementClose (name : List Piece) (span : Span)
  | valueAttribute (quotes : Quotes) (name : List Piece) (value : List Token)
      (valueSpan span : Span)
  | bareAttribute (name : List Piece) (span : Span)
  | output (output : Output)
  | tagOpen (tag : Tag)
  | tag (tag : Tag)
  | statements (head : Statements) (body : List Token)
  | tagClose (close : TagClose)
  | rawTag (tag : RawTag) (body : List Token)
  | docParam (param : DocParam)
  | docExample (content : String) (span : Span)
  | docDescription (content : String) (span : Span)
  deriving Repr

namespace Token

def span : Token → Span
  | text run => run.span
  | frontmatter _ s => s
  | doctype _ s => s
  | comment _ s => s
  | rawElement e _ _ => e.block.span
  | voidElement _ _ s => s
  | selfClosing _ _ s => s
  | elementOpen _ _ s => s
  | elementClose _ s => s
  | valueAttribute _ _ _ _ s => s
  | bareAttribute _ s => s
  | output o => o.span
  | tagOpen t => t.span
  | tag t => t.span
  | statements head _ => head.span
  | tagClose close => close.span
  | rawTag t _ => t.block.span
  | docParam p => p.span
  | docExample _ s => s
  | docDescription _ s => s

end Token

end LiquidTemplate
