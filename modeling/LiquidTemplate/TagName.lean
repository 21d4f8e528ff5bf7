import LiquidTemplate.Rule

namespace LiquidTemplate

/-- The tags whose markup has a grammar of its own.  The markup of every other tag is text. -/
inductive NamedTag where
  | assign
  | capture
  | caseTag
  | contentFor
  | cycle
  | decrement
  | echo
  | elsif
  | forTag
  | form
  | ifTag
  | includeTag
  | increment
  | layout
  | liquid
  | paginate
  | render
  | sectionTag
  | sections
  | tablerow
  | unlessTag
  | whenTag
  deriving DecidableEq, Repr

namespace NamedTag

def name : NamedTag → String
  | assign => "assign"
  | capture => "capture"
  | caseTag => "case"
  | contentFor => "content_for"
  | cycle => "cycle"
  | decrement => "decrement"
  | echo => "echo"
  | elsif => "elsif"
  | forTag => "for"
  | form => "form"
  | ifTag => "if"
  | includeTag => "include"
  | increment => "increment"
  | layout => "layout"
  | liquid => "liquid"
  | paginate => "paginate"
  | render => "render"
  | sectionTag => "section"
  | sections => "sections"
  | tablerow => "tablerow"
  | unlessTag => "unless"
  | whenTag => "when"

def all : List NamedTag :=
  [assign, capture, caseTag, contentFor, cycle, decrement, echo, elsif, forTag, form, ifTag,
   includeTag, increment, layout, liquid, paginate, render, sectionTag, sections, tablerow,
   unlessTag, whenTag]

def ofName? (name : String) : Option NamedTag := all.find? (·.name == name)

theorem ofName?_name (t : NamedTag) : ofName? t.name = some t := by
  cases t <;> decide

/-- The rule for the tag's markup.  The markup of `liquid` is a list of statements instead. -/
def markupRule? : NamedTag → Option Rule
  | assign => some .markupAssign
  | capture | decrement | increment => some .markupVariableName
  | caseTag => some .markupCase
  | contentFor => some .markupContentFor
  | cycle => some .markupCycle
  | echo => some .markupVariable
  | elsif | ifTag | unlessTag => some .markupCondition
  | forTag | tablerow => some .markupFor
  | form => some .markupForm
  | includeTag | render => some .markupRender
  | layout => some .markupLayout
  | paginate => some .markupPaginate
  | sectionTag | sections => some .markupString
  | whenTag => some .markupWhen
  | liquid => none

end NamedTag

namespace TagName

/-- Whether the tag's body is divided into branches. -/
def isBranching (name : String) : Bool := ["if", "unless", "case", "for", "tablerow"].contains name

/-- Whether the tag starts a further branch of the tag around it. -/
def isBranch (name : String) : Bool := ["elsif", "else", "when"].contains name

/-- Whether elements may be left open in the tag's branches. -/
def isConditional (name : String) : Bool := ["if", "unless", "case"].contains name

end TagName

end LiquidTemplate
