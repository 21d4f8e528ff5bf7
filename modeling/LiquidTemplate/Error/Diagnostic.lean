import LiquidTemplate.Error

namespace LiquidTemplate

structure Label where
  text : String
  span : Span
  deriving DecidableEq, Repr

structure Diagnostic where
  message : String
  code : String
  help : Option String
  labels : List Label
  deriving DecidableEq, Repr

namespace Error

def code (e : Error) : String := "liquid_html::" ++ e.category

def help : Error → Option String
  | unreadable _ _ => some "tolerant and completion modes accept unparsable tag markup as raw text"
  | misnested cause _ => cause.unclosed?.map ("add the closing tag for " ++ ·.label)

def remark : Error → String
  | unreadable _ _ => "unexpected input"
  | misnested cause _ => if cause.unclosed?.isSome then "left open" else "invalid nesting"

def labels (e : Error) : List Label :=
  ⟨e.remark, e.span⟩ ::
    (e.unclosed?.toList.filter (·.opening ≠ e.span)).map fun u => ⟨"opened here", u.opening⟩

def diagnostic (e : Error) : Diagnostic where
  message := e.message
  code := e.code
  help := e.help
  labels := e.labels

end Error

end LiquidTemplate
