import LiquidTemplate.Span
import LiquidTemplate.Rule.Report
import LiquidTemplate.Peg.Match

namespace LiquidTemplate

def maxDepth : Nat := 512

inductive Container where
  | element
  | tag
  | branch
  deriving DecidableEq, Repr

def Container.name : Container → String
  | element => "HtmlElement"
  | tag => "LiquidTag"
  | branch => "LiquidBranch"

structure Unclosed where
  container : Container
  name : String
  /-- Where it was opened. -/
  opening : Span
  deriving DecidableEq, Repr

def Container.label (container : Container) (name : String) : String :=
  container.name ++ " '" ++ name ++ "'"

def Unclosed.label (u : Unclosed) : String := u.container.label u.name

inductive Unreadable where
  /-- The grammar does not match, for what its rules did at the farthest offset. -/
  | unmatched (surprises : Peg.Surprises Rule)
  /-- A name contains the completion placeholder, and no completions were asked for. -/
  | placeholder
  /-- A pair has not the part that the grammar gives it. -/
  | missing (part : String)
  /-- A pair stands where the grammar has no place for its rule. -/
  | unexpected (rule : Rule)
  /-- A tag whose markup is statements is asked for other markup. -/
  | statementsAsMarkup
  /-- The text of a pair is none that its rule matches. -/
  | malformed (rule : Rule)
  /-- The grammar could not be matched at all. -/
  | fault (f : Peg.Fault)
  deriving DecidableEq, Repr

inductive Misnesting where
  /-- Something is closed while nothing is open. -/
  | closeUnopened (container : Container) (name : String)
  /-- Something is closed while something else is open. -/
  | closeBefore (container : Container) (name : String) (unclosed : Unclosed)
  /-- A branch starts while nothing is open. -/
  | branchOutside (name : String)
  /-- A branch starts inside a tag without branches. -/
  | branchBefore (name : String) (unclosed : Unclosed)
  /-- The text ends while something is open. -/
  | endBefore (unclosed : Unclosed)
  /-- More than `maxDepth` constructs are open. -/
  | tooDeep
  deriving DecidableEq, Repr

inductive Error where
  | unreadable (cause : Unreadable) (span : Span)
  | misnested (cause : Misnesting) (span : Span)
  deriving DecidableEq, Repr

namespace Unreadable

def message : Unreadable → String
  | unmatched surprises => "SyntaxError: " ++ Rule.report surprises
  | placeholder => "SyntaxError: unexpected completion placeholder '\u2588'"
  | missing part => "Missing " ++ part
  | unexpected rule => "Unexpected " ++ rule.name ++ " in parse tree"
  | statementsAsMarkup => "Unexpected liquid markup"
  | malformed rule => "Malformed " ++ rule.name
  | fault .exhausted => "Matching took too many steps"
  | fault .nothingRemembered => "Nothing to match again"

end Unreadable

namespace Misnesting

def message : Misnesting → String
  | closeUnopened container name =>
    "Attempting to close " ++ container.label name ++ " before it was opened"
  | closeBefore container name unclosed =>
    "Attempting to close " ++ container.label name ++ " before " ++ unclosed.label ++ " was closed"
  | branchOutside name =>
    "Attempting to open " ++ Container.branch.label name ++ " outside of a branching tag"
  | branchBefore name unclosed =>
    "Attempting to open " ++ Container.branch.label name ++ " before " ++ unclosed.label
      ++ " was closed"
  | endBefore unclosed => "Attempting to end parsing before " ++ unclosed.label ++ " was closed"
  | tooDeep => "Nesting exceeds the maximum depth of " ++ Nat.repr maxDepth

def unclosed? : Misnesting → Option Unclosed
  | closeBefore _ _ u => some u
  | branchBefore _ u => some u
  | endBefore u => some u
  | _ => none

end Misnesting

namespace Error

def span : Error → Span
  | unreadable _ s => s
  | misnested _ s => s

def message : Error → String
  | unreadable cause _ => cause.message
  | misnested cause _ => cause.message

def unclosed? : Error → Option Unclosed
  | unreadable _ _ => none
  | misnested cause _ => cause.unclosed?

def category : Error → String
  | unreadable _ _ => "syntax"
  | misnested _ _ => "structural"

def ofMismatch (offset : Nat) : Peg.Grammar.Mismatch Rule → Error
  | .unmatched failure surprises => unreadable (.unmatched surprises) (.point (offset + failure))
  | .fault f => unreadable (.fault f) (.point offset)

end Error

end LiquidTemplate
