import LiquidTemplate.Options
import LiquidTemplate.Token.Reader

namespace LiquidTemplate

inductive Action where
  /-- Says which templates parse. -/
  | check
  /-- Prints the tree of a template. -/
  | tree
  /-- Prints the tokens of a template. -/
  | tokens
  deriving DecidableEq, Repr

structure Invocation where
  action : Action
  path : String
  options : Options
  entry : Entry
  deriving DecidableEq, Repr

inductive Request where
  | run (invocation : Invocation)
  | version
  | help
  deriving DecidableEq, Repr

namespace Request

structure Given where
  mode : Option Mode := none
  allowUnclosed : Bool := false
  liquidOnly : Bool := false
  path : Option String := none

namespace Given

def setMode (g : Given) (name : String) : Option Given :=
  match g.mode, Mode.ofName? name with
  | none, some mode => some { g with mode := some mode }
  | _, _ => none

def setAllowUnclosed (g : Given) : Option Given :=
  if g.allowUnclosed then none else some { g with allowUnclosed := true }

def setLiquidOnly (g : Given) : Option Given :=
  if g.liquidOnly then none else some { g with liquidOnly := true }

def setPath (g : Given) (path : String) : Option Given :=
  if g.path.isSome ∨ path = "" then none else some { g with path := some path }

def request? (g : Given) (action : Action) : Option Request := do
  let path ← g.path
  let options := { mode := g.mode.getD .tolerant, allowUnclosed := g.allowUnclosed }
  return .run ⟨action, path, options, if g.liquidOnly then .liquid else .liquidHtml⟩

end Given

def isOption (arg : String) : Bool := arg.startsWith "-" && arg != "-"

def readPaths (action : Action) (g : Given) : List String → Option Request
  | [] => g.request? action
  | path :: rest => do readPaths action (← g.setPath path) rest

def readArguments (action : Action) (g : Given) : List String → Option Request
  | [] => g.request? action
  | "--" :: rest => readPaths action g rest
  | "--allow-unclosed" :: rest => do readArguments action (← g.setAllowUnclosed) rest
  | "--liquid-only" :: rest => do readArguments action (← g.setLiquidOnly) rest
  | "--help" :: _ => some .help
  | "--mode" :: name :: rest => do readArguments action (← g.setMode name) rest
  | arg :: rest =>
    if arg.startsWith "--mode=" then do
      readArguments action (← g.setMode (arg.drop 7).toString) rest
    else if arg.startsWith "-h" then some .help
    else if isOption arg then none
    else do readArguments action (← g.setPath arg) rest

def topics : List String := ["check", "ast", "cst", "help"]

def parse? : List String → Option Request
  | "check" :: rest => readArguments .check {} rest
  | "ast" :: rest => readArguments .tree {} rest
  | "cst" :: rest => readArguments .tokens {} rest
  | "--version" :: _ => some .version
  | "--help" :: _ => some .help
  | ["help"] => some .help
  | ["help", topic] => if topics.contains topic then some .help else none
  | arg :: _ =>
    if arg.startsWith "-V" then some .version
    else if arg.startsWith "-h" then some .help
    else none
  | [] => none

end Request

end LiquidTemplate
