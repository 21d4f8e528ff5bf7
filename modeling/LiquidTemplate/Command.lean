import LiquidTemplate.Command.Arguments
import LiquidTemplate.Command.FileTree
import LiquidTemplate.Document
import LiquidTemplate.Error.Diagnostic
import LiquidTemplate.Json.Printer
import LiquidTemplate.Node.Json

namespace LiquidTemplate

structure Report where
  stdout : String := ""
  /-- The errors of the templates that do not parse, in order. -/
  errors : List Error := []
  /-- Why the run ended early. -/
  failure : Option String := none

namespace Report

def exitCode (r : Report) : Nat := if r.errors.isEmpty ∧ r.failure.isNone then 0 else 1

def fail (r : Report) (message : String) : Report := { r with failure := some message }

end Report

namespace Command

def version : String := "liquid-html 0.1.0\n"

def unreadable (path : String) (e : FileError) : String :=
  "could not read " ++ path ++ ": " ++ e.message

def unwalkable (path : String) (e : FileError) : String :=
  "could not walk " ++ path ++ ": IO error for operation on " ++ path ++ ": " ++ e.message

def summary (checked failed : Nat) : String :=
  if failed = 0 then Nat.repr checked ++ " file(s) parsed without errors\n"
  else Nat.repr failed ++ " of " ++ Nat.repr checked ++ " file(s) failed to parse\n"

def checkAll (i : Invocation) (checked : Nat) (r : Report) : List (String × FileTree) → Report
  | [] => { r with stdout := r.stdout ++ summary checked r.errors.length }
  | (path, tree) :: rest =>
    match tree.text with
    | .error e => r.fail (unreadable path e)
    | .ok source =>
      match Document.parse i.options i.entry source with
      | .ok _ => checkAll i checked { r with stdout := r.stdout ++ "ok   " ++ path ++ "\n" } rest
      | .error e => checkAll i checked { r with errors := r.errors ++ [e] } rest

def check (i : Invocation) : Except FileError FileTree → Report
  | .error e => ({} : Report).fail (unwalkable i.path e)
  | .ok (.file content) => checkAll i 1 {} [(i.path, .file content)]
  | .ok (.directory entries) =>
    let files := FileTree.templates i.path "" (.directory entries)
    checkAll i files.length {} files

def print (i : Invocation) (render : String → Except Error Json)
    (tree : Except FileError FileTree) : Report :=
  match tree.bind FileTree.text with
  | .error e => ({} : Report).fail (unreadable i.path e)
  | .ok source =>
    match render source with
    | .ok j => { stdout := j.pretty ++ "\n" }
    | .error e => { errors := [e] }

def tokensJson (i : Invocation) (source : String) : Except Error Json := do
  return .array (Token.listToJson (← Token.read ⟨0, i.options.mode⟩ i.entry source.toList))

def treeJson (i : Invocation) (source : String) : Except Error Json := do
  return (← Document.parse i.options i.entry source).toJson

def run (i : Invocation) (tree : Except FileError FileTree) : Report :=
  match i.action with
  | .check => check i tree
  | .tree => print i (treeJson i) tree
  | .tokens => print i (tokensJson i) tree

end Command

end LiquidTemplate
