import LiquidTemplate.Command

namespace LiquidTemplate

/-- Loads the file or directory at a path. -/
partial def loadTree (path : String) : IO (Except FileError FileTree) := do
  let full := (← IO.currentDir) / path
  if ← full.isDir then
    let mut entries := []
    for entry in ← full.readDir do
      if let .ok tree ← loadTree (FileTree.join path entry.fileName) then
        entries := (entry.fileName, tree) :: entries
    return .ok (.directory entries)
  else if ← full.pathExists then return .ok (.file (← IO.FS.readBinFile path))
  else return .error .missing

def printReport (r : Report) : IO UInt32 := do
  IO.print r.stdout
  for e in r.errors do
    IO.eprintln e.code
    IO.eprintln e.message
  if let some message := r.failure then
    IO.eprintln ("Error: " ++ message)
  return UInt32.ofNat r.exitCode

end LiquidTemplate

open LiquidTemplate

def main (arguments : List String) : IO UInt32 := do
  match Request.parse? arguments with
  | none =>
    IO.eprintln "usage: liquid-html (check|ast|cst) [OPTIONS] PATH"
    return 2
  | some .version =>
    IO.print Command.version
    return 0
  | some .help =>
    IO.println "Parse Liquid + HTML templates and report structural errors."
    return 0
  | some (.run invocation) => printReport (Command.run invocation (← loadTree invocation.path))
