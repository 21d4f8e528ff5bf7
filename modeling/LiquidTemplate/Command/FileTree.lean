namespace LiquidTemplate

inductive FileTree where
  | file (content : ByteArray)
  /-- The entries of a directory, with their names. -/
  | directory (entries : List (String × FileTree))

inductive FileError where
  | missing
  | notDirectory
  | isDirectory
  | notUtf8
  deriving DecidableEq, Repr

namespace FileError

def message : FileError → String
  | missing => "No such file or directory (os error 2)"
  | notDirectory => "Not a directory (os error 20)"
  | isDirectory => "Is a directory (os error 21)"
  | notUtf8 => "stream did not contain valid UTF-8"

end FileError

namespace FileTree

def names (path : String) : List String := (path.splitOn "/").filter fun n => n ≠ "" ∧ n ≠ "."

mutual

def insert (leaf : FileTree) : List String → FileTree → FileTree
  | [], _ => leaf
  | name :: rest, tree =>
    match tree with
    | file _ => directory [(name, insert leaf rest (directory []))]
    | directory entries => directory (insertIn leaf name rest entries)

def insertIn (leaf : FileTree) (name : String) (path : List String) :
    List (String × FileTree) → List (String × FileTree)
  | [] => [(name, insert leaf path (directory []))]
  | (other, tree) :: entries =>
    if other = name then (name, insert leaf path tree) :: entries
    else (other, tree) :: insertIn leaf name path entries

end

/-- What the names of a path lead to from a tree that lies in the directories `above`, innermost
first.  Outside of these, nothing is known to stand in a directory. -/
def find (above : List FileTree) (tree : FileTree) : List String → Except FileError FileTree
  | [] => .ok tree
  | name :: rest =>
    match tree with
    | file _ => .error .notDirectory
    | directory entries =>
      if name = "" ∨ name = "." then find above tree rest
      else if name = ".." then
        match above with
        | [] => find [] (directory []) rest
        | parent :: above => find above parent rest
      else
        match entries.find? (·.1 == name) with
        | some (_, below) => find (tree :: above) below rest
        | none => .error .missing

/-- What stands at a path.  A path that ends in a slash leads to a directory, and one that starts
with a slash leads out of the tree. -/
def lookup (tree : FileTree) (path : String) : Except FileError FileTree :=
  find [] (if path.startsWith "/" then directory [] else tree) (path.splitOn "/")

def text : FileTree → Except FileError String
  | directory _ => .error .isDirectory
  | file content =>
    match String.fromUTF8? content with
    | some s => .ok s
    | none => .error .notUtf8

/-- Whether a file name has the extension of templates.  What stands before the last dot must not
be empty. -/
def isTemplateName (name : String) : Bool :=
  match (name.splitOn ".").reverse with
  | "liquid" :: before => before ≠ [""] ∧ before ≠ []
  | _ => false

def join (path name : String) : String :=
  if path.endsWith "/" then path ++ name else path ++ "/" ++ name

mutual

/-- The templates below a path, with their paths: the entries of a directory in the order of their
names, and what is below an entry before the next one. -/
def templates (path name : String) : FileTree → List (String × FileTree)
  | file content => if isTemplateName name then [(path, file content)] else []
  | directory entries =>
    ((templatesIn path entries).mergeSort fun a b => a.1 ≤ b.1).flatMap (·.2)

def templatesIn (path : String) :
    List (String × FileTree) → List (String × List (String × FileTree))
  | [] => []
  | (name, tree) :: entries =>
    (name, templates (join path name) name tree) :: templatesIn path entries

end

end FileTree

end LiquidTemplate
