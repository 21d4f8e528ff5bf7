import LiquidTemplate.Json.Basic

namespace LiquidTemplate.Json

def quote (written : List Char) : String := "\"" ++ String.ofList written ++ "\""

mutual

def putCompact (out : String) : Json → String
  | null => out ++ "null"
  | bool true => out ++ "true"
  | bool false => out ++ "false"
  | number written => out ++ written
  | string written => out ++ quote written
  | array items => putCompactItems (out ++ "[") "" items ++ "]"
  | object members => putCompactMembers (out.push '{') "" members |>.push '}'

def putCompactItems (out gap : String) : List Json → String
  | [] => out
  | item :: items => putCompactItems (putCompact (out ++ gap) item) "," items

def putCompactMembers (out gap : String) : List (List Char × Json) → String
  | [] => out
  | (name, value) :: members =>
    putCompactMembers (putCompact (out ++ gap ++ quote name ++ ":") value) "," members

end

def newLine (level : Nat) : String := "\n" ++ String.ofList (List.replicate (2 * level) ' ')

mutual

def putPretty (out : String) (level : Nat) : Json → String
  | null => out ++ "null"
  | bool true => out ++ "true"
  | bool false => out ++ "false"
  | number written => out ++ written
  | string written => out ++ quote written
  | array [] => out ++ "[]"
  | array (item :: items) =>
    putPrettyItems (putPretty (out ++ "[" ++ newLine (level + 1)) (level + 1) item) level items
      ++ newLine level ++ "]"
  | object [] => (out.push '{').push '}'
  | object ((name, value) :: members) =>
    let out := out.push '{' ++ newLine (level + 1) ++ quote name ++ ": "
    (putPrettyMembers (putPretty out (level + 1) value) level members ++ newLine level).push '}'

def putPrettyItems (out : String) (level : Nat) : List Json → String
  | [] => out
  | item :: items =>
    putPrettyItems (putPretty (out ++ "," ++ newLine (level + 1)) (level + 1) item) level items

def putPrettyMembers (out : String) (level : Nat) : List (List Char × Json) → String
  | [] => out
  | (name, value) :: members =>
    let out := out ++ "," ++ newLine (level + 1) ++ quote name ++ ": "
    putPrettyMembers (putPretty out (level + 1) value) level members

end

def compact (j : Json) : String := putCompact "" j

def pretty (j : Json) : String := putPretty "" 0 j

end LiquidTemplate.Json
