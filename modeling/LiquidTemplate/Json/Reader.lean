import LiquidTemplate.Json.Basic

namespace LiquidTemplate.Json

def isSpace (c : Char) : Bool := c == ' ' || c == '\t' || c == '\n' || c == '\r'

def skipSpace (cs : List Char) : List Char := cs.dropWhile isSpace

/-- The rest of a string after its opening quote: what is written up to the closing quote, here in
reverse in front of it, and what follows. -/
def readString (written : List Char) : List Char → Option (List Char × List Char)
  | [] => none
  | '"' :: rest => some (written.reverse, rest)
  | '\\' :: 'u' :: a :: b :: c :: d :: rest =>
    if (hexValue4? a b c d).isSome then
      readString (d :: c :: b :: a :: 'u' :: '\\' :: written) rest
    else none
  | '\\' :: c :: rest =>
    if (simpleEscape? c).isSome then readString (c :: '\\' :: written) rest else none
  | c :: rest => if c.toNat < 0x20 then none else readString (c :: written) rest

def readDigits (cs : List Char) : Option (List Char × List Char) :=
  match cs.takeWhile Char.isDigit with
  | [] => none
  | digits => some (digits, cs.dropWhile Char.isDigit)

def readWhole : List Char → Option (List Char × List Char)
  | '0' :: rest => some (['0'], rest)
  | cs => readDigits cs

def readFraction : List Char → Option (List Char × List Char)
  | '.' :: rest => do
    let (digits, rest) ← readDigits rest
    return ('.' :: digits, rest)
  | cs => some ([], cs)

def readExponent : List Char → Option (List Char × List Char)
  | e :: rest =>
    if e = 'e' ∨ e = 'E' then
      match rest with
      | '+' :: more => do
        let (digits, rest) ← readDigits more
        return (e :: '+' :: digits, rest)
      | '-' :: more => do
        let (digits, rest) ← readDigits more
        return (e :: '-' :: digits, rest)
      | _ => do
        let (digits, rest) ← readDigits rest
        return (e :: digits, rest)
    else some ([], e :: rest)
  | [] => some ([], [])

def readNumber (cs : List Char) : Option (Json × List Char) := do
  let (sign, cs) := match cs with
    | '-' :: rest => (['-'], rest)
    | _ => ([], cs)
  let (whole, cs) ← readWhole cs
  let (fraction, cs) ← readFraction cs
  let (exponent, cs) ← readExponent cs
  return (number (String.ofList (sign ++ whole ++ fraction ++ exponent)), cs)

mutual

/-- A value at the start of a text that does not start with blanks, and what follows it.  The depth
bounds the number of values and commas that are read. -/
def readValue : Nat → List Char → Option (Json × List Char)
  | 0, _ => none
  | n + 1, cs =>
    match cs with
    | 'n' :: 'u' :: 'l' :: 'l' :: rest => some (null, rest)
    | 't' :: 'r' :: 'u' :: 'e' :: rest => some (bool true, rest)
    | 'f' :: 'a' :: 'l' :: 's' :: 'e' :: rest => some (bool false, rest)
    | '"' :: rest => do
      let (written, rest) ← readString [] rest
      return (string written, rest)
    | '[' :: rest =>
      match skipSpace rest with
      | ']' :: rest => some (array [], rest)
      | rest => do
        let (items, rest) ← readItems n [] rest
        return (array items, rest)
    | '{' :: rest =>
      match skipSpace rest with
      | '}' :: rest => some (object [], rest)
      | rest => do
        let (members, rest) ← readMembers n [] rest
        return (object members, rest)
    | cs => readNumber cs

def readItems : Nat → List Json → List Char → Option (List Json × List Char)
  | 0, _, _ => none
  | n + 1, items, cs => do
    let (item, cs) ← readValue n cs
    match skipSpace cs with
    | ',' :: rest => readItems n (item :: items) (skipSpace rest)
    | ']' :: rest => return ((item :: items).reverse, rest)
    | _ => none

def readMembers : Nat → List (List Char × Json) → List Char →
    Option (List (List Char × Json) × List Char)
  | 0, _, _ => none
  | n + 1, members, '"' :: cs => do
    let (name, cs) ← readString [] cs
    match skipSpace cs with
    | ':' :: cs =>
      let (value, cs) ← readValue n (skipSpace cs)
      match skipSpace cs with
      | ',' :: rest => readMembers n ((name, value) :: members) (skipSpace rest)
      | '}' :: rest => return (((name, value) :: members).reverse, rest)
      | _ => none
    | _ => none
  | _ + 1, _, _ => none

end

def parse? (source : String) : Option Json := do
  let cs := source.toList
  let (value, rest) ← readValue (cs.length + 1) (skipSpace cs)
  if (skipSpace rest).isEmpty then some value else none

end LiquidTemplate.Json
