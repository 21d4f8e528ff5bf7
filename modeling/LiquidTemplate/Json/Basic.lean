namespace LiquidTemplate

inductive Json where
  | null
  | bool (value : Bool)
  /-- The digits, with sign, fraction and exponent. -/
  | number (written : String)
  /-- What stands between the quotes. -/
  | string (written : List Char)
  | array (items : List Json)
  /-- Names, as written between their quotes, and values. -/
  | object (members : List (List Char × Json))
  deriving Repr, Inhabited

namespace Json

def hexDigit (n : Nat) : Char := Nat.digitChar n

def hexValue? (c : Char) : Option Nat :=
  if c.isDigit then some (c.toNat - '0'.toNat)
  else if 'a' ≤ c ∧ c ≤ 'f' then some (c.toNat - 'a'.toNat + 10)
  else if 'A' ≤ c ∧ c ≤ 'F' then some (c.toNat - 'A'.toNat + 10)
  else none

def hexValue4? (a b c d : Char) : Option Nat := do
  return (← hexValue? a) * 4096 + (← hexValue? b) * 256 + (← hexValue? c) * 16 + (← hexValue? d)

def escapeChar (c : Char) : List Char :=
  if c = '"' then ['\\', '"']
  else if c = '\\' then ['\\', '\\']
  else if c = '\x08' then ['\\', 'b']
  else if c = '\x0c' then ['\\', 'f']
  else if c = '\n' then ['\\', 'n']
  else if c = '\r' then ['\\', 'r']
  else if c = '\t' then ['\\', 't']
  else if c.toNat < 0x20 then ['\\', 'u', '0', '0', hexDigit (c.toNat / 16), hexDigit (c.toNat % 16)]
  else [c]

def text (s : String) : Json := string (s.toList.flatMap escapeChar)

def nat (n : Nat) : Json := number (Nat.repr n)

def int : Int → Json
  | .ofNat n => nat n
  | .negSucc n => number ("-" ++ Nat.repr (n + 1))

def record (members : List (String × Json)) : Json :=
  object (members.map fun m => (m.1.toList, m.2))

def optional {α : Type} (encode : α → Json) : Option α → Json
  | none => null
  | some a => encode a

def list {α : Type} (encode : α → Json) (items : List α) : Json := array (items.map encode)

def simpleEscape? : Char → Option Char
  | '"' => some '"'
  | '\\' => some '\\'
  | '/' => some '/'
  | 'b' => some '\x08'
  | 'f' => some '\x0c'
  | 'n' => some '\n'
  | 'r' => some '\r'
  | 't' => some '\t'
  | _ => none

/-- Undoes the escapes of a written string.  Two halves of a surrogate pair give one character, and
a half on its own gives none. -/
def unescape? : List Char → Option (List Char)
  | [] => some []
  | '\\' :: 'u' :: a :: b :: c :: d :: '\\' :: 'u' :: a' :: b' :: c' :: d' :: rest => do
    let high ← hexValue4? a b c d
    if 0xD800 ≤ high ∧ high < 0xDC00 then
      let low ← hexValue4? a' b' c' d'
      if 0xDC00 ≤ low ∧ low < 0xE000 then
        return Char.ofNat ((high - 0xD800) * 0x400 + (low - 0xDC00) + 0x10000) :: (← unescape? rest)
      else none
    else if 0xDC00 ≤ high ∧ high < 0xE000 then none
    else return Char.ofNat high :: (← unescape? ('\\' :: 'u' :: a' :: b' :: c' :: d' :: rest))
  | '\\' :: 'u' :: a :: b :: c :: d :: rest => do
    let code ← hexValue4? a b c d
    if 0xD800 ≤ code ∧ code < 0xE000 then none
    else return Char.ofNat code :: (← unescape? rest)
  | '\\' :: c :: rest => do return (← simpleEscape? c) :: (← unescape? rest)
  | c :: rest => do return c :: (← unescape? rest)

def text? : Json → Option String
  | string written => (unescape? written).map String.ofList
  | _ => none

def digitsValue? (digits : List Char) : Option Nat :=
  if digits.all Char.isDigit then
    some (digits.foldl (fun n c => 10 * n + (c.toNat - '0'.toNat)) 0)
  else none

def intBound : Nat := 9223372036854775808

/-- The integer that a number without fraction and exponent stands for, if it fits in 64 bits with
a sign.  A zero with a sign is no integer. -/
def int? : Json → Option Int
  | number written =>
    match written.toList with
    | '-' :: digits => do
      let n ← digitsValue? digits
      if 0 < n ∧ n ≤ intBound then some (Int.negSucc (n - 1)) else none
    | digits => do
      let n ← digitsValue? digits
      if n < intBound then some (Int.ofNat n) else none
  | _ => none

def nat? : Json → Option Nat
  | number written => do
    let n ← digitsValue? written.toList
    if n < 2 * intBound then some n else none
  | _ => none

def bool? : Json → Option Bool
  | bool b => some b
  | _ => none

def array? : Json → Option (List Json)
  | array items => some items
  | _ => none

def members? : Json → Option (List (String × Json))
  | object members => members.mapM fun m => do return (String.ofList (← unescape? m.1), m.2)
  | _ => none

def get? (j : Json) (name : String) : Option Json := do
  let members ← j.members?
  (members.reverse.find? (·.1 == name)).map (·.2)

end Json

end LiquidTemplate
