import LiquidTemplate.Peg.Attempts
import LiquidTemplate.Rule

namespace LiquidTemplate.Rule

def enumerate : List String → String
  | [] => ""
  | [a] => "or " ++ a
  | a :: rest => a ++ ", " ++ enumerate rest

def choice : List String → String
  | [] => ""
  | [a] => a
  | [a, b] => a ++ " or " ++ b
  | names => enumerate names

def names (rules : List Rule) : List String := (all.filter (rules.contains ·)).map name

/-- What was found and not expected, and then what was expected and not found. -/
def report (surprises : Peg.Surprises Rule) : String :=
  match names surprises.unexpected, names surprises.expected with
  | [], [] => "unknown parsing error"
  | [], expected => "expected " ++ choice expected
  | unexpected, [] => "unexpected " ++ choice unexpected
  | unexpected, expected => "unexpected " ++ choice unexpected ++ "; expected " ++ choice expected

end LiquidTemplate.Rule
