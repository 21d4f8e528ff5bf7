namespace LiquidTemplate.Peg

structure Surprises (ρ : Type) where
  /-- Rules that failed. -/
  expected : List ρ := []
  /-- Rules that matched inside a look ahead that wants them to fail. -/
  unexpected : List ρ := []
  deriving DecidableEq, Repr

namespace Surprises

variable {ρ : Type}

def size (s : Surprises ρ) : Nat := s.expected.length + s.unexpected.length

def addExpected (s : Surprises ρ) (rule : ρ) : Surprises ρ :=
  { s with expected := s.expected ++ [rule] }

def addUnexpected (s : Surprises ρ) (rule : ρ) : Surprises ρ :=
  { s with unexpected := s.unexpected ++ [rule] }

end Surprises

/-- The farthest offset of a surprise, and what was recorded there.  A rule surprises when it fails, or when it
matches inside a look ahead that wants it to fail. -/
structure Attempts (ρ : Type) where
  offset : Nat
  surprises : Surprises ρ
  deriving DecidableEq, Repr

namespace Attempts

variable {ρ : Type}

def none : Attempts ρ := ⟨0, {}⟩

def recordedAt (a : Attempts ρ) (offset : Nat) : Surprises ρ :=
  if a.offset = offset then a.surprises else {}

/-- Records a surprise by a rule that was begun at `offset` when `before` was recorded there;
`after` is that with the rule added. -/
def record (a : Attempts ρ) (offset : Nat) (before after : Surprises ρ) : Attempts ρ :=
  if offset < a.offset ∨ (a.recordedAt offset).size = before.size + 1 then a else ⟨offset, after⟩

end Attempts

end LiquidTemplate.Peg
