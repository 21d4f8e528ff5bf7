import LiquidTemplate.Text

namespace LiquidTemplate

/-- The bytes from `start` up to, and without, `stop`.  An end below zero is read as zero, but by `isUnset`. -/
structure Span where
  start : Int64
  stop : Int64
  deriving DecidableEq, Repr, Inhabited

namespace Span

/-- The marker for a span that is not known yet. -/
def unset : Span := ⟨-1, -1⟩

def limit : Nat := 9223372036854775808

def between (start stop : Nat) : Span := ⟨Int64.ofNat start, Int64.ofNat stop⟩

def point (offset : Nat) : Span := between offset offset

def isUnset (s : Span) : Bool := s == unset

def lo (s : Span) : Nat := s.start.toNatClampNeg

def hi (s : Span) : Nat := s.stop.toNatClampNeg

def length (s : Span) : Nat := s.hi - s.lo

def isEmpty (s : Span) : Bool := s.length == 0

def shift (s : Span) (offset : Nat) : Span :=
  if s.isUnset then s else between (s.lo + offset) (s.hi + offset)

/-- The text that the span covers; empty when the span is backwards, leaves the text, or ends
inside a character. -/
def slice (s : Span) (source : String) : String :=
  String.ofList ((Text.slice? s.lo s.hi source.toList).getD [])

def range? (s : Span) : Option (Nat × Nat) :=
  if s.lo ≤ s.hi then some (s.lo, s.length) else none

theorem lo_between {a : Nat} (b : Nat) (h : a < limit) : (between a b).lo = a :=
  Int64.toNatClampNeg_ofNat_of_lt h

theorem hi_between (a : Nat) {b : Nat} (h : b < limit) : (between a b).hi = b :=
  Int64.toNatClampNeg_ofNat_of_lt h

theorem length_between {a b : Nat} (ha : a < limit) (hb : b < limit) :
    (between a b).length = b - a := by
  rw [length, lo_between b ha, hi_between a hb]

/-- A span between offsets that fit is not the marker. -/
theorem isUnset_between {a : Nat} (b : Nat) (h : a < limit) : (between a b).isUnset = false := by
  rw [isUnset, beq_eq_false_iff_ne]
  intro eq
  have := congrArg (·.start.toInt) eq
  simp only [between, Int64.toInt_ofNat_of_lt h] at this
  exact absurd (this.trans (by decide : unset.start.toInt = -1)) (by omega)

theorem shift_between {a b : Nat} (ha : a < limit) (hb : b < limit) (k : Nat) :
    (between a b).shift k = between (a + k) (b + k) := by
  simp [shift, isUnset_between b ha, lo_between b ha, hi_between a hb]

@[simp]
theorem shift_unset (k : Nat) : unset.shift k = unset := rfl

end Span

end LiquidTemplate
