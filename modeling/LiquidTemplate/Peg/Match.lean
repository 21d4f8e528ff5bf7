import LiquidTemplate.Text
import LiquidTemplate.Peg.Grammar
import LiquidTemplate.Peg.Attempts

namespace LiquidTemplate.Peg

variable {ρ : Type}

structure State (ρ : Type) where
  /-- What is left of the text. -/
  rest : List Char
  /-- Bytes of the text before `rest`. -/
  offset : Nat
  /-- The remembered texts, latest first. -/
  stack : List (List Char)
  /-- The pairs left so far, latest first. -/
  pairs : List (Pair ρ)
  attempts : Attempts ρ

/-- Whether blanks are allowed between the parts of a sequence, and whether rules leave pairs. -/
inductive Atomicity where
  | spaced
  | compound
  | atomic
  deriving DecidableEq, Repr

/-- What surrounds an expression: a look ahead that wants it to match, one that wants it to fail,
or neither. -/
inductive Looking where
  | none
  | wanted
  | unwanted
  deriving DecidableEq, Repr

structure Context where
  atomicity : Atomicity
  looking : Looking
  deriving DecidableEq, Repr

namespace Context

def top : Context := ⟨.spaced, .none⟩

def ahead (c : Context) : Context :=
  match c.looking with
  | .unwanted => c
  | _ => { c with looking := .wanted }

def notAhead (c : Context) : Context :=
  match c.looking with
  | .unwanted => { c with looking := .wanted }
  | _ => { c with looking := .unwanted }

def outside (c : Context) : Kind → Context
  | .compound => { c with atomicity := .compound }
  | .spaced => { c with atomicity := .spaced }
  | _ => c

def inside (c : Context) : Kind → Context
  | .atomic => { c with atomicity := .atomic }
  | .compound => { c with atomicity := .compound }
  | .spaced => { c with atomicity := .spaced }
  | _ => c

def leavesPair (c : Context) : Bool := c.looking == .none && c.atomicity != .atomic

def recordsFailure (c : Context) : Bool := c.looking != .unwanted && c.atomicity != .atomic

def recordsMatch (c : Context) : Bool := c.looking == .unwanted && c.atomicity != .atomic

end Context

inductive Fault where
  /-- The budget was too small. -/
  | exhausted
  /-- A remembered text was asked for, and there was none. -/
  | nothingRemembered
  deriving DecidableEq, Repr

inductive Outcome (ρ : Type) where
  | matched (s : State ρ)
  | failed (a : Attempts ρ)
  | fault (f : Fault)

namespace State

/-- The text that was consumed on the way from `s` to `t`. -/
def consumed (s t : State ρ) : List Char :=
  (Text.takeBytes? (t.offset - s.offset) s.rest).getD []

def advance (s : State ρ) (c : Char) (rest : List Char) : State ρ :=
  { s with rest := rest, offset := s.offset + c.utf8Size }

def advanceWord (s : State ρ) (word : List Char) : Option (List Char) → Outcome ρ
  | some rest => .matched { s with rest := rest, offset := s.offset + Text.byteLength word }
  | none => .failed s.attempts

def skip (s : State ρ) (c : Context) (blank : Char → Bool) : State ρ :=
  match c.atomicity with
  | .spaced =>
    { s with
      rest := s.rest.dropWhile blank
      offset := s.offset + Text.byteLength (s.rest.takeWhile blank) }
  | _ => s

end State

namespace Grammar

/-- Matches an expression at a state, with a budget that bounds the depth of the recursion.  A failed match gives
back the place, the pairs and the remembered texts, and keeps only what was recorded for the report. -/
def run (g : Grammar ρ) : Nat → Context → Expr ρ → State ρ → Outcome ρ
  | 0, _, _, _ => .fault .exhausted
  | n + 1, c, e, s =>
    match e with
    | .word w => s.advanceWord w (Text.stripWord? w s.rest)
    | .caseless w => s.advanceWord w (Text.stripCaseless? w s.rest)
    | .char test =>
      match s.rest with
      | [] => .failed s.attempts
      | x :: xs => if test x then .matched (s.advance x xs) else .failed s.attempts
    | .start => if s.offset = 0 then .matched s else .failed s.attempts
    | .finish => if s.rest.isEmpty then .matched s else .failed s.attempts
    | .seq a b =>
      match run g n c a s with
      | .matched t => run g n c b (t.skip c g.blank)
      | .failed r => .failed r
      | .fault f => .fault f
    | .alt a b =>
      match run g n c a s with
      | .matched t => .matched t
      | .failed r => run g n c b { s with attempts := r }
      | .fault f => .fault f
    | .opt a =>
      match run g n c a s with
      | .matched t => .matched t
      | .failed r => .matched { s with attempts := r }
      | .fault f => .fault f
    | .many a =>
      match run g n c a s with
      | .matched t => run g n c (.again a) t
      | .failed r => .matched { s with attempts := r }
      | .fault f => .fault f
    | .again a =>
      match run g n c a (s.skip c g.blank) with
      | .matched t => run g n c (.again a) t
      | .failed r => .matched { s with attempts := r }
      | .fault f => .fault f
    | .ahead a =>
      match run g n c.ahead a s with
      | .matched t => .matched { s with attempts := t.attempts }
      | .failed r => .failed r
      | .fault f => .fault f
    | .notAhead a =>
      match run g n c.notAhead a s with
      | .matched t => .failed t.attempts
      | .failed r => .matched { s with attempts := r }
      | .fault f => .fault f
    | .push a =>
      match run g n c a s with
      | .matched t => .matched { t with stack := s.consumed t :: t.stack }
      | .failed r => .failed r
      | .fault f => .fault f
    | .top =>
      match s.stack with
      | [] => .fault .nothingRemembered
      | word :: _ => s.advanceWord word (Text.stripWord? word s.rest)
    | .pop =>
      match s.stack with
      | [] => .fault .nothingRemembered
      | word :: words =>
        State.advanceWord { s with stack := words } word (Text.stripWord? word s.rest)
    | .call r =>
      match g.kind r with
      | .silent => run g n c (g.body r) s
      | kind =>
        let out := c.outside kind
        let before := s.attempts.recordedAt s.offset
        let inner := if out.leavesPair then { s with pairs := [] } else s
        match run g n (c.inside kind) (g.body r) inner with
        | .matched t =>
          if out.leavesPair then
            let pair := ⟨r, s.offset, t.offset, s.consumed t, t.pairs.reverse⟩
            .matched { t with pairs := pair :: s.pairs }
          else if out.recordsMatch then
            let attempts := t.attempts.record s.offset before (before.addUnexpected r)
            .matched { t with attempts := attempts }
          else .matched t
        | .failed a =>
          .failed <|
            if out.recordsFailure then a.record s.offset before (before.addExpected r) else a
        | .fault f => .fault f

inductive Mismatch (ρ : Type) where
  /-- The farthest that the match came is `offset`, for what the rules did there. -/
  | unmatched (offset : Nat) (surprises : Surprises ρ)
  | fault (f : Fault)
  deriving DecidableEq, Repr

/-- Depth of recursion that is allowed for each character of a text, more than a grammar without
left recursion goes down before it consumes one. -/
def depthPerChar : Nat := 64

def initial (text : List Char) : State ρ := ⟨text, 0, [], [], .none⟩

/-- Matches a rule at the start of a text; the rule need not reach the text's end. -/
def parse (g : Grammar ρ) (rule : ρ) (text : List Char) : Except (Mismatch ρ) (List (Pair ρ)) :=
  match g.run (depthPerChar * (text.length + 1)) .top (.call rule) (initial text) with
  | .matched s => .ok s.pairs.reverse
  | .failed a => .error (.unmatched a.offset a.surprises)
  | .fault f => .error (.fault f)

end Grammar

end LiquidTemplate.Peg
