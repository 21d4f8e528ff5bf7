import LiquidTemplate.Node.Name
import LiquidTemplate.Error
import LiquidTemplate.TagName

namespace LiquidTemplate

/-- An open construct with what was collected for it so far, latest first.  A tag with branches is one frame with
the branch that is open in it, and counts twice in the depth of nesting. -/
inductive Frame where
  | element (name : List Piece) (attributes : List Node) (opening : Span) (children : List Node)
  | block (head : TagHead) (children : List Node)
  | branched (head : TagHead) (closed : List Branch) (current : BranchHead)
      (children : List Node)

namespace Frame

def weight : Frame → Nat
  | element .. => 1
  | block .. => 1
  | branched .. => 2

def depth : List Frame → Nat
  | [] => 0
  | f :: rest => f.weight + depth rest

def isElement : Frame → Bool
  | element .. => true
  | _ => false

def add (nodes : List Node) : Frame → Frame
  | element name attributes opening children =>
    element name attributes opening (nodes ++ children)
  | block head children => block head (nodes ++ children)
  | branched head closed current children => branched head closed current (nodes ++ children)

def unclosed : Frame → Unclosed
  | element name _ opening _ => ⟨.element, nameText name, opening⟩
  | block head _ => ⟨.tag, head.name, head.span⟩
  | branched head _ current _ =>
    match current.name with
    | none => ⟨.tag, head.name, head.span⟩
    | some name => ⟨.branch, name, current.span⟩

def tagName? : Frame → Option String
  | element .. => none
  | block head _ => some head.name
  | branched head .. => some head.name

/-- The branches of a tag in order, the first one apart, from the closed ones, latest first, and
those after them. -/
def gather (last : Branch) (others : List Branch) : List Branch → Branch × List Branch
  | [] => (last, others)
  | b :: closed => gather b (last :: others) closed

def close (closing : Closing) : Frame → Node
  | element name attributes opening children =>
    .element name attributes opening children.reverse closing.span
  | block head children => .block head children.reverse closing
  | branched head closed current children =>
    let (first, others) := gather (.mk current children.reverse (.point closing.span.lo)) [] closed
    .branched head first others closing

def implied (offset : Nat) : Closing := ⟨{}, .point offset⟩

/-- Closes the elements on top of a stack at an offset.  Given are nodes, latest first, that belong
to the top frame; the result is such nodes for the first frame that stays, and the frames that
stay. -/
def closeElements (offset : Nat) (pending : List Node) : List Frame → List Node × List Frame
  | [] => (pending, [])
  | f :: rest =>
    if f.isElement then closeElements offset [(f.add pending).close (implied offset)] rest
    else (pending, f :: rest)

def closeAll (offset : Nat) (pending : List Node) : List Frame → List Node
  | [] => pending
  | f :: rest => closeAll offset [(f.add pending).close (implied offset)] rest

end Frame

end LiquidTemplate
