import LiquidTemplate.Nesting

namespace LiquidTemplate

/-- The opening of a construct.  Where its closing is belongs to it, but is not known yet. -/
inductive Opening where
  | element (name : List Piece) (attributes : List Node) (span closing : Span)
  | tag (head : TagHead) (closing : Option Closing)
  | branch (head : BranchHead) (closing : Span)

def Opening.span : Opening → Span
  | element _ _ span _ => span
  | tag head _ => head.span
  | branch head _ => head.span

/-- An open construct with what was collected for it so far, latest first.  A tag and the branch that is open in
it are two layers. -/
structure Layer where
  opening : Opening
  children : List Node := []
  branches : List Branch := []

inductive Ending where
  | implied (offset : Nat)
  | written (closing : Closing)

def Ending.closing : Ending → Closing
  | implied offset => Frame.implied offset
  | written closing => closing

namespace Layer

inductive Closed where
  | node (node : Node)
  | branch (branch : Branch)

def isElement (l : Layer) : Bool :=
  match l.opening with
  | .element .. => true
  | _ => false

def isTag (l : Layer) : Bool :=
  match l.opening with
  | .tag .. => true
  | _ => false

def isFirstBranch (l : Layer) : Bool :=
  match l.opening with
  | .branch head _ => head.name.isNone
  | _ => false

def unclosed (l : Layer) : Unclosed :=
  match l.opening with
  | .element name _ span _ => ⟨.element, nameText name, span⟩
  | .tag head _ => ⟨.tag, head.name, head.span⟩
  | .branch head _ => ⟨.branch, head.name.getD "", head.span⟩

/-- What becomes of a layer that is closed.  The children of a tag are lost if it has branches, and the branches
of what is no tag are. -/
def close (ending : Ending) (l : Layer) : Closed :=
  match l.opening with
  | .element name attributes span _ =>
    .node (.element name attributes span l.children.reverse ending.closing.span)
  | .tag head _ =>
    match l.branches.reverse with
    | first :: others => .node (.branched head first others ending.closing)
    | [] => .node (.block head l.children.reverse ending.closing)
  | .branch head _ => .branch (.mk head l.children.reverse ending.closing.span)

end Layer

structure Layers where
  roots : List Node := []
  stack : List Layer := []

namespace Layers

def push (node : Node) (b : Layers) : Layers :=
  match b.stack with
  | [] => { b with roots := node :: b.roots }
  | l :: rest => { b with stack := { l with children := node :: l.children } :: rest }

def attach (branch : Branch) (b : Layers) : Layers :=
  match b.stack with
  | [] => b
  | l :: rest => { b with stack := { l with branches := branch :: l.branches } :: rest }

def openLayer (b : Layers) (opening : Opening) : Except Error Layers :=
  if maxDepth ≤ b.stack.length then .error (.misnested .tooDeep opening.span)
  else .ok { b with stack := { opening } :: b.stack }

def pop (ending : Ending) (b : Layers) : Layers :=
  match b.stack with
  | [] => b
  | l :: rest =>
    match l.close ending with
    | .node node => push node { b with stack := rest }
    | .branch branch => attach branch { b with stack := rest }

def popN (ending : Ending) : Nat → Layers → Layers
  | 0, b => b
  | n + 1, b => popN ending n (b.pop ending)

def innermost? (b : Layers) : Option Layer :=
  match b.stack with
  | [] => none
  | l :: rest => if l.isFirstBranch then rest.head?.or (some l) else some l

def misclosed (b : Layers) (container : Container) (name : String) (span : Span) : Error :=
  match b.innermost? with
  | none => .misnested (.closeUnopened container name) span
  | some l => .misnested (.closeBefore container name l.unclosed) span

def openTag (b : Layers) (head : TagHead) : Except Error Layers := do
  let b ← b.openLayer (.tag head none)
  if TagName.isBranching head.name then b.openLayer (.branch (Nesting.firstBranch head.span) .unset)
  else return b

def openBranch (b : Layers) (name : String) (head : TagHead) : Except Error Layers :=
  let ending := .implied head.span.lo
  let b := b.popN ending (b.stack.takeWhile Layer.isElement).length
  match b.stack with
  | [] => .error (.misnested (.branchOutside name) head.span)
  | l :: _ =>
    if l.isTag then .error (.misnested (.branchBefore name l.unclosed) head.span)
    else (b.pop ending).openLayer (.branch ⟨some name, head.markup, head.trim, head.span⟩ .unset)

def closeTag (b : Layers) (close : TagClose) : Except Error Layers :=
  let above := b.stack.takeWhile (!·.isTag)
  match (b.stack.drop above.length).head?.map Layer.opening with
  | some (.tag head _) =>
    if head.name = close.name ∧ (!above.any Layer.isElement ∨ TagName.isConditional close.name) then
      .ok ((b.popN (.implied close.span.lo) above.length).pop (.written ⟨close.trim, close.span⟩))
    else .error (b.misclosed .tag close.name close.span)
  | _ => .error (b.misclosed .tag close.name close.span)

def acceptsDangling (mode : Mode) (b : Layers) : Bool :=
  match b.stack with
  | [] => false
  | l :: rest =>
    match l.opening with
    | .branch .. =>
      l.children.all Node.isDanglingClose &&
        match rest.head?.map Layer.opening with
        | some (.tag head _) => TagName.isConditional head.name
        | _ => false
    | .element .. => mode == .completion
    | .tag .. => false

def closeElement (mode : Mode) (b : Layers) (name : List Piece) (span : Span) : Except Error Layers :=
  match b.stack.head?.map Layer.opening with
  | some (.element opened ..) =>
    if Text.sameCaseless (nameText opened) (nameText name) then .ok (b.pop (.written ⟨{}, span⟩))
    else dangling
  | _ => dangling
where
  dangling : Except Error Layers :=
    if b.acceptsDangling mode then .ok (b.push (.danglingClose name span))
    else .error (b.misclosed .element (nameText name) span)

def step (mode : Mode) (b : Layers) : Item → Except Error Layers
  | .leaf node => .ok (b.push node)
  | .openElement name attributes span => b.openLayer (.element name attributes span .unset)
  | .closeElement name span => b.closeElement mode name span
  | .openTag head => b.openTag head
  | .openBranch name head => b.openBranch name head
  | .closeTag close => b.closeTag close

def feed (o : Options) (b : Layers) (tokens : List Token) : Except Error Layers :=
  tokens.foldlM (fun b t => do b.step o.mode (← Nesting.complete o t)) b

def finish (o : Options) (stop : Nat) (b : Layers) : Except Error (List Node) :=
  match b.innermost? with
  | some l =>
    if o.allowUnclosed then .ok (b.popN (.implied stop) b.stack.length).roots.reverse
    else .error (.misnested (.endBefore l.unclosed) (.point stop))
  | none => .ok b.roots.reverse

def ofTokens (o : Options) (stop : Nat) (tokens : List Token) : Except Error (List Node) := do
  (← feed o {} tokens).finish o stop

end Layers

end LiquidTemplate
