import LiquidTemplate.Nesting.Frame
import LiquidTemplate.Options

namespace LiquidTemplate

/-- A token with its nested parts made into nodes, by what it does to the open constructs. -/
inductive Item where
  | leaf (node : Node)
  | openElement (name : List Piece) (attributes : List Node) (span : Span)
  | closeElement (name : List Piece) (span : Span)
  | openTag (head : TagHead)
  | openBranch (name : String) (head : TagHead)
  | closeTag (close : TagClose)

/-- A tree that is being built: the finished nodes, latest first, and the open constructs,
innermost first. -/
structure Nesting where
  roots : List Node := []
  stack : List Frame := []

namespace Nesting

def add (nodes : List Node) (b : Nesting) : Nesting :=
  match b.stack with
  | [] => { b with roots := nodes ++ b.roots }
  | f :: rest => { b with stack := f.add nodes :: rest }

def misclosed (b : Nesting) (container : Container) (name : String) (span : Span) : Error :=
  match b.stack with
  | [] => .misnested (.closeUnopened container name) span
  | f :: _ => .misnested (.closeBefore container name f.unclosed) span

def openFrame (b : Nesting) (f : Frame) (span : Span) : Except Error Nesting :=
  if maxDepth ≤ Frame.depth b.stack then .error (.misnested .tooDeep span)
  else .ok { b with stack := f :: b.stack }

def firstBranch (tag : Span) : BranchHead := ⟨none, .text "", {}, .point tag.hi⟩

def openTag (b : Nesting) (head : TagHead) : Except Error Nesting :=
  if TagName.isBranching head.name then
    if Frame.depth b.stack + 1 = maxDepth then
      .error (.misnested .tooDeep (.point head.span.hi))
    else b.openFrame (.branched head [] (firstBranch head.span) []) head.span
  else b.openFrame (.block head []) head.span

def openBranch (b : Nesting) (name : String) (head : TagHead) : Except Error Nesting :=
  match Frame.closeElements head.span.lo [] b.stack with
  | (_, []) => .error (.misnested (.branchOutside name) head.span)
  | (pending, .branched tag closed current children :: rest) =>
    let done := .mk current (pending ++ children).reverse (.point head.span.lo)
    let next := ⟨some name, head.markup, head.trim, head.span⟩
    .ok { b with stack := .branched tag (done :: closed) next [] :: rest }
  | (_, f :: _) => .error (.misnested (.branchBefore name f.unclosed) head.span)

def closeTag (b : Nesting) (close : TagClose) : Except Error Nesting :=
  match Frame.closeElements close.span.lo [] b.stack with
  | (pending, f :: rest) =>
    if f.tagName? = some close.name ∧ (pending.isEmpty ∨ TagName.isConditional close.name) then
      .ok (add [(f.add pending).close ⟨close.trim, close.span⟩] { b with stack := rest })
    else .error (b.misclosed .tag close.name close.span)
  | (_, []) => .error (b.misclosed .tag close.name close.span)

/-- Whether a closing without an opening is kept.  It may lead a branch of a conditional tag, after
other such closings only; when completions are asked for, it may stand in any element. -/
def acceptsDangling (mode : Mode) : List Frame → Bool
  | [] => false
  | .element .. :: _ => mode == .completion
  | .block .. :: _ => false
  | .branched head _ _ children :: _ =>
    TagName.isConditional head.name && children.all Node.isDanglingClose

def closesTop (name : String) : List Frame → Bool
  | .element opened _ _ _ :: _ => Text.sameCaseless (nameText opened) name
  | _ => false

def closeElement (mode : Mode) (b : Nesting) (name : List Piece) (span : Span) :
    Except Error Nesting :=
  match b.stack with
  | [] => .error (b.misclosed .element (nameText name) span)
  | f :: rest =>
    if closesTop (nameText name) b.stack then
      .ok (add [f.close ⟨{}, span⟩] { b with stack := rest })
    else if acceptsDangling mode b.stack then .ok (b.add [.danglingClose name span])
    else .error (b.misclosed .element (nameText name) span)

def step (mode : Mode) (b : Nesting) : Item → Except Error Nesting
  | .leaf node => .ok (b.add [node])
  | .openElement name attributes span => b.openFrame (.element name attributes span []) span
  | .closeElement name span => b.closeElement mode name span
  | .openTag head => b.openTag head
  | .openBranch name head => b.openBranch name head
  | .closeTag close => b.closeTag close

/-- The finished tree of a region that ends at an offset.  What is open there is closed, if that is
allowed. -/
def finish (options : Options) (stop : Nat) (b : Nesting) : Except Error (List Node) :=
  match b.stack with
  | [] => .ok b.roots.reverse
  | f :: _ =>
    if options.allowUnclosed then .ok (Frame.closeAll stop [] b.stack ++ b.roots).reverse
    else .error (.misnested (.endBefore f.unclosed) (.point stop))

end Nesting

namespace Options

def nested (o : Options) : Options := { o with allowUnclosed := false }

def rawBody : Options := ⟨.tolerant, true⟩

end Options

def Tag.head (t : Tag) : TagHead := ⟨t.name, t.markup.fold, t.trim, t.span⟩

namespace Nesting

mutual

def complete (o : Options) : Token → Except Error Item
  | .text run => .ok (.leaf (.text run))
  | .frontmatter body span => .ok (.leaf (.frontmatter body span))
  | .doctype legacy span => .ok (.leaf (.doctype legacy span))
  | .comment body span => .ok (.leaf (.comment body span))
  | .rawElement element attributes body => do
    let b ← feed o.nested {} attributes
    let attributes ← b.finish o.nested element.block.opening.hi
    let kind := RawKind.ofElement element.name.value (Node.attributeValue? attributes "type")
    let b ← feed Options.rawBody {} body
    let nodes ← b.finish Options.rawBody element.bodySpan.hi
    return .leaf (.rawElement element kind attributes nodes)
  | .voidElement name attributes span => do
    let b ← feed o.nested {} attributes
    return .leaf (.voidElement name (← b.finish o.nested span.hi) span)
  | .selfClosing name attributes span => do
    let b ← feed o.nested {} attributes
    return .leaf (.selfClosing name (← b.finish o.nested span.hi) span)
  | .elementOpen name attributes span => do
    let b ← feed o.nested {} attributes
    return .openElement name (← b.finish o.nested span.hi) span
  | .elementClose name span => .ok (.closeElement name span)
  | .valueAttribute quotes name value valueSpan span => do
    let b ← feed o.nested {} value
    return .leaf (.valueAttribute quotes name (← b.finish o.nested valueSpan.hi) valueSpan span)
  | .bareAttribute name span => .ok (.leaf (.bareAttribute name span))
  | .output output => .ok (.leaf (.output output))
  | .tagOpen tag => .ok (.openTag tag.head)
  | .tag tag =>
    if TagName.isBranch tag.name then .ok (.openBranch tag.name tag.head)
    else .ok (.leaf (.tag tag.head))
  | .statements head body => do
    let b ← feed o.nested {} body
    return .leaf (.statements head.trim head.span (← b.finish o.nested head.markupSpan.hi))
  | .tagClose close => .ok (.closeTag close)
  | .rawTag tag body => do
    let b ← feed Options.rawBody {} body
    let nodes ← b.finish Options.rawBody tag.bodySpan.hi
    return .leaf (.rawTag tag (RawKind.ofTag tag.name) nodes)
  | .docParam param => .ok (.leaf (.docParam param))
  | .docExample content span => .ok (.leaf (.docExample content span))
  | .docDescription content span => .ok (.leaf (.docDescription content span))

def feed (o : Options) (b : Nesting) : List Token → Except Error Nesting
  | [] => .ok b
  | t :: rest => do
    let item ← complete o t
    let b ← b.step o.mode item
    feed o b rest

end

end Nesting

/-- The tree of a list of tokens, of a region that ends at an offset. -/
def Node.ofTokens (o : Options) (stop : Nat) (tokens : List Token) : Except Error (List Node) := do
  (← Nesting.feed o {} tokens).finish o stop

end LiquidTemplate
