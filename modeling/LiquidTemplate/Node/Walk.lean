import LiquidTemplate.Node

namespace LiquidTemplate

inductive Visit where
  | node (node : Node)
  | branch (branch : Branch)

def Visit.ofName (name : List Piece) : List Visit := name.map fun p => .node (.ofPiece p)

mutual

def Node.walk : Node → List Visit
  | .element name attributes opening children closing =>
    .node (.element name attributes opening children closing) ::
      (Visit.ofName name ++ walkAll attributes ++ walkAll children)
  | .rawElement element kind attributes nodes =>
    .node (.rawElement element kind attributes nodes) ::
      .node (.text element.name) :: (walkAll attributes ++ walkAll nodes)
  | .voidElement name attributes span =>
    .node (.voidElement name attributes span) :: .node (.text name) :: walkAll attributes
  | .selfClosing name attributes span =>
    .node (.selfClosing name attributes span) :: (Visit.ofName name ++ walkAll attributes)
  | .danglingClose name span => .node (.danglingClose name span) :: Visit.ofName name
  | .valueAttribute quotes name value valueSpan span =>
    .node (.valueAttribute quotes name value valueSpan span) ::
      (Visit.ofName name ++ walkAll value)
  | .bareAttribute name span => .node (.bareAttribute name span) :: Visit.ofName name
  | .block head children closing => .node (.block head children closing) :: walkAll children
  | .branched head first others closing =>
    .node (.branched head first others closing) :: (first.walk ++ walkBranches others)
  | .statements trim span body => .node (.statements trim span body) :: walkAll body
  | .rawTag tag kind nodes => .node (.rawTag tag kind nodes) :: walkAll nodes
  | leaf => [.node leaf]

def walkAll : List Node → List Visit
  | [] => []
  | n :: ns => n.walk ++ walkAll ns

def Branch.walk : Branch → List Visit
  | .mk head children closing => .branch (.mk head children closing) :: walkAll children

def walkBranches : List Branch → List Visit
  | [] => []
  | b :: bs => b.walk ++ walkBranches bs

end

def Document.walk (d : Document) : List Visit := walkAll d.children

end LiquidTemplate
