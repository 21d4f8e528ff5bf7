import LiquidTemplate.Node.Walk
import LiquidTemplate.Proofs.Geometry.Tree
import LiquidTemplate.Proofs.Nesting.Listing

namespace LiquidTemplate

namespace Node

def fields : Node → List Span
  | element _ _ opening _ closing => [.between opening.lo closing.hi, opening, closing]
  | rawElement e _ _ _ => [e.block.span, e.block.opening, e.block.closing, e.bodySpan]
  | valueAttribute _ _ _ valueSpan span => [span, valueSpan]
  | block head _ closing => [.between head.span.lo closing.span.hi, head.span, closing.span]
  | branched head _ _ closing => [.between head.span.lo closing.span.hi, head.span, closing.span]
  | rawTag t _ _ => [t.block.span, t.block.opening, t.block.closing, t.bodySpan]
  | node => [node.span]

/-- The lists of nodes in a node that are built by themselves. -/
def regions : Node → List (List Node)
  | element _ attributes _ _ _ => [attributes]
  | rawElement _ _ attributes nodes => [attributes, nodes]
  | voidElement _ attributes _ => [attributes]
  | selfClosing _ attributes _ => [attributes]
  | valueAttribute _ _ value _ _ => [value]
  | statements _ _ body => [body]
  | rawTag _ _ nodes => [nodes]
  | _ => []

end Node

def Branch.fields (b : Branch) : List Span := [b.span, b.head.span, b.closing]

def Branch.Named (b : Branch) : Prop := ∃ name, b.head.name = some name ∧ TagName.isBranch name

/-- A tag with a body has branches if its name asks for them: first one without a name, then those that
tags start. -/
def Node.Regular : Node → Prop
  | block head _ _ => TagName.isBranching head.name = false
  | branched head first others _ =>
    TagName.isBranching head.name ∧ first.head.name = none ∧ ∀ b ∈ others, b.Named
  | _ => True

mutual

/-- The longest chain of constructs, each in the one before it, that starts with the node.  It may lead
`across` into lists of nodes that are built by themselves, or not. -/
def Node.height (across : Bool) : Node → Nat
  | .element _ attributes _ children _ =>
    max (if across then nodesHeight across attributes else 0) (nodesHeight across children) + 1
  | .rawElement _ _ attributes nodes =>
    if across then max (nodesHeight across attributes) (nodesHeight across nodes) else 0
  | .voidElement _ attributes _ => if across then nodesHeight across attributes else 0
  | .selfClosing _ attributes _ => if across then nodesHeight across attributes else 0
  | .valueAttribute _ _ value _ _ => if across then nodesHeight across value else 0
  | .block _ children _ => nodesHeight across children + 1
  | .branched _ first others _ => max (first.height across) (branchesHeight across others) + 1
  | .statements _ _ body => if across && !body.isEmpty then nodesHeight across body + 1 else 0
  | .rawTag _ _ nodes => if across then nodesHeight across nodes else 0
  | _ => 0

def nodesHeight (across : Bool) : List Node → Nat
  | [] => 0
  | n :: ns => max (n.height across) (nodesHeight across ns)

def Branch.height (across : Bool) : Branch → Nat
  | .mk _ children _ => nodesHeight across children + 1

def branchesHeight (across : Bool) : List Branch → Nat
  | [] => 0
  | b :: bs => max (b.height across) (branchesHeight across bs)

end

theorem nodesHeight_le {across : Bool} {ns : List Node} {k : Nat} :
    nodesHeight across ns ≤ k ↔ ∀ n ∈ ns, n.height across ≤ k := by
  induction ns with
  | nil => simp [nodesHeight]
  | cons n ns ih => rw [nodesHeight, Nat.max_le, ih, List.forall_mem_cons]

theorem branchesHeight_le {across : Bool} {bs : List Branch} {k : Nat} :
    branchesHeight across bs ≤ k ↔ ∀ b ∈ bs, b.height across ≤ k := by
  induction bs with
  | nil => simp [branchesHeight]
  | cons b bs ih => rw [branchesHeight, Nat.max_le, ih, List.forall_mem_cons]

theorem mem_walkAll {v : Visit} {ns : List Node} : v ∈ walkAll ns ↔ ∃ n ∈ ns, v ∈ n.walk := by
  induction ns with
  | nil => simp [walkAll]
  | cons n ns ih => simp [walkAll, ih]

theorem mem_walkBranches {v : Visit} {bs : List Branch} :
    v ∈ walkBranches bs ↔ ∃ b ∈ bs, v ∈ b.walk := by
  induction bs with
  | nil => simp [walkBranches]
  | cons b bs ih => simp [walkBranches, ih]

namespace Token

mutual

def spans : Token → List Span
  | rawElement e attributes body =>
    e.name.span :: e.block.span :: e.block.opening :: e.block.closing :: e.bodySpan ::
      (spansAll attributes ++ spansAll body)
  | voidElement name attributes span => span :: name.span :: spansAll attributes
  | selfClosing name attributes span => span :: (name.map Piece.span ++ spansAll attributes)
  | elementOpen name attributes span => span :: (name.map Piece.span ++ spansAll attributes)
  | elementClose name span => span :: name.map Piece.span
  | valueAttribute _ name value valueSpan span =>
    span :: valueSpan :: (name.map Piece.span ++ spansAll value)
  | bareAttribute name span => span :: name.map Piece.span
  | statements head body => head.span :: head.markupSpan :: spansAll body
  | rawTag t body => t.block.span :: t.block.opening :: t.block.closing :: t.bodySpan :: spansAll body
  | token => [token.span]

def spansAll : List Token → List Span
  | [] => []
  | t :: ts => t.spans ++ spansAll ts

end

end Token

def Span.Fits (ok : Span → Prop) : Prop := ∀ a b, a < limit → b < limit → ok (.between a b)

theorem Span.fits_true : Fits fun _ => True := fun _ _ _ _ => trivial

variable {ok : Span → Prop} {d : Nat}

def Visit.Sound (ok : Span → Prop) : Visit → Prop
  | node n => n.Regular ∧ (∀ s ∈ n.fields, ok s) ∧ ∀ region ∈ n.regions, nodesHeight false region ≤ maxDepth
  | branch b => ∀ s ∈ b.fields, ok s

structure Node.Sound (ok : Span → Prop) (d : Nat) (n : Node) : Prop where
  height : n.height false + d ≤ maxDepth
  walk : ∀ v ∈ n.walk, v.Sound ok

structure Branch.Sound (ok : Span → Prop) (d : Nat) (b : Branch) : Prop where
  fields : ∀ s ∈ b.fields, ok s
  children : ∀ n ∈ b.children, n.Sound ok (d + 1)

namespace Node

theorem Sound.mono {n : Node} {e : Nat} (h : n.Sound ok e) (hde : d ≤ e) : n.Sound ok d :=
  ⟨by have := h.height; omega, h.walk⟩

theorem Sound.walkAll {ns : List Node} (h : ∀ n ∈ ns, n.Sound ok d) : ∀ v ∈ walkAll ns, v.Sound ok := by
  intro v hv
  obtain ⟨n, hn, hv⟩ := mem_walkAll.mp hv
  exact (h n hn).walk v hv

theorem Sound.nodesHeight_le {ns : List Node} (hd : d ≤ maxDepth) (h : ∀ n ∈ ns, n.Sound ok d) :
    nodesHeight false ns ≤ maxDepth - d := by
  rw [LiquidTemplate.nodesHeight_le]
  intro n hn
  have := (h n hn).height
  omega

theorem Sound.region {ns : List Node} (h : ∀ n ∈ ns, n.Sound ok 0) : nodesHeight false ns ≤ maxDepth :=
  Sound.nodesHeight_le (Nat.zero_le _) h

end Node

theorem Visit.sound_ofName {name : List Piece} (h : ∀ p ∈ name, ok p.span) :
    ∀ v ∈ Visit.ofName name, v.Sound ok := by
  intro v hv
  obtain ⟨p, hp, rfl⟩ := List.mem_map.mp hv
  have hspan : ∀ s ∈ [p.span], ok s := List.forall_mem_singleton.mpr (h p hp)
  cases p with
  | text run => exact ⟨trivial, hspan, List.forall_mem_nil _⟩
  | output o => exact ⟨trivial, hspan, List.forall_mem_nil _⟩

theorem Branch.Sound.walk {b : Branch} (h : b.Sound ok d) : ∀ v ∈ b.walk, v.Sound ok := by
  obtain ⟨head, children, closing⟩ := b
  intro v hv
  rw [Branch.walk] at hv
  rcases List.mem_cons.mp hv with rfl | hv
  · exact h.fields
  · exact Node.Sound.walkAll h.children v hv

theorem Branch.Sound.height_le {b : Branch} (hd : d + 1 ≤ maxDepth) (h : b.Sound ok d) :
    b.height false + d ≤ maxDepth := by
  obtain ⟨head, children, closing⟩ := b
  have := Node.Sound.nodesHeight_le hd h.children
  simp only [Branch.children] at this
  rw [Branch.height]
  omega

/-- The names of branches, latest first: of these only the first branch has none. -/
def InTurn (names : List (Option String)) : Prop :=
  ∃ later, names = later ++ [none] ∧ ∀ name ∈ later, ∃ n, name = some n ∧ TagName.isBranch n

theorem InTurn.first : InTurn [none] := ⟨[], rfl, by simp⟩

theorem InTurn.next {names : List (Option String)} {name : String} (h : InTurn names)
    (hname : TagName.isBranch name) : InTurn (some name :: names) := by
  obtain ⟨later, rfl, hlater⟩ := h
  exact ⟨some name :: later, rfl, List.forall_mem_cons.mpr ⟨⟨name, rfl, hname⟩, hlater⟩⟩

theorem InTurn.branches {first : Branch} {others : List Branch}
    (h : InTurn ((first :: others).reverse.map (·.head.name))) :
    first.head.name = none ∧ ∀ b ∈ others, b.Named := by
  obtain ⟨later, hnames, hlater⟩ := h
  rw [List.reverse_cons, List.map_append] at hnames
  obtain ⟨hothers, hfirst⟩ := List.append_inj' hnames rfl
  refine ⟨by simpa using hfirst, ?_⟩
  intro b hb
  apply hlater
  rw [← hothers]
  exact List.mem_map_of_mem (List.mem_reverse.mpr hb)

section Closed

variable {closing : Closing}

theorem ok_block (hok : Span.Fits ok) {opening closing : Span} (hopening : ok opening) (hclosing : ok closing) :
    ∀ s ∈ [.between opening.lo closing.hi, opening, closing], ok s := by
  have hspan : ok (.between opening.lo closing.hi) := hok _ _ opening.lo_lt closing.hi_lt
  simpa using ⟨hspan, hopening, hclosing⟩

theorem Node.sound_element (hok : Span.Fits ok) {name : List Piece} {attributes children : List Node}
    {opening closing : Span} (hd : d + 1 ≤ maxDepth) (hopening : ok opening) (hclosing : ok closing)
    (hname : ∀ p ∈ name, ok p.span) (hattributes : ∀ n ∈ attributes, n.Sound ok 0)
    (hchildren : ∀ n ∈ children, n.Sound ok (d + 1)) :
    Node.Sound ok d (.element name attributes opening children closing) := by
  constructor
  · have hheight := Sound.nodesHeight_le hd hchildren
    simp only [Node.height, Bool.false_eq_true, if_false, Nat.zero_max]
    omega
  · intro v hv
    simp only [Node.walk, List.mem_cons, List.mem_append] at hv
    rcases hv with rfl | (hv | hv) | hv
    · exact ⟨trivial, ok_block hok hopening hclosing, List.forall_mem_singleton.mpr (Sound.region hattributes)⟩
    · exact Visit.sound_ofName hname v hv
    · exact Sound.walkAll hattributes v hv
    · exact Sound.walkAll hchildren v hv

theorem Node.sound_block (hok : Span.Fits ok) {head : TagHead} {children : List Node}
    (hd : d + 1 ≤ maxDepth) (hhead : ok head.span) (hclosing : ok closing.span)
    (hname : TagName.isBranching head.name = false) (hchildren : ∀ n ∈ children, n.Sound ok (d + 1)) :
    Node.Sound ok d (.block head children closing) := by
  constructor
  · have hheight := Sound.nodesHeight_le hd hchildren
    simp only [Node.height]
    omega
  · intro v hv
    simp only [Node.walk, List.mem_cons] at hv
    rcases hv with rfl | hv
    · exact ⟨hname, ok_block hok hhead hclosing, List.forall_mem_nil _⟩
    · exact Sound.walkAll hchildren v hv

theorem Node.sound_branched (hok : Span.Fits ok) {head : TagHead} {first : Branch} {others : List Branch}
    (hd : d + 2 ≤ maxDepth) (hhead : ok head.span) (hclosing : ok closing.span)
    (hname : TagName.isBranching head.name) (hturn : InTurn ((first :: others).reverse.map (·.head.name)))
    (hbranches : ∀ b ∈ first :: others, b.Sound ok (d + 1)) :
    Node.Sound ok d (.branched head first others closing) := by
  constructor
  · have hheight : branchesHeight false (first :: others) ≤ maxDepth - (d + 1) := by
      rw [branchesHeight_le]
      intro b hb
      have := (hbranches b hb).height_le hd
      omega
    simp only [branchesHeight] at hheight
    simp only [Node.height]
    omega
  · intro v hv
    rcases List.mem_cons.mp hv with rfl | hv
    · exact ⟨⟨hname, hturn.branches⟩, ok_block hok hhead hclosing, List.forall_mem_nil _⟩
    · have hv : v ∈ walkBranches (first :: others) := hv
      obtain ⟨b, hb, hv⟩ := mem_walkBranches.mp hv
      exact (hbranches b hb).walk v hv

/-- A node without levels of its own may stand anywhere. -/
theorem Node.sound_leaf {n : Node} {inner : List Visit} (hheight : n.height false = 0)
    (hwalk : n.walk = .node n :: inner) (hregular : n.Regular) (hfields : ∀ s ∈ n.fields, ok s)
    (hregions : ∀ region ∈ n.regions, ∀ m ∈ region, m.Sound ok 0) (hinner : ∀ v ∈ inner, v.Sound ok)
    (hd : d ≤ maxDepth) : n.Sound ok d := by
  constructor
  · omega
  · rw [hwalk, List.forall_mem_cons]
    exact ⟨⟨hregular, hfields, fun region hregion => Sound.region (hregions region hregion)⟩, hinner⟩

end Closed

namespace Frame

def Sound (ok : Span → Prop) (d : Nat) : Frame → Prop
  | element name attributes opening children =>
    d + 1 ≤ maxDepth ∧ ok opening ∧ (∀ p ∈ name, ok p.span) ∧ (∀ n ∈ attributes, n.Sound ok 0) ∧
      ∀ n ∈ children, n.Sound ok (d + 1)
  | block head children =>
    d + 1 ≤ maxDepth ∧ ok head.span ∧ TagName.isBranching head.name = false ∧
      ∀ n ∈ children, n.Sound ok (d + 1)
  | branched head closed current children =>
    d + 2 ≤ maxDepth ∧ ok head.span ∧ TagName.isBranching head.name ∧
      InTurn (current.name :: closed.map (·.head.name)) ∧ ok current.span ∧
      (∀ b ∈ closed, b.Sound ok (d + 1)) ∧ ∀ n ∈ children, n.Sound ok (d + 2)

theorem Sound.add {f : Frame} (h : f.Sound ok d) {nodes : List Node}
    (hnodes : ∀ n ∈ nodes, n.Sound ok (d + f.weight)) : (f.add nodes).Sound ok d := by
  cases f with
  | element name attributes opening children =>
      obtain ⟨hd, hopening, hname, hattributes, hchildren⟩ := h
      exact ⟨hd, hopening, hname, hattributes, List.forall_mem_append.mpr ⟨hnodes, hchildren⟩⟩
  | block head children =>
      obtain ⟨hd, hhead, hbranching, hchildren⟩ := h
      exact ⟨hd, hhead, hbranching, List.forall_mem_append.mpr ⟨hnodes, hchildren⟩⟩
  | branched head closed current children =>
      obtain ⟨hd, hhead, hbranching, hturn, hcurrent, hclosed, hchildren⟩ := h
      exact ⟨hd, hhead, hbranching, hturn, hcurrent, hclosed, List.forall_mem_append.mpr ⟨hnodes, hchildren⟩⟩

theorem sound_branch (hok : Span.Fits ok) {current : BranchHead} {children : List Node} {closing : Span}
    (hclosing : ok closing) (hcurrent : ok current.span) (hchildren : ∀ n ∈ children, n.Sound ok (d + 1)) :
    Branch.Sound ok d (.mk current children closing) := by
  refine ⟨?_, hchildren⟩
  simp only [Branch.fields, Branch.span, Branch.stop, Branch.head, Branch.closing, List.forall_mem_cons,
    List.not_mem_nil, false_implies, implies_true, and_true]
  exact ⟨hok _ _ (Span.lo_lt _) (Span.hi_lt _), hcurrent, hclosing⟩

def closeAt (offset : Nat) (closing : Closing) : Frame → Node
  | branched head closed current children =>
    let (first, others) := gather (.mk current children.reverse (.point offset)) [] closed
    .branched head first others closing
  | f => f.close closing

theorem closeAt_lo (f : Frame) (closing : Closing) : f.closeAt closing.span.lo closing = f.close closing := by
  cases f <;> rfl

theorem Sound.closeAt (hok : Span.Fits ok) {f : Frame} (h : f.Sound ok d) {offset : Nat} {closing : Closing}
    (hoffset : ok (.point offset)) (hclosing : ok closing.span) : (f.closeAt offset closing).Sound ok d := by
  cases f with
  | element name attributes opening children =>
      obtain ⟨hd, hopening, hname, hattributes, hchildren⟩ := h
      exact Node.sound_element hok hd hopening hclosing hname hattributes (by simpa using hchildren)
  | block head children =>
      obtain ⟨hd, hhead, hname, hchildren⟩ := h
      exact Node.sound_block hok hd hhead hclosing hname (by simpa using hchildren)
  | branched head closed current children =>
      obtain ⟨hd, hhead, hname, hturn, hcurrent, hclosed, hchildren⟩ := h
      have hlast : Branch.Sound ok (d + 1) (.mk current children.reverse (.point offset)) :=
        sound_branch hok hoffset hcurrent (by simpa using hchildren)
      have hgather := gather_cons (.mk current children.reverse (.point offset)) [] closed
      apply Node.sound_branched hok hd hhead hclosing hname
      · rw [hgather]
        simpa [Branch.head] using hturn
      · rw [hgather]
        simpa [or_imp, forall_and] using ⟨hclosed, hlast⟩

theorem ok_point (hok : Span.Fits ok) {offset : Nat} (h : offset < Span.limit) : ok (.point offset) := hok _ _ h h

theorem Sound.close (hok : Span.Fits ok) {f : Frame} (h : f.Sound ok d) {closing : Closing}
    (hclosing : ok closing.span) : (f.close closing).Sound ok d := by
  rw [← closeAt_lo]
  exact h.closeAt hok (ok_point hok closing.span.lo_lt) hclosing

/-- Each frame of a stack is above the levels that the frames below it take. -/
def StackSound (ok : Span → Prop) : List Frame → Prop
  | [] => True
  | f :: rest => f.Sound ok (depth rest) ∧ StackSound ok rest

theorem depth_le {stack : List Frame} (h : StackSound ok stack) : depth stack ≤ maxDepth := by
  cases stack with
  | nil => exact Nat.zero_le _
  | cons f rest =>
      obtain ⟨hf, _⟩ := h
      have : depth rest + f.weight ≤ maxDepth := by
        cases f with
        | element | block | branched => exact hf.1
      rw [depth]
      omega

theorem sound_closeElements (hok : Span.Fits ok) {offset : Nat} (hoffset : ok (implied offset).span)
    {pending : List Node} {stack : List Frame} (hstack : StackSound ok stack)
    (hpending : ∀ n ∈ pending, n.Sound ok (depth stack)) :
    StackSound ok (closeElements offset pending stack).2 ∧
      ∀ n ∈ (closeElements offset pending stack).1, n.Sound ok (depth (closeElements offset pending stack).2) := by
  induction stack generalizing pending with
  | nil => exact ⟨trivial, hpending⟩
  | cons f rest ih =>
      by_cases helement : f.isElement
      · obtain ⟨hf, hrest⟩ := hstack
        rw [closeElements, if_pos helement]
        apply ih hrest
        intro n hn
        rw [List.mem_singleton.mp hn]
        rw [depth, Nat.add_comm] at hpending
        exact (hf.add hpending).close hok hoffset
      · rw [closeElements, if_neg helement]
        exact ⟨hstack, hpending⟩

theorem sound_closeAll (hok : Span.Fits ok) {offset : Nat} (hoffset : ok (implied offset).span)
    {pending : List Node} {stack : List Frame} (hstack : StackSound ok stack)
    (hpending : ∀ n ∈ pending, n.Sound ok (depth stack)) :
    ∀ n ∈ closeAll offset pending stack, n.Sound ok 0 := by
  induction stack generalizing pending with
  | nil => exact hpending
  | cons f rest ih =>
      obtain ⟨hf, hrest⟩ := hstack
      rw [closeAll]
      apply ih hrest
      intro n hn
      rw [List.mem_singleton.mp hn]
      rw [depth, Nat.add_comm] at hpending
      exact (hf.add hpending).close hok hoffset

end Frame

namespace Item

def Sound (ok : Span → Prop) : Item → Prop
  | leaf node => node.Sound ok maxDepth
  | openElement name attributes span => ok span ∧ (∀ p ∈ name, ok p.span) ∧ ∀ n ∈ attributes, n.Sound ok 0
  | closeElement name span => ok span ∧ ∀ p ∈ name, ok p.span
  | openTag head => ok head.span
  | openBranch name head => ok head.span ∧ TagName.isBranch name
  | closeTag close => ok close.span

end Item

namespace Nesting

structure Sound (ok : Span → Prop) (b : Nesting) : Prop where
  roots : ∀ n ∈ b.roots, n.Sound ok 0
  stack : Frame.StackSound ok b.stack

theorem sound_empty : ({} : Nesting).Sound ok := ⟨by simp, trivial⟩

theorem Sound.add {b : Nesting} (h : b.Sound ok) {n : Node} (hn : n.Sound ok (Frame.depth b.stack)) :
    (b.add [n]).Sound ok := by
  obtain ⟨roots, stack⟩ := b
  cases stack with
  | nil => exact ⟨List.forall_mem_cons.mpr ⟨hn, h.roots⟩, trivial⟩
  | cons f rest =>
      obtain ⟨hf, hrest⟩ := h.stack
      refine ⟨h.roots, hf.add ?_, hrest⟩
      simp only [Frame.depth] at hn
      rw [Nat.add_comm]
      simpa using hn

theorem Sound.step (hok : Span.Fits ok) {mode : Mode} {b b' : Nesting} {item : Item} (h : b.Sound ok)
    (hitem : item.Sound ok) (hstep : b.step mode item = .ok b') : b'.Sound ok := by
  have hdepth := Frame.depth_le h.stack
  have hnone : ∀ n ∈ ([] : List Node), n.Sound ok (Frame.depth b.stack) := by simp
  cases item with
  | leaf node =>
      cases hstep
      exact h.add (Node.Sound.mono hitem hdepth)
  | openElement name attributes span =>
      obtain ⟨hlt, rfl⟩ := openFrame_ok hstep
      obtain ⟨hspan, hname, hattributes⟩ := hitem
      exact ⟨h.roots, ⟨hlt, hspan, hname, hattributes, by simp⟩, h.stack⟩
  | closeElement name span =>
      obtain ⟨hspan, hname⟩ := hitem
      obtain ⟨f, rest, hstack, ⟨_, rfl⟩ | ⟨_, rfl⟩⟩ := closeElement_ok hstep
      · have hall := h.stack
        rw [hstack] at hall
        obtain ⟨hf, hrest⟩ := hall
        have hbelow : Sound ok ⟨b.roots, rest⟩ := ⟨h.roots, hrest⟩
        exact hbelow.add (hf.close hok hspan)
      · refine h.add (Node.sound_leaf rfl rfl trivial ?_ (List.forall_mem_nil _) (Visit.sound_ofName hname) hdepth)
        exact List.forall_mem_singleton.mpr hspan
  | openTag head =>
      have hcurrent : ok (firstBranch head.span).span := hok _ _ (Span.hi_lt _) (Span.hi_lt _)
      rcases openTag_ok hstep with ⟨hname, hlt, rfl⟩ | ⟨hname, hlt, rfl⟩
      · exact ⟨h.roots, ⟨hlt, hitem, hname, by simp⟩, h.stack⟩
      · exact ⟨h.roots, ⟨hlt, hitem, hname, .first, hcurrent, by simp, by simp⟩, h.stack⟩
  | openBranch name head =>
      obtain ⟨hspan, hname⟩ := hitem
      obtain ⟨pending, tag, closed, current, children, rest, hclose, rfl⟩ := openBranch_ok hstep
      obtain ⟨hall, hpending⟩ :=
        Frame.sound_closeElements hok (Frame.ok_point hok head.span.lo_lt) h.stack hnone
      rw [hclose] at hall hpending
      obtain ⟨⟨hd, hhead, hbranching, hturn, hcurrent, hclosed, hchildren⟩, hrest⟩ := hall
      rw [Frame.depth, Frame.weight, Nat.add_comm] at hpending
      have hdone : Branch.Sound ok (Frame.depth rest + 1)
          (.mk current (pending ++ children).reverse (.point head.span.lo)) := by
        refine Frame.sound_branch hok (Frame.ok_point hok head.span.lo_lt) hcurrent ?_
        intro n hn
        exact List.forall_mem_append.mpr ⟨hpending, hchildren⟩ n (List.mem_reverse.mp hn)
      exact ⟨h.roots, ⟨hd, hhead, hbranching, hturn.next hname, hspan,
        List.forall_mem_cons.mpr ⟨hdone, hclosed⟩, by simp⟩, hrest⟩
  | closeTag close =>
      obtain ⟨pending, f, rest, hclose, _, _, rfl⟩ := closeTag_ok hstep
      obtain ⟨hall, hpending⟩ :=
        Frame.sound_closeElements hok (Frame.ok_point hok close.span.lo_lt) h.stack hnone
      rw [hclose] at hall hpending
      obtain ⟨hf, hrest⟩ := hall
      rw [Frame.depth, Nat.add_comm] at hpending
      have hbelow : Sound ok ⟨b.roots, rest⟩ := ⟨h.roots, hrest⟩
      exact hbelow.add ((hf.add hpending).close hok hitem)

theorem Sound.finish (hok : Span.Fits ok) {o : Options} {stop : Nat} (hstop : ok (.point stop)) {b : Nesting}
    {nodes : List Node} (h : b.Sound ok) (hfinish : b.finish o stop = .ok nodes) :
    ∀ n ∈ nodes, n.Sound ok 0 := by
  have hnone : ∀ n ∈ ([] : List Node), n.Sound ok (Frame.depth b.stack) := List.forall_mem_nil _
  have hall := Frame.sound_closeAll hok (show ok (Frame.implied stop).span from hstop) h.stack hnone
  have hroots := h.roots
  unfold Nesting.finish at hfinish
  split at hfinish
  · cases hfinish
    simpa using hroots
  · split at hfinish
    · cases hfinish
      intro n hn
      exact List.forall_mem_append.mpr ⟨hall, hroots⟩ n (List.mem_reverse.mp hn)
    · cases hfinish

theorem Sound.finish_hi (hok : Span.Fits ok) {o : Options} {span : Span} {b : Nesting} {nodes : List Node}
    (h : b.Sound ok) (hfinish : b.finish o span.hi = .ok nodes) : ∀ n ∈ nodes, n.Sound ok 0 :=
  h.finish hok (hok _ _ span.hi_lt span.hi_lt) hfinish

theorem sound_text {run : TextRun} (h : ok run.span) : ∀ v ∈ Node.walk (.text run), v.Sound ok :=
  List.forall_mem_singleton.mpr ⟨trivial, List.forall_mem_singleton.mpr h, List.forall_mem_nil _⟩

mutual

theorem complete_sound (hok : Span.Fits ok) :
    ∀ {t : Token} {o : Options} {item : Item}, (∀ s ∈ t.spans, ok s) → complete o t = .ok item → item.Sound ok
  | .rawElement e attributes body, o, item, h, hitem => by
      simp only [Token.spans, List.forall_mem_cons, List.forall_mem_append] at h
      obtain ⟨hname, hspan, hopening, hclosing, hbodySpan, hattributes, hbody⟩ := h
      simp only [complete, bind_eq_ok, pure_eq_ok] at hitem
      obtain ⟨b, hfeed, nodes, hfinish, b', hfeed', nodes', hfinish', rfl⟩ := hitem
      have hnodes := (feed_sound hok sound_empty hattributes hfeed).finish_hi hok hfinish
      have hnodes' := (feed_sound hok sound_empty hbody hfeed').finish_hi hok hfinish'
      refine Node.sound_leaf rfl rfl trivial ?_ ?_ ?_ (Nat.le_refl _)
      · simpa [Node.fields] using ⟨hspan, hopening, hclosing, hbodySpan⟩
      · simpa [Node.regions] using ⟨hnodes, hnodes'⟩
      · refine List.forall_mem_append.mpr ⟨sound_text hname, List.forall_mem_append.mpr ⟨?_, ?_⟩⟩
        · exact Node.Sound.walkAll hnodes
        · exact Node.Sound.walkAll hnodes'
  | .voidElement name attributes span, o, item, h, hitem => by
      simp only [Token.spans, List.forall_mem_cons] at h
      obtain ⟨hspan, hname, hattributes⟩ := h
      simp only [complete, bind_eq_ok, pure_eq_ok] at hitem
      obtain ⟨b, hfeed, nodes, hfinish, rfl⟩ := hitem
      have hnodes := (feed_sound hok sound_empty hattributes hfeed).finish_hi hok hfinish
      refine Node.sound_leaf rfl rfl trivial ?_ (List.forall_mem_singleton.mpr hnodes) ?_ (Nat.le_refl _)
      · exact List.forall_mem_singleton.mpr hspan
      · exact List.forall_mem_append.mpr ⟨sound_text hname, Node.Sound.walkAll hnodes⟩
  | .selfClosing name attributes span, o, item, h, hitem => by
      simp only [Token.spans, List.forall_mem_cons, List.forall_mem_append, List.forall_mem_map] at h
      obtain ⟨hspan, hname, hattributes⟩ := h
      simp only [complete, bind_eq_ok, pure_eq_ok] at hitem
      obtain ⟨b, hfeed, nodes, hfinish, rfl⟩ := hitem
      have hnodes := (feed_sound hok sound_empty hattributes hfeed).finish_hi hok hfinish
      refine Node.sound_leaf rfl rfl trivial ?_ (List.forall_mem_singleton.mpr hnodes) ?_ (Nat.le_refl _)
      · exact List.forall_mem_singleton.mpr hspan
      · exact List.forall_mem_append.mpr ⟨Visit.sound_ofName hname, Node.Sound.walkAll hnodes⟩
  | .elementOpen name attributes span, o, item, h, hitem => by
      simp only [Token.spans, List.forall_mem_cons, List.forall_mem_append, List.forall_mem_map] at h
      obtain ⟨hspan, hname, hattributes⟩ := h
      simp only [complete, bind_eq_ok, pure_eq_ok] at hitem
      obtain ⟨b, hfeed, nodes, hfinish, rfl⟩ := hitem
      exact ⟨hspan, hname, (feed_sound hok sound_empty hattributes hfeed).finish_hi hok hfinish⟩
  | .valueAttribute quotes name value valueSpan span, o, item, h, hitem => by
      simp only [Token.spans, List.forall_mem_cons, List.forall_mem_append, List.forall_mem_map] at h
      obtain ⟨hspan, hvalueSpan, hname, hvalue⟩ := h
      simp only [complete, bind_eq_ok, pure_eq_ok] at hitem
      obtain ⟨b, hfeed, nodes, hfinish, rfl⟩ := hitem
      have hnodes := (feed_sound hok sound_empty hvalue hfeed).finish_hi hok hfinish
      refine Node.sound_leaf rfl rfl trivial ?_ (List.forall_mem_singleton.mpr hnodes) ?_ (Nat.le_refl _)
      · simpa [Node.fields] using ⟨hspan, hvalueSpan⟩
      · exact List.forall_mem_append.mpr ⟨Visit.sound_ofName hname, Node.Sound.walkAll hnodes⟩
  | .statements head body, o, item, h, hitem => by
      simp only [Token.spans, List.forall_mem_cons] at h
      obtain ⟨hspan, _, hbody⟩ := h
      simp only [complete, bind_eq_ok, pure_eq_ok] at hitem
      obtain ⟨b, hfeed, nodes, hfinish, rfl⟩ := hitem
      have hnodes := (feed_sound hok sound_empty hbody hfeed).finish_hi hok hfinish
      refine Node.sound_leaf rfl rfl trivial ?_ (List.forall_mem_singleton.mpr hnodes)
        (Node.Sound.walkAll hnodes) (Nat.le_refl _)
      exact List.forall_mem_singleton.mpr hspan
  | .rawTag tag body, o, item, h, hitem => by
      simp only [Token.spans, List.forall_mem_cons] at h
      obtain ⟨hspan, hopening, hclosing, hbodySpan, hbody⟩ := h
      simp only [complete, bind_eq_ok, pure_eq_ok] at hitem
      obtain ⟨b, hfeed, nodes, hfinish, rfl⟩ := hitem
      have hnodes := (feed_sound hok sound_empty hbody hfeed).finish_hi hok hfinish
      refine Node.sound_leaf rfl rfl trivial ?_ (List.forall_mem_singleton.mpr hnodes)
        (Node.Sound.walkAll hnodes) (Nat.le_refl _)
      simpa [Node.fields] using ⟨hspan, hopening, hclosing, hbodySpan⟩
  | .bareAttribute name span, o, item, h, hitem => by
      simp only [Token.spans, List.forall_mem_cons, List.forall_mem_map] at h
      cases hitem
      exact Node.sound_leaf rfl rfl trivial (List.forall_mem_singleton.mpr h.1) (List.forall_mem_nil _)
        (Visit.sound_ofName h.2) (Nat.le_refl _)
  | .elementClose name span, o, item, h, hitem => by
      simp only [Token.spans, List.forall_mem_cons, List.forall_mem_map] at h
      cases hitem
      exact h
  | .tag tag, o, item, h, hitem => by
      have hspan := List.forall_mem_singleton.mp h
      unfold complete at hitem
      split at hitem
      · rename_i hname
        cases hitem
        exact ⟨hspan, hname⟩
      · cases hitem
        exact Node.sound_leaf rfl rfl trivial h (List.forall_mem_nil _) (List.forall_mem_nil _) (Nat.le_refl _)
  | .tagOpen _, o, item, h, hitem | .tagClose _, o, item, h, hitem => by
      have hspan := List.forall_mem_singleton.mp h
      cases hitem
      exact hspan
  | .text _, o, item, h, hitem | .frontmatter .., o, item, h, hitem | .doctype .., o, item, h, hitem
  | .comment .., o, item, h, hitem | .output _, o, item, h, hitem | .docParam _, o, item, h, hitem
  | .docExample .., o, item, h, hitem | .docDescription .., o, item, h, hitem => by
      cases hitem
      exact Node.sound_leaf rfl rfl trivial h (List.forall_mem_nil _) (List.forall_mem_nil _) (Nat.le_refl _)

theorem feed_sound (hok : Span.Fits ok) :
    ∀ {ts : List Token} {o : Options} {b b' : Nesting}, b.Sound ok → (∀ s ∈ Token.spansAll ts, ok s) →
      feed o b ts = .ok b' → b'.Sound ok
  | [], o, b, b', h, hts, hfeed => by
      cases hfeed
      exact h
  | t :: ts, o, b, b', h, hts, hfeed => by
      rw [Token.spansAll, List.forall_mem_append] at hts
      rw [feed] at hfeed
      obtain ⟨item, hitem, hfeed⟩ := bind_eq_ok.mp hfeed
      obtain ⟨b₁, hstep, hfeed⟩ := bind_eq_ok.mp hfeed
      exact feed_sound hok (h.step hok (complete_sound hok hts.1 hitem) hstep) hts.2 hfeed

end

end Nesting

end LiquidTemplate
