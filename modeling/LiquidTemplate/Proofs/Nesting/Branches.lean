import LiquidTemplate.Node.Walk
import LiquidTemplate.Proofs.Nesting.Law
import LiquidTemplate.Proofs.Nesting.Soundness

namespace LiquidTemplate

def BranchesTile (lo hi : Nat) : List Branch → Prop
  | [] => lo = hi
  | b :: bs => b.span.lo = lo ∧ BranchesTile b.span.hi hi bs

/-- The branches of a tag fill what is between its opening and its closing. The first one has an empty
opening there, and each of them an empty closing at its end. -/
def Node.Tiled : Node → Prop
  | branched head first others closing =>
    first.head.span = .point head.span.hi ∧ BranchesTile head.span.hi closing.span.lo (first :: others) ∧
      ∀ b ∈ first :: others, b.head.span.lo = b.span.lo ∧ b.closing = .point b.span.hi
  | _ => True

theorem branchesTile_snoc {lo mid hi : Nat} {bs : List Branch} {b : Branch} (h : BranchesTile lo mid bs)
    (hlo : b.span.lo = mid) (hhi : b.span.hi = hi) : BranchesTile lo hi (bs ++ [b]) := by
  induction bs generalizing lo with
  | nil =>
      cases h
      exact ⟨hlo, hhi⟩
  | cons c bs ih => exact ⟨h.1, ih h.2⟩

namespace Frame

def Tiled : Frame → Prop
  | branched head closed current _ =>
    (∀ first ∈ (current :: closed.map Branch.head).getLast?, first.span = .point head.span.hi) ∧
      BranchesTile head.span.hi current.span.lo closed.reverse ∧ ∀ b ∈ closed, b.closing = .point b.span.hi
  | _ => True

theorem Tiled.add {f : Frame} (h : f.Tiled) (nodes : List Node) : (f.add nodes).Tiled := by
  cases f with
  | element | block | branched => exact h

/-- The open branch ends where the next one starts. -/
theorem Tiled.turn {head : TagHead} {closed : List Branch} {current next : BranchHead}
    {children children' : List Node} (h : (Frame.branched head closed current children).Tiled) :
    (Frame.branched head (.mk current children' (.point next.span.lo) :: closed) next []).Tiled := by
  obtain ⟨hfirst, htile, hclosings⟩ := h
  have hend := Branch.hi_span_mk current children' next.span
  refine ⟨by simpa [Branch.head] using hfirst, ?_, List.forall_mem_cons.mpr ⟨by rw [hend]; rfl, hclosings⟩⟩
  rw [List.reverse_cons]
  exact branchesTile_snoc htile (Branch.lo_span _) hend

theorem Tiled.close {f : Frame} (h : f.Tiled) (closing : Closing) : (f.close closing).Tiled := by
  cases f with
  | element | block => trivial
  | branched head closed current children =>
      obtain ⟨hfirst, htile, hclosings⟩ := h
      let last : Branch := .mk current children.reverse (.point closing.span.lo)
      obtain ⟨first, others, hgather⟩ : ∃ first others, gather last [] closed = (first, others) := ⟨_, _, rfl⟩
      have hall : first :: others = closed.reverse ++ [last] := by
        have hcons := gather_cons last [] closed
        rwa [hgather] at hcons
      have hhead : first.head ∈ (current :: closed.map Branch.head).getLast? := by
        have hmap := congrArg (List.map Branch.head) hall
        simp only [List.map_cons, List.map_append, List.map_reverse] at hmap
        rw [← List.head?_reverse, List.reverse_cons]
        exact (congrArg List.head? hmap).symm
      have hend : last.span.hi = closing.span.lo := Branch.hi_span_mk ..
      have hclosings : ∀ b ∈ first :: others, b.closing = .point b.span.hi := by
        rw [hall]
        simpa [or_imp, forall_and, hend] using ⟨hclosings, rfl⟩
      have hclose : Frame.close closing (.branched head closed current children) =
          .branched head first others closing := by
        rw [Frame.close, hgather]
      rw [hclose]
      refine ⟨hfirst _ hhead, ?_, ?_⟩
      · rw [hall]
        exact branchesTile_snoc htile (Branch.lo_span _) hend
      · exact fun b hb => ⟨b.lo_span.symm, hclosings b hb⟩

end Frame

def tilingLaw : Law where
  node := Node.Tiled
  part _ := True
  frame := Frame.Tiled
  left _ _ := True
  item _ := True

theorem kept_tilingLaw (o : Options) : tilingLaw.Kept o := by
  have hshut : ∀ {f : Frame} {nodes : List Node} {closing : Closing}, f.Tiled →
      ((f.add nodes).close closing).Tiled ∧ True := fun hf => ⟨(hf.add _).close _, trivial⟩
  constructor
  case simple =>
    intro n hn _ _
    cases n with
    | branched => cases hn
    | _ => exact ⟨trivial, trivial⟩
  case openElement => exact fun _ _ => trivial
  case openBlock => exact fun _ => trivial
  case openBranched =>
    intro head _
    refine ⟨by simp [Nesting.firstBranch], ?_, by simp⟩
    exact (Span.lo_between _ (Span.hi_lt _)).symm
  case add => exact fun hf _ => Frame.Tiled.add hf _
  case dangle => exact fun hf _ _ => ⟨trivial, Frame.Tiled.add hf _⟩
  case leave => exact fun hf _ _ => hshut hf
  case turn =>
    intro tag closed current children name head last hf _
    have htiled : (Frame.branched tag closed current children).Tiled := hf
    exact htiled.turn
  case closeElement => exact fun hf _ _ => ⟨Frame.Tiled.close hf _, trivial⟩
  case closeTag => exact fun hf _ _ _ => hshut hf
  case finish => exact fun _ hf _ => hshut hf

structure Branching where
  head : TagHead
  others : List BranchHead

def Visit.branching? : Visit → Option Branching
  | node (.branched head _ others _) => some ⟨head, others.map Branch.head⟩
  | _ => none

def nodeBranchings (nodes : List Node) : List Branching := (walkAll nodes).filterMap Visit.branching?

def Tag.branchHead (t : Tag) : BranchHead := ⟨some t.name, t.markup.fold, t.trim, t.span⟩

/-- The branches of a tag that are still to come, when the given number of tags is open in it: those
that are started while it is the innermost open tag, up to its closing. -/
def branchesAhead : Nat → List Token → List BranchHead
  | _, [] => []
  | k, .tagOpen _ :: ts => branchesAhead (k + 1) ts
  | 0, .tagClose _ :: _ => []
  | k + 1, .tagClose _ :: ts => branchesAhead k ts
  | 0, .tag t :: ts => if TagName.isBranch t.name then t.branchHead :: branchesAhead 0 ts else branchesAhead 0 ts
  | k, _ :: ts => branchesAhead k ts

def Token.opened (after : List Token) : Token → List Branching
  | .tagOpen t => if TagName.isBranching t.name then [⟨t.head, branchesAhead 0 after⟩] else []
  | _ => []

mutual

def Token.branchings : Token → List Branching
  | .rawElement _ attributes body => tokenBranchings attributes ++ tokenBranchings body
  | .voidElement _ attributes _ => tokenBranchings attributes
  | .selfClosing _ attributes _ => tokenBranchings attributes
  | .elementOpen _ attributes _ => tokenBranchings attributes
  | .valueAttribute _ _ value _ _ => tokenBranchings value
  | .statements _ body => tokenBranchings body
  | .rawTag _ body => tokenBranchings body
  | _ => []

def tokenBranchings : List Token → List Branching
  | [] => []
  | t :: ts => t.opened ts ++ t.branchings ++ tokenBranchings ts

end

@[simp]
theorem nodeBranchings_nil : nodeBranchings [] = [] := by
  simp [nodeBranchings, walkAll]

theorem nodeBranchings_cons (n : Node) (ns : List Node) :
    nodeBranchings (n :: ns) = n.walk.filterMap Visit.branching? ++ nodeBranchings ns := by
  simp [nodeBranchings, walkAll]

@[simp]
theorem nodeBranchings_append (xs ys : List Node) :
    nodeBranchings (xs ++ ys) = nodeBranchings xs ++ nodeBranchings ys := by
  induction xs with
  | nil => simp
  | cons x xs ih => simp [nodeBranchings_cons, ih]

@[simp]
theorem branching?_ofName (name : List Piece) : (Visit.ofName name).filterMap Visit.branching? = [] := by
  induction name with
  | nil => rfl
  | cons piece name ih =>
      have hpiece : Visit.branching? (.node (.ofPiece piece)) = none := by
        cases piece with
        | text | output => rfl
      simpa [Visit.ofName, hpiece] using ih

theorem filterMap_walkBranches (bs : List Branch) :
    (walkBranches bs).filterMap Visit.branching? = bs.flatMap fun b => nodeBranchings b.children := by
  induction bs with
  | nil => simp [walkBranches]
  | cons b bs ih =>
      obtain ⟨head, children, closing⟩ := b
      simp only [walkBranches, Branch.walk, List.cons_append, List.filterMap_cons, Visit.branching?,
        List.filterMap_append, ih, List.flatMap_cons]
      rfl

theorem nodeBranchings_element (name : List Piece) (attributes : List Node) (opening : Span)
    (children : List Node) (closing : Span) :
    nodeBranchings [.element name attributes opening children closing] =
      nodeBranchings attributes ++ nodeBranchings children := by
  simp [nodeBranchings, walkAll, Node.walk, List.filterMap_cons, Visit.branching?]

theorem nodeBranchings_block (head : TagHead) (children : List Node) (closing : Closing) :
    nodeBranchings [.block head children closing] = nodeBranchings children := by
  simp [nodeBranchings, walkAll, Node.walk, List.filterMap_cons, Visit.branching?]

theorem nodeBranchings_branched (head : TagHead) (first : Branch) (others : List Branch) (closing : Closing) :
    nodeBranchings [.branched head first others closing] = ⟨head, others.map Branch.head⟩ ::
      (first :: others).flatMap fun b => nodeBranchings b.children := by
  have hbranches := filterMap_walkBranches (first :: others)
  rw [walkBranches] at hbranches
  simp only [nodeBranchings, walkAll, Node.walk, List.append_nil, List.filterMap_cons, Visit.branching?]
  exact congrArg _ hbranches

namespace Frame

def branchings (ahead : List BranchHead) : Frame → List Branching
  | element _ attributes _ children => nodeBranchings attributes ++ nodeBranchings children.reverse
  | block _ children => nodeBranchings children.reverse
  | branched head closed current children =>
    ⟨head, (current :: closed.map Branch.head).reverse.tail ++ ahead⟩ ::
      (closed.reverse.flatMap (fun b => nodeBranchings b.children) ++ nodeBranchings children.reverse)

theorem branchings_add (ahead : List BranchHead) (nodes : List Node) (f : Frame) :
    (f.add nodes).branchings ahead = f.branchings ahead ++ nodeBranchings nodes.reverse := by
  cases f with
  | element | block | branched => simp [add, branchings]

theorem branchings_close (closing : Closing) (f : Frame) :
    nodeBranchings [f.close closing] = f.branchings [] := by
  cases f with
  | element name attributes opening children => exact nodeBranchings_element ..
  | block head children => exact nodeBranchings_block ..
  | branched head closed current children =>
      have hall := gather_cons (.mk current children.reverse (.point closing.span.lo)) [] closed
      have hothers := congrArg (fun bs => (bs.map Branch.head).tail) hall
      simp only [close, nodeBranchings_branched, hall, branchings]
      simp only [List.map_cons, List.tail_cons] at hothers
      simp [hothers, Branch.head, Branch.children]

theorem branchings_turn (ahead : List BranchHead) (head : TagHead) (closed : List Branch)
    (current next : BranchHead) (children : List Node) (closing : Span) :
    (branched head (.mk current children.reverse closing :: closed) next []).branchings ahead =
      (branched head closed current children).branchings (next :: ahead) := by
  have hothers : (next :: current :: closed.map Branch.head).reverse.tail ++ ahead =
      (current :: closed.map Branch.head).reverse.tail ++ next :: ahead := by
    rw [List.reverse_cons, List.tail_append_of_ne_nil (by simp), List.append_assoc, List.singleton_append]
  simp only [branchings, List.map_cons, Branch.head, hothers]
  simp [Branch.children]

theorem branchings_of_isElement {f : Frame} (hf : f.isElement) (ahead : List BranchHead) :
    f.branchings ahead = f.branchings [] := by
  cases f with
  | element => rfl
  | block | branched => cases hf

/-- The tags with branches in a stack of open constructs, outermost first. Given is what is still to come
of a tag by the number of tags that are open in it. -/
def stackBranchings (ahead : Nat → List BranchHead) : List Frame → List Branching
  | [] => []
  | f :: rest => stackBranchings (if f.isElement then ahead else fun k => ahead (k + 1)) rest ++ f.branchings (ahead 0)

theorem stackBranchings_element {f : Frame} (hf : f.isElement) (ahead : Nat → List BranchHead) (rest : List Frame) :
    stackBranchings ahead (f :: rest) = stackBranchings ahead rest ++ f.branchings [] := by
  rw [stackBranchings, if_pos hf, branchings_of_isElement hf]

theorem stackBranchings_closeElements (ahead : Nat → List BranchHead) (offset : Nat) (pending : List Node)
    (stack : List Frame) :
    stackBranchings ahead (closeElements offset pending stack).2 ++
        nodeBranchings (closeElements offset pending stack).1.reverse =
      stackBranchings ahead stack ++ nodeBranchings pending.reverse := by
  induction stack generalizing pending with
  | nil => rfl
  | cons f rest ih =>
      by_cases hf : f.isElement
      · rw [closeElements, if_pos hf, ih, List.reverse_singleton, branchings_close, branchings_add,
          stackBranchings_element hf, List.append_assoc]
      · rw [closeElements, if_neg hf]

theorem nodeBranchings_closeAll (offset : Nat) (pending : List Node) (stack : List Frame) :
    nodeBranchings (closeAll offset pending stack).reverse =
      stackBranchings (fun _ => []) stack ++ nodeBranchings pending.reverse := by
  induction stack generalizing pending with
  | nil => rfl
  | cons f rest ih =>
      rw [closeAll, ih, List.reverse_singleton, branchings_close, branchings_add, stackBranchings, ite_self,
        List.append_assoc]

end Frame

theorem nodeBranchings_simple {n : Node} (h : n.isSimple) :
    nodeBranchings [n] = n.regions.flatMap nodeBranchings := by
  cases n with
  | element | danglingClose | block | branched => cases h
  | _ => simp [nodeBranchings, walkAll, Node.walk, Node.regions, List.filterMap_cons, Visit.branching?]

theorem branchesAhead_leaf {t : Token} (h : t.isLeaf) (k : Nat) (ts : List Token) :
    branchesAhead k (t :: ts) = branchesAhead k ts := by
  cases t with
  | elementOpen | elementClose | tagOpen | tagClose => cases h
  | tag tag =>
      cases k with
      | zero =>
          have hname : TagName.isBranch tag.name = false := by simpa [Token.isLeaf] using h
          simp [branchesAhead, hname]
      | succ => rfl
  | _ =>
      cases k with
      | zero | succ => rfl

theorem Token.opened_leaf {t : Token} (h : t.isLeaf) (ts : List Token) : t.opened ts = [] := by
  cases t with
  | tagOpen => cases h
  | _ => rfl

namespace Nesting

def branchings (ahead : Nat → List BranchHead) (b : Nesting) : List Branching :=
  nodeBranchings b.roots.reverse ++ Frame.stackBranchings ahead b.stack

theorem branchings_add (ahead : Nat → List BranchHead) (nodes : List Node) (b : Nesting) :
    (b.add nodes).branchings ahead = b.branchings ahead ++ nodeBranchings nodes.reverse := by
  obtain ⟨roots, stack⟩ := b
  cases stack with
  | nil => simp [add, branchings, Frame.stackBranchings]
  | cons f rest =>
      have helement : (f.add nodes).isElement = f.isElement := by cases f <;> rfl
      simp [add, branchings, Frame.stackBranchings, Frame.branchings_add, helement]

end Nesting

namespace Item

def before (ahead : Nat → List BranchHead) : Item → Nat → List BranchHead
  | openTag _, k => ahead (k + 1)
  | openBranch name head, 0 => ⟨some name, head.markup, head.trim, head.span⟩ :: ahead 0
  | closeTag _, 0 => []
  | closeTag _, k + 1 => ahead k
  | _, k => ahead k

def branchings (ahead : Nat → List BranchHead) : Item → List Branching
  | leaf node => nodeBranchings [node]
  | openElement _ attributes _ => nodeBranchings attributes
  | openTag head => if TagName.isBranching head.name then [⟨head, ahead 0⟩] else []
  | _ => []

end Item

namespace Nesting

variable {b b' : Nesting} {ahead : Nat → List BranchHead}

theorem branchings_push (f : Frame) :
    branchings ahead ⟨b.roots, f :: b.stack⟩ =
      b.branchings (if f.isElement then ahead else fun k => ahead (k + 1)) ++ f.branchings (ahead 0) := by
  rw [branchings, branchings, Frame.stackBranchings, List.append_assoc]

theorem branchings_closeElement {mode : Mode} {name : List Piece} {span : Span}
    (h : b.closeElement mode name span = .ok b') : b'.branchings ahead = b.branchings ahead := by
  obtain ⟨f, rest, hstack, ⟨htop, rfl⟩ | ⟨_, rfl⟩⟩ := closeElement_ok h
  · have helement : f.isElement := by
      rw [hstack] at htop
      cases f with
      | element => rfl
      | block | branched => cases htop
    rw [branchings_add, List.reverse_singleton, Frame.branchings_close, branchings, branchings, hstack,
      Frame.stackBranchings_element helement, List.append_assoc]
  · rw [branchings_add, List.reverse_singleton]
    simp [nodeBranchings, walkAll, Node.walk, List.filterMap_cons, Visit.branching?]

theorem branchings_openTag {head : TagHead} (h : b.openTag head = .ok b') :
    b'.branchings ahead =
      b.branchings ((Item.openTag head).before ahead) ++ (Item.openTag head).branchings ahead := by
  rcases openTag_ok h with ⟨hname, _, rfl⟩ | ⟨hname, _, rfl⟩
  · rw [branchings_push, Item.branchings, hname]
    rfl
  · rw [branchings_push, Item.branchings, if_pos hname]
    rfl

theorem branchings_openBranch {name : String} {head : TagHead} (h : b.openBranch name head = .ok b') :
    b'.branchings ahead = b.branchings ((Item.openBranch name head).before ahead) := by
  obtain ⟨pending, tag, closed, current, children, rest, hclose, rfl⟩ := openBranch_ok h
  have hstack := Frame.stackBranchings_closeElements ((Item.openBranch name head).before ahead)
    head.span.lo [] b.stack
  rw [hclose] at hstack
  simp only [List.reverse_nil, nodeBranchings_nil, List.append_nil] at hstack
  rw [branchings, branchings, ← hstack, Frame.stackBranchings, Frame.branchings_turn, Frame.stackBranchings,
    List.append_assoc]
  exact congrArg _ (congrArg _ (Frame.branchings_add _ pending (.branched tag closed current children)))

theorem branchings_closeTag {close : TagClose} (h : b.closeTag close = .ok b') :
    b'.branchings ahead = b.branchings ((Item.closeTag close).before ahead) := by
  obtain ⟨pending, f, rest, hclose, hname, _, rfl⟩ := closeTag_ok h
  have htag : f.isElement = false := by
    cases f with
    | element => cases hname
    | block | branched => rfl
  -- nothing is still to come of the tag that is closed
  have hstack := Frame.stackBranchings_closeElements ((Item.closeTag close).before ahead)
    close.span.lo [] b.stack
  rw [hclose] at hstack
  simp only [List.reverse_nil, nodeBranchings_nil, List.append_nil] at hstack
  rw [branchings_add, List.reverse_singleton, Frame.branchings_close, Frame.branchings_add, branchings,
    branchings, ← hstack]
  simp [Frame.stackBranchings, htag, Item.before]

/-- A step adds the tag with branches that it opens, and meets one of those still to come. -/
theorem branchings_step {mode : Mode} {item : Item} (h : b.step mode item = .ok b') :
    b'.branchings ahead = b.branchings (item.before ahead) ++ item.branchings ahead := by
  cases item with
  | leaf node =>
      cases h
      exact branchings_add ahead [node] b
  | openElement name attributes span =>
      obtain ⟨_, rfl⟩ := openFrame_ok h
      rw [branchings_push, Frame.branchings, List.reverse_nil, nodeBranchings_nil, List.append_nil]
      rfl
  | closeElement name span =>
      rw [branchings_closeElement h]
      exact (List.append_nil _).symm
  | openTag head => exact branchings_openTag h
  | openBranch name head =>
      rw [branchings_openBranch h]
      exact (List.append_nil _).symm
  | closeTag close =>
      rw [branchings_closeTag h]
      exact (List.append_nil _).symm

theorem branchings_finish {o : Options} {stop : Nat} {nodes : List Node} (h : b.finish o stop = .ok nodes) :
    nodeBranchings nodes = b.branchings fun _ => [] := by
  obtain ⟨roots, stack⟩ := b
  unfold finish at h
  split at h
  · rename_i hstack
    cases h
    cases hstack
    exact (List.append_nil _).symm
  · split at h
    · cases h
      rw [List.reverse_append, nodeBranchings_append, Frame.nodeBranchings_closeAll]
      simp [branchings]
    · cases h

def ListsBranchings (t : Token) : Prop :=
  ∀ o item, complete o t = .ok item → ∀ after,
    item.before (branchesAhead · after) = (branchesAhead · (t :: after)) ∧
      item.branchings (branchesAhead · after) = t.opened after ++ t.branchings

theorem listsBranchings_of_nested {t : Token}
    (hnested : ∀ (o : Options) (stop : Nat) (ts : List Token) (nodes : List Node), ts ⊆ t.nested →
      Node.ofTokens o stop ts = .ok nodes → nodeBranchings nodes = tokenBranchings ts) :
    ListsBranchings t := by
  intro o item h ts
  have hregion : ∀ {o : Options} {stop : Nat} {us : List Token} {b : Nesting} {nodes : List Node},
      us ⊆ t.nested → feed o {} us = .ok b → b.finish o stop = .ok nodes →
      nodeBranchings nodes = tokenBranchings us := by
    intro o stop us b nodes hus hfeed hfinish
    exact hnested o stop us nodes hus (bind_eq_ok.mpr ⟨b, hfeed, hfinish⟩)
  have hleaf : ∀ {n : Node}, t.isLeaf → n.isSimple → n.regions.flatMap nodeBranchings = t.branchings →
      (Item.leaf n).before (branchesAhead · ts) = (branchesAhead · (t :: ts)) ∧
        (Item.leaf n).branchings (branchesAhead · ts) = t.opened ts ++ t.branchings := by
    intro n ht hn hregions
    refine ⟨funext fun k => (branchesAhead_leaf ht k ts).symm, ?_⟩
    rw [Item.branchings, nodeBranchings_simple hn, hregions, Token.opened_leaf ht, List.nil_append]
  cases t with
  | rawElement e attributes body =>
      simp only [complete, bind_eq_ok, pure_eq_ok] at h
      obtain ⟨b, hfeed, nodes, hfinish, b', hfeed', nodes', hfinish', rfl⟩ := h
      apply hleaf rfl rfl
      have hattributes := hregion (List.subset_append_left _ _) hfeed hfinish
      have hbody := hregion (List.subset_append_right _ _) hfeed' hfinish'
      simp [Node.regions, Token.branchings, hattributes, hbody]
  | voidElement | selfClosing | valueAttribute | statements | rawTag =>
      simp only [complete, bind_eq_ok, pure_eq_ok] at h
      obtain ⟨b, hfeed, nodes, hfinish, rfl⟩ := h
      apply hleaf rfl rfl
      simp [Node.regions, Token.branchings, hregion (List.Subset.refl _) hfeed hfinish, Token.nested]
  | elementOpen name attributes span =>
      simp only [complete, bind_eq_ok, pure_eq_ok] at h
      obtain ⟨b, hfeed, nodes, hfinish, rfl⟩ := h
      refine ⟨?_, ?_⟩
      · funext k
        cases k with
        | zero | succ => rfl
      · exact hregion (List.Subset.refl _) hfeed hfinish
  | tag tag =>
      unfold complete at h
      split at h
      · rename_i hname
        cases h
        refine ⟨?_, rfl⟩
        funext k
        cases k with
        | zero => simp [Item.before, branchesAhead, hname, Tag.branchHead, Tag.head]
        | succ => rfl
      · rename_i hname
        cases h
        exact hleaf (by simpa [Token.isLeaf] using hname) rfl rfl
  | elementClose | tagClose =>
      cases h
      refine ⟨?_, rfl⟩
      funext k
      cases k with
      | zero | succ => rfl
  | tagOpen tag =>
      cases h
      refine ⟨?_, (List.append_nil _).symm⟩
      funext k
      cases k with
      | zero | succ => rfl
  | _ =>
      cases h
      exact hleaf rfl rfl rfl

theorem branchings_feed {o : Options} {ts : List Token}
    (hts : ∀ t ∈ ts, ListsBranchings t) (h : feed o b ts = .ok b') :
    (b'.branchings fun _ => []) = b.branchings (branchesAhead · ts) ++ tokenBranchings ts := by
  induction ts generalizing b with
  | nil =>
      cases h
      simp [branchesAhead, tokenBranchings]
  | cons t ts ih =>
      obtain ⟨ht, hts⟩ := List.forall_mem_cons.mp hts
      rw [feed] at h
      obtain ⟨item, hitem, h⟩ := bind_eq_ok.mp h
      obtain ⟨b₁, hstep, h⟩ := bind_eq_ok.mp h
      obtain ⟨hbefore, hopened⟩ := ht o item hitem ts
      rw [ih hts h, branchings_step hstep, hbefore, hopened, tokenBranchings, List.append_assoc]

theorem listed_of_tokens {o : Options} {stop : Nat} {ts : List Token} {nodes : List Node}
    (hts : ∀ t ∈ ts, ListsBranchings t) (h : Node.ofTokens o stop ts = .ok nodes) :
    nodeBranchings nodes = tokenBranchings ts := by
  obtain ⟨b, hfeed, hfinish⟩ := bind_eq_ok.mp h
  rw [branchings_finish hfinish, branchings_feed hts hfeed]
  simp [branchings, Frame.stackBranchings]

theorem listsBranchings (t : Token) : ListsBranchings t := by
  -- by induction on what is nested in the token
  have hall : t.All fun _ => True := Token.all_of_forall (fun _ => trivial) t
  induction hall with
  | mk _ _ ih =>
      apply listsBranchings_of_nested
      intro o stop ts nodes hts hnodes
      exact listed_of_tokens (fun u hu => ih u (hts hu)) hnodes

end Nesting

/-- The branches of every tag fill its body without a gap. The tags with branches are those that the
tokens open, and the branches of each are those that are started while it is the innermost open tag. -/
theorem Node.tiled_ofTokens {o : Options} {stop : Nat} {ts : List Token} {nodes : List Node}
    (h : ofTokens o stop ts = .ok nodes) :
    (∀ n ∈ nodes, n.All Tiled) ∧ nodeBranchings nodes = tokenBranchings ts := by
  constructor
  · intro n hn
    have hobeys := obeys_of_forall (fun _ => True) (fun o _ => kept_tilingLaw o) trivial (fun _ => trivial)
      trivial h n hn
    exact hobeys.all
  · exact Nesting.listed_of_tokens (fun t _ => Nesting.listsBranchings t) h

def nestedChoice : List Token :=
  [.tagOpen ⟨"case", .text "a", .between 8 9, {}, .between 0 12⟩,
   .tag ⟨"when", .text "1", .between 20 21, {}, .between 12 24⟩,
   .tagOpen ⟨"if", .text "b", .between 30 31, {}, .between 24 34⟩,
   .tag ⟨"else", .text "", .point 41, {}, .between 34 44⟩,
   .tagClose ⟨"if", {}, .between 44 55⟩,
   .tag ⟨"else", .text "", .point 62, {}, .between 55 65⟩,
   .tagClose ⟨"case", {}, .between 65 78⟩]

theorem Node.tiled_nestedChoice : ∃ nodes, ofTokens {} 78 nestedChoice = .ok nodes ∧
    (∀ n ∈ nodes, n.All Tiled) ∧ nodeBranchings nodes =
      [⟨⟨"case", .text "a", {}, .between 0 12⟩,
        [⟨some "when", .text "1", {}, .between 12 24⟩, ⟨some "else", .text "", {}, .between 55 65⟩]⟩,
       ⟨⟨"if", .text "b", {}, .between 24 34⟩, [⟨some "else", .text "", {}, .between 34 44⟩]⟩] := by
  obtain ⟨nodes, h⟩ : ∃ nodes, ofTokens {} 78 nestedChoice = .ok nodes := ⟨_, rfl⟩
  obtain ⟨htiled, hlisted⟩ := tiled_ofTokens h
  exact ⟨nodes, h, htiled, hlisted⟩

end LiquidTemplate
