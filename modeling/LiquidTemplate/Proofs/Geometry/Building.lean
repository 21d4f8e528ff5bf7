import LiquidTemplate.Proofs.Geometry.Tree
import LiquidTemplate.Proofs.Nesting.Listing

namespace LiquidTemplate

open Text

variable {text : List Char} {lo pos hi : Nat}

namespace Frame

def opening : Frame → Span
  | element _ _ opening _ => opening
  | block head _ => head.span
  | branched head .. => head.span

@[simp]
theorem opening_add (f : Frame) (nodes : List Node) : (f.add nodes).opening = f.opening := by
  cases f <;> rfl

def Placed (text : List Char) (pos : Nat) : Frame → Prop
  | element name attributes opening children =>
    Span.Row text opening.lo opening.hi (name.map Piece.span) ∧
      NodesIn text opening.lo opening.hi attributes ∧ NodesIn text opening.hi pos children.reverse
  | block head children => NodesIn text head.span.hi pos children.reverse
  | branched head closed current children =>
    BranchesIn text head.span.hi current.span.lo closed.reverse ∧
      current.span.Inside text head.span.hi pos ∧ NodesIn text current.span.hi pos children.reverse

theorem Placed.le {f : Frame} (h : f.Placed text pos) : f.opening.hi ≤ pos := by
  cases f with
  | element => exact h.2.2.le
  | block => exact NodesIn.le h
  | branched =>
      obtain ⟨_, hcurrent, _⟩ := h
      exact Nat.le_trans hcurrent.le_lo (Nat.le_trans hcurrent.lo_le_hi hcurrent.hi_le)

theorem Placed.add {f : Frame} (h : f.Placed text pos) {nodes : List Node}
    (hnodes : NodesIn text pos hi nodes.reverse) : (f.add nodes).Placed text hi := by
  cases f with
  | element name attributes opening children =>
      obtain ⟨hname, hattributes, hchildren⟩ := h
      refine ⟨hname, hattributes, ?_⟩
      rw [List.reverse_append]
      exact hchildren.append hnodes
  | block head children =>
      change NodesIn text head.span.hi hi (nodes ++ children).reverse
      rw [List.reverse_append]
      exact NodesIn.append h hnodes
  | branched head closed current children =>
      obtain ⟨hclosed, hcurrent, hchildren⟩ := h
      refine ⟨hclosed, hcurrent.weaken hcurrent.le_lo (Nat.le_trans hcurrent.hi_le hnodes.le), ?_⟩
      rw [List.reverse_append]
      exact hchildren.append hnodes

end Frame

theorem Branch.placed_mk (htext : byteLength text < Span.limit) {head : BranchHead}
    {children : List Node} {stop : Nat} (hhead : head.span.Inside text lo pos)
    (hchildren : NodesIn text head.span.hi pos children) (hle : pos ≤ stop)
    (hstop : Boundary text stop) :
    (Branch.mk head children (.point stop)).span.Inside text head.span.lo stop ∧
      (Branch.mk head children (.point stop)).Placed text := by
  have hlo := Span.lo_point htext hstop
  have hhi := Span.hi_point htext hstop
  have hend : head.span.hi ≤ stop := Nat.le_trans hhead.hi_le hle
  have hpoint := Span.inside_point htext hstop
  have hblock := Block.placed_between htext (hhead.weaken (Nat.zero_le _) hhead.boundary_hi.le)
    (hpoint.weaken (by rw [hlo]; exact hend) hpoint.boundary_hi.le)
  constructor
  · rw [Branch.span, Branch.stop, Branch.closing, hhi]
    exact Span.inside_between htext (Nat.le_trans hhead.lo_le_hi hend) hhead.boundary_lo hstop
  · rw [Branch.Placed, hlo]
    exact ⟨hblock, by rw [hhi], hchildren.weaken_hi hle⟩

namespace Frame

/-- The last branch of a tag ends where the closing starts. -/
theorem branchesIn_close (htext : byteLength text < Span.limit) {head : TagHead}
    {closed : List Branch} {current : BranchHead} {children : List Node} {stop : Nat}
    (h : (branched head closed current children).Placed text pos) (hle : pos ≤ stop)
    (hstop : Boundary text stop) :
    BranchesIn text head.span.hi stop
      (closed.reverse ++ [.mk current children.reverse (.point stop)]) := by
  obtain ⟨hclosed, hcurrent, hchildren⟩ := h
  obtain ⟨hspan, hparts⟩ := Branch.placed_mk htext hcurrent hchildren hle hstop
  exact hclosed.snoc hspan hparts

theorem nodesIn_close (htext : byteLength text < Span.limit) {f : Frame} {closing : Closing}
    (hopening : f.opening.Inside text lo pos) (hlt : f.opening.lo < f.opening.hi)
    (h : f.Placed text pos) (hclosing : closing.span.Inside text pos hi) :
    NodesIn text f.opening.lo closing.span.hi [f.close closing] := by
  have hend : f.opening.hi ≤ closing.span.lo := Nat.le_trans h.le hclosing.le_lo
  have hblock : Block.Placed text
      ⟨.between f.opening.lo closing.span.hi, f.opening, closing.span⟩ :=
    Block.placed_between htext (hopening.weaken (Nat.zero_le _) hopening.boundary_hi.le)
      (hclosing.weaken hend hclosing.boundary_hi.le)
  have hspan : (f.close closing).span = .between f.opening.lo closing.span.hi := by
    cases f <;> rfl
  have hlo := hblock.lo_eq
  have hhi := hblock.hi_eq
  refine nodesIn_singleton ?_ ?_ ?_
  · rw [hspan]
    exact hblock.span.weaken (Nat.le_of_eq hlo) (Nat.le_of_eq hhi.symm)
  · rw [hspan]
    exact Nat.lt_of_lt_of_le (by rw [← hlo]; exact hlt) hblock.opening.hi_le
  · cases f with
    | element name attributes opening children =>
        obtain ⟨hname, hattributes, hchildren⟩ := h
        rw [Frame.close, Node.Placed]
        exact ⟨hblock, hname, hattributes, hchildren.weaken_hi hclosing.le_lo⟩
    | block head children =>
        rw [Frame.close, Node.Placed]
        exact ⟨hblock, NodesIn.weaken_hi h hclosing.le_lo⟩
    | branched head closed current children =>
        have hbranches := branchesIn_close htext h hclosing.le_lo hclosing.boundary_lo
        rw [← gather_cons _ [] closed, BranchesIn] at hbranches
        rw [Frame.close, Node.Placed]
        exact ⟨hblock, hbranches⟩

theorem nodesIn_close_add (htext : byteLength text < Span.limit) {f : Frame} {pending : List Node}
    {closing : Closing} {mid : Nat} (hopening : f.opening.Inside text lo pos)
    (hlt : f.opening.lo < f.opening.hi) (h : f.Placed text pos)
    (hpending : NodesIn text pos mid pending.reverse)
    (hclosing : closing.span.Inside text mid hi) :
    NodesIn text f.opening.lo closing.span.hi [(f.add pending).close closing].reverse := by
  have hopening' : (f.add pending).opening.Inside text lo mid := by
    rw [opening_add]
    exact hopening.weaken hopening.le_lo (Nat.le_trans hopening.hi_le hpending.le)
  have hlt' : (f.add pending).opening.lo < (f.add pending).opening.hi := by
    rwa [opening_add]
  have hnode := nodesIn_close htext hopening' hlt' (h.add hpending) hclosing
  rwa [opening_add] at hnode

/-- A construct that is closed by implication at an offset is a node up to there. -/
theorem nodesIn_implied (htext : byteLength text < Span.limit) {f : Frame} {pending : List Node}
    (hopening : f.opening.Inside text lo pos) (hlt : f.opening.lo < f.opening.hi)
    (h : f.Placed text pos) (hpending : NodesIn text pos hi pending.reverse)
    (hhi : Boundary text hi) :
    NodesIn text f.opening.lo hi [(f.add pending).close (implied hi)].reverse := by
  have hclosing : (implied hi).span.Inside text hi hi := Span.inside_point htext hhi
  exact (nodesIn_close_add htext hopening hlt h hpending hclosing).weaken_hi hclosing.hi_le

end Frame

/-- The finished nodes and the open constructs lie in order up to the offset `pos`: what is in a
construct ends where the one inside it starts. -/
def StackIn (text : List Char) (lo : Nat) (roots : List Node) : Nat → List Frame → Prop
  | pos, [] => NodesIn text lo pos roots.reverse
  | pos, f :: rest =>
    f.opening.Inside text lo pos ∧ f.opening.lo < f.opening.hi ∧ f.Placed text pos ∧
      StackIn text lo roots f.opening.lo rest

theorem closeElements_in (htext : byteLength text < Span.limit) {roots : List Node}
    {stack : List Frame} {pending : List Node} (h : StackIn text lo roots pos stack)
    (hpending : NodesIn text pos hi pending.reverse) (hhi : Boundary text hi) :
    ∃ mid, StackIn text lo roots mid (Frame.closeElements hi pending stack).2 ∧
      NodesIn text mid hi (Frame.closeElements hi pending stack).1.reverse := by
  induction stack generalizing pos pending with
  | nil => exact ⟨pos, h, hpending⟩
  | cons f rest ih =>
      by_cases hf : f.isElement
      · obtain ⟨hopening, hlt, hparts, hrest⟩ := h
        rw [Frame.closeElements, if_pos hf]
        exact ih hrest (Frame.nodesIn_implied htext hopening hlt hparts hpending hhi)
      · rw [Frame.closeElements, if_neg hf]
        exact ⟨pos, h, hpending⟩

theorem closeAll_in (htext : byteLength text < Span.limit) {roots : List Node}
    {stack : List Frame} {pending : List Node} (h : StackIn text lo roots pos stack)
    (hpending : NodesIn text pos hi pending.reverse) (hhi : Boundary text hi) :
    NodesIn text lo hi (Frame.closeAll hi pending stack ++ roots).reverse := by
  induction stack generalizing pos pending with
  | nil =>
      rw [Frame.closeAll, List.reverse_append]
      exact NodesIn.append h hpending
  | cons f rest ih =>
      obtain ⟨hopening, hlt, hparts, hrest⟩ := h
      rw [Frame.closeAll]
      exact ih hrest (Frame.nodesIn_implied htext hopening hlt hparts hpending hhi)

namespace Item

def Placed (text : List Char) : Item → Prop
  | leaf node => node.Placed text
  | openElement name attributes span =>
    Span.Row text span.lo span.hi (name.map Piece.span) ∧ NodesIn text span.lo span.hi attributes
  | closeElement name span => Span.Row text span.lo span.hi (name.map Piece.span)
  | _ => True

end Item

namespace Nesting

def In (text : List Char) (lo pos : Nat) (b : Nesting) : Prop := StackIn text lo b.roots pos b.stack

theorem In.add {b : Nesting} (h : b.In text lo pos) {nodes : List Node}
    (hnodes : NodesIn text pos hi nodes.reverse) : (b.add nodes).In text lo hi := by
  obtain ⟨roots, stack⟩ := b
  cases stack with
  | nil =>
      change NodesIn text lo hi (nodes ++ roots).reverse
      rw [List.reverse_append]
      exact NodesIn.append h hnodes
  | cons f rest =>
      obtain ⟨hopening, hlt, hparts, hrest⟩ := h
      refine ⟨?_, ?_, hparts.add hnodes, ?_⟩
      · rw [Frame.opening_add]
        exact hopening.weaken hopening.le_lo (Nat.le_trans hopening.hi_le hnodes.le)
      · rwa [Frame.opening_add]
      · rwa [Frame.opening_add]

theorem In.weaken {b : Nesting} (h : b.In text lo pos) (hle : pos ≤ hi) : b.In text lo hi := by
  have hnone : NodesIn text pos hi ([] : List Node).reverse := nodesIn_nil hle
  have hadd := h.add hnone
  rwa [add_nil] at hadd

theorem In.le {b : Nesting} (h : b.In text lo pos) : lo ≤ pos := by
  obtain ⟨roots, stack⟩ := b
  cases stack with
  | nil => exact NodesIn.le h
  | cons f rest => exact Nat.le_trans h.1.le_lo (Nat.le_trans h.1.lo_le_hi h.1.hi_le)

/-- A construct may be opened after what was taken so far. -/
theorem In.openFrame {b : Nesting} (h : b.In text lo pos) {f : Frame}
    (hopening : f.opening.Inside text pos hi) (hlt : f.opening.lo < f.opening.hi)
    (hparts : f.Placed text f.opening.hi) :
    Nesting.In text lo f.opening.hi ⟨b.roots, f :: b.stack⟩ :=
  ⟨hopening.weaken (Nat.le_trans h.le hopening.le_lo) (Nat.le_refl _), hlt, hparts,
    h.weaken hopening.le_lo⟩

theorem In.openTag {b b' : Nesting} {head : TagHead} (h : b.In text lo pos)
    (hspan : head.span.Inside text pos hi) (hlt : head.span.lo < head.span.hi)
    (htext : byteLength text < Span.limit) (hopen : b.openTag head = .ok b') :
    b'.In text lo head.span.hi := by
  rcases openTag_ok hopen with ⟨_, _, rfl⟩ | ⟨_, _, rfl⟩
  · have hnone : NodesIn text head.span.hi head.span.hi [] := nodesIn_nil (Nat.le_refl _)
    have hparts : (Frame.block head []).Placed text head.span.hi := hnone
    exact h.openFrame hspan hlt hparts
  · have hfirst : (firstBranch head.span).span.Inside text head.span.hi head.span.hi :=
      Span.inside_point htext hspan.boundary_hi
    have hparts : (Frame.branched head [] (firstBranch head.span) []).Placed text head.span.hi :=
      ⟨branchesIn_nil hfirst.le_lo, hfirst, nodesIn_nil hfirst.hi_le⟩
    exact h.openFrame hspan hlt hparts

/-- Closing elements by implication leaves the frame below them, and nodes for it. -/
theorem In.closeElements {b : Nesting} {span : Span} {pending : List Node} {f : Frame}
    {rest : List Frame} (h : b.In text lo pos) (hspan : span.Inside text pos hi)
    (htext : byteLength text < Span.limit)
    (hclose : Frame.closeElements span.lo [] b.stack = (pending, f :: rest)) :
    ∃ mid, NodesIn text mid span.lo pending.reverse ∧ StackIn text lo b.roots mid (f :: rest) := by
  have hnone : NodesIn text pos span.lo ([] : List Node).reverse := nodesIn_nil hspan.le_lo
  obtain ⟨mid, hstack, hpending⟩ := closeElements_in htext h hnone hspan.boundary_lo
  rw [hclose] at hstack hpending
  exact ⟨mid, hpending, hstack⟩

theorem In.openBranch {b b' : Nesting} {name : String} {head : TagHead} (h : b.In text lo pos)
    (hspan : head.span.Inside text pos hi) (htext : byteLength text < Span.limit)
    (hopen : b.openBranch name head = .ok b') : b'.In text lo head.span.hi := by
  obtain ⟨pending, tag, closed, current, children, rest, hclose, rfl⟩ := openBranch_ok hopen
  obtain ⟨mid, hpending, htag, hlt, hparts, hrest⟩ := h.closeElements hspan htext hclose
  have hdone := Frame.branchesIn_close htext (hparts.add hpending) (Nat.le_refl _) hspan.boundary_lo
  have hafter : tag.span.hi ≤ head.span.lo := Nat.le_trans hparts.le hpending.le
  refine ⟨htag.weaken htag.le_lo (Nat.le_trans hafter hspan.lo_le_hi), hlt, ⟨?_, ?_, ?_⟩, hrest⟩
  · rw [List.reverse_cons]
    exact hdone
  · exact hspan.weaken hafter (Nat.le_refl _)
  · exact nodesIn_nil (Nat.le_refl _)

theorem In.closeTag {b b' : Nesting} {close : TagClose} (h : b.In text lo pos)
    (hspan : close.span.Inside text pos hi) (htext : byteLength text < Span.limit)
    (hclose : b.closeTag close = .ok b') : b'.In text lo close.span.hi := by
  obtain ⟨pending, f, rest, hstack, _, _, rfl⟩ := closeTag_ok hclose
  obtain ⟨mid, hpending, hopening, hlt, hparts, hrest⟩ := h.closeElements hspan htext hstack
  have hclosing : (Closing.mk close.trim close.span).span.Inside text close.span.lo hi :=
    hspan.weaken (Nat.le_refl _) hspan.hi_le
  have hbelow : Nesting.In text lo f.opening.lo ⟨b.roots, rest⟩ := hrest
  exact hbelow.add (Frame.nodesIn_close_add htext hopening hlt hparts hpending hclosing)

theorem In.closeElement {mode : Mode} {b b' : Nesting} {name : List Piece} {span : Span}
    (h : b.In text lo pos) (hspan : span.Inside text pos hi) (hlt : span.lo < span.hi)
    (hname : Span.Row text span.lo span.hi (name.map Piece.span))
    (htext : byteLength text < Span.limit) (hclose : b.closeElement mode name span = .ok b') :
    b'.In text lo span.hi := by
  obtain ⟨f, rest, hstack, ⟨_, rfl⟩ | ⟨_, rfl⟩⟩ := closeElement_ok hclose
  · unfold In at h
    rw [hstack] at h
    obtain ⟨hopening, hlt', hparts, hrest⟩ := h
    have hclosing : (Closing.mk {} span).span.Inside text pos hi := hspan
    have hbelow : Nesting.In text lo f.opening.lo ⟨b.roots, rest⟩ := hrest
    exact hbelow.add (Frame.nodesIn_close htext hopening hlt' hparts hclosing)
  · have hnode : (Node.danglingClose name span).Placed text := by
      rw [Node.Placed]
      exact hname
    exact h.add (nodesIn_singleton (hspan.weaken hspan.le_lo (Nat.le_refl _)) hlt hnode)

/-- One step moves the end of what was taken to the end of the token. -/
theorem In.step {mode : Mode} {b b' : Nesting} {item : Item} (h : b.In text lo pos)
    (hspan : item.span.Inside text pos hi) (hlt : item.span.lo < item.span.hi)
    (hparts : item.Placed text) (htext : byteLength text < Span.limit)
    (hstep : b.step mode item = .ok b') : b'.In text lo item.span.hi := by
  cases item with
  | leaf node =>
      cases hstep
      exact h.add (nodesIn_singleton (hspan.weaken hspan.le_lo (Nat.le_refl _)) hlt hparts)
  | openElement name attributes span =>
      obtain ⟨_, rfl⟩ := openFrame_ok hstep
      have hframe : (Frame.element name attributes span []).Placed text span.hi :=
        ⟨hparts.1, hparts.2, nodesIn_nil (Nat.le_refl _)⟩
      exact h.openFrame hspan hlt hframe
  | closeElement name span => exact h.closeElement hspan hlt hparts htext hstep
  | openTag head => exact h.openTag hspan hlt htext hstep
  | openBranch name head => exact h.openBranch hspan htext hstep
  | closeTag close => exact h.closeTag hspan htext hstep

theorem In.finish {o : Options} {b : Nesting} {stop : Nat} {nodes : List Node}
    (h : b.In text lo stop) (hstop : Boundary text stop) (htext : byteLength text < Span.limit)
    (hfinish : b.finish o stop = .ok nodes) : NodesIn text lo stop nodes := by
  have hin : StackIn text lo b.roots stop b.stack := h
  unfold Nesting.finish at hfinish
  split at hfinish
  · rename_i hstack
    cases hfinish
    rwa [hstack] at hin
  · split at hfinish
    · cases hfinish
      exact closeAll_in htext hin (nodesIn_nil (Nat.le_refl _)) hstop
    · cases hfinish

theorem in_empty (text : List Char) (lo : Nat) : ({} : Nesting).In text lo lo := by
  have hnone : NodesIn text lo lo [] := nodesIn_nil (Nat.le_refl lo)
  exact hnone

mutual

/-- A token that lies where it should is completed to one that does. -/
theorem complete_placed (htext : byteLength text < Span.limit) :
    ∀ {t : Token} {o : Options} {item : Item} {lo hi : Nat}, t.span.Inside text lo hi →
      t.Placed text → complete o t = .ok item → item.Placed text
  | .rawElement e attributes body, o, item, lo, hi, hspan, h, hitem => by
      rw [Token.Placed] at h
      obtain ⟨hblock, hname, hattributes, hbodySpan, hbody⟩ := h
      simp only [complete, bind_eq_ok, pure_eq_ok] at hitem
      obtain ⟨b, hfeed, nodes, hfinish, b', hfeed', nodes', hfinish', rfl⟩ := hitem
      have hnodes :=
        (feed_in htext (in_empty text _) hattributes hfeed).finish hblock.opening.boundary_hi htext hfinish
      have hnodes' := (feed_in htext (in_empty text _) hbody hfeed').finish hbodySpan.boundary_hi htext hfinish'
      rw [Item.Placed, Node.Placed]
      exact ⟨hblock, hname, hnodes, hbodySpan, hnodes'⟩
  | .voidElement name attributes span, o, item, lo, hi, hspan, h, hitem => by
      rw [Token.Placed] at h
      simp only [complete, bind_eq_ok, pure_eq_ok] at hitem
      obtain ⟨b, hfeed, nodes, hfinish, rfl⟩ := hitem
      have hnodes := (feed_in htext (in_empty text _) h.2 hfeed).finish hspan.boundary_hi htext hfinish
      rw [Item.Placed, Node.Placed]
      exact ⟨h.1, hnodes⟩
  | .selfClosing name attributes span, o, item, lo, hi, hspan, h, hitem => by
      rw [Token.Placed] at h
      simp only [complete, bind_eq_ok, pure_eq_ok] at hitem
      obtain ⟨b, hfeed, nodes, hfinish, rfl⟩ := hitem
      have hnodes := (feed_in htext (in_empty text _) h.2 hfeed).finish hspan.boundary_hi htext hfinish
      rw [Item.Placed, Node.Placed]
      exact ⟨h.1, hnodes⟩
  | .elementOpen name attributes span, o, item, lo, hi, hspan, h, hitem => by
      rw [Token.Placed] at h
      simp only [complete, bind_eq_ok, pure_eq_ok] at hitem
      obtain ⟨b, hfeed, nodes, hfinish, rfl⟩ := hitem
      exact ⟨h.1,
        (feed_in htext (in_empty text _) h.2 hfeed).finish hspan.boundary_hi htext hfinish⟩
  | .valueAttribute quotes name value valueSpan span, o, item, lo, hi, hspan, h, hitem => by
      rw [Token.Placed] at h
      obtain ⟨hname, hvalueSpan, hvalue⟩ := h
      simp only [complete, bind_eq_ok, pure_eq_ok] at hitem
      obtain ⟨b, hfeed, nodes, hfinish, rfl⟩ := hitem
      have hnodes := (feed_in htext (in_empty text _) hvalue hfeed).finish hvalueSpan.boundary_hi htext hfinish
      rw [Item.Placed, Node.Placed]
      exact ⟨hname, hvalueSpan, hnodes⟩
  | .statements head body, o, item, lo, hi, hspan, h, hitem => by
      rw [Token.Placed] at h
      obtain ⟨hmarkup, hbody⟩ := h
      simp only [complete, bind_eq_ok, pure_eq_ok] at hitem
      obtain ⟨b, hfeed, nodes, hfinish, rfl⟩ := hitem
      have hnodes := (feed_in htext (in_empty text _) hbody hfeed).finish hmarkup.boundary_hi htext hfinish
      rw [Item.Placed, Node.Placed]
      exact (hnodes.weaken_lo hmarkup.le_lo).weaken_hi hmarkup.hi_le
  | .rawTag tag body, o, item, lo, hi, hspan, h, hitem => by
      rw [Token.Placed] at h
      obtain ⟨hblock, hbodySpan, hbody⟩ := h
      simp only [complete, bind_eq_ok, pure_eq_ok] at hitem
      obtain ⟨b, hfeed, nodes, hfinish, rfl⟩ := hitem
      have hnodes := (feed_in htext (in_empty text _) hbody hfeed).finish hbodySpan.boundary_hi htext hfinish
      rw [Item.Placed, Node.Placed]
      exact ⟨hblock, hbodySpan, hnodes⟩
  | .tag tag, o, item, lo, hi, hspan, h, hitem => by
      unfold complete at hitem
      split at hitem <;> cases hitem <;> simp [Item.Placed, Node.Placed]
  | .elementClose name span, o, item, lo, hi, hspan, h, hitem => by
      cases hitem
      rw [Token.Placed] at h
      exact h
  | .bareAttribute name span, o, item, lo, hi, hspan, h, hitem => by
      cases hitem
      rw [Token.Placed] at h
      rw [Item.Placed, Node.Placed]
      exact h
  | .text _, o, item, lo, hi, hspan, h, hitem | .frontmatter .., o, item, lo, hi, hspan, h, hitem
  | .doctype .., o, item, lo, hi, hspan, h, hitem | .comment .., o, item, lo, hi, hspan, h, hitem
  | .output _, o, item, lo, hi, hspan, h, hitem | .tagOpen _, o, item, lo, hi, hspan, h, hitem
  | .tagClose _, o, item, lo, hi, hspan, h, hitem | .docParam _, o, item, lo, hi, hspan, h, hitem
  | .docExample .., o, item, lo, hi, hspan, h, hitem
  | .docDescription .., o, item, lo, hi, hspan, h, hitem => by
      cases hitem
      simp [Item.Placed, Node.Placed]

theorem feed_in (htext : byteLength text < Span.limit) :
    ∀ {ts : List Token} {o : Options} {b b' : Nesting} {lo pos hi : Nat}, b.In text lo pos →
      TokensIn text pos hi ts → feed o b ts = .ok b' → b'.In text lo hi
  | [], o, b, b', lo, pos, hi, h, hts, hfeed => by
      cases hfeed
      rw [TokensIn] at hts
      exact h.weaken hts
  | t :: ts, o, b, b', lo, pos, hi, h, hts, hfeed => by
      rw [TokensIn] at hts
      obtain ⟨hspan, hlt, hparts, hrest⟩ := hts
      rw [feed] at hfeed
      obtain ⟨item, hitem, hfeed⟩ := bind_eq_ok.mp hfeed
      obtain ⟨b₁, hstep, hfeed⟩ := bind_eq_ok.mp hfeed
      have hplaced := complete_placed htext hspan hparts hitem
      have hsame : item.span = t.span := (complete_span hitem).2
      have hin : b₁.In text lo item.span.hi := by
        rw [← hsame] at hspan hlt
        exact h.step hspan hlt hplaced htext hstep
      rw [hsame] at hin
      exact feed_in htext hin hrest hfeed

end

end Nesting

/-- Tokens in order in a text are nested to nodes in order in it. -/
theorem Node.nodesIn_ofTokens (htext : byteLength text < Span.limit) {o : Options} {stop : Nat}
    {ts : List Token} {nodes : List Node} (hts : TokensIn text lo stop ts)
    (hstop : Boundary text stop) (h : Node.ofTokens o stop ts = .ok nodes) :
    NodesIn text lo stop nodes := by
  obtain ⟨b, hfeed, hfinish⟩ := bind_eq_ok.mp h
  have hin := Nesting.feed_in htext (Nesting.in_empty text lo) hts hfeed
  exact hin.finish hstop htext hfinish

end LiquidTemplate
