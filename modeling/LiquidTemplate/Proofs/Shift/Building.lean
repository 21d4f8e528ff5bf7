import LiquidTemplate.Proofs.Geometry.Building
import LiquidTemplate.Proofs.Shift.Basic

namespace LiquidTemplate

open Text

variable {k : Nat}

namespace Span

structure Movable (k : Nat) (s : Span) : Prop where
  known : s.isUnset = false
  lo_lt : s.lo + k < limit
  hi_lt : s.hi + k < limit

theorem Inside.movable {text : List Char} {lo hi : Nat} {s : Span} (h : s.Inside text lo hi)
    (hk : byteLength text + k < limit) : s.Movable k := by
  have hlo := h.boundary_lo.le
  have hhi := h.boundary_hi.le
  exact ⟨h.isUnset, by omega, by omega⟩

namespace Movable

variable {s : Span}

theorem shift_eq (h : s.Movable k) : s.shift k = between (s.lo + k) (s.hi + k) := by
  simp [shift, h.known]

theorem lo_shift (h : s.Movable k) : (s.shift k).lo = s.lo + k := by
  rw [h.shift_eq, lo_between _ h.lo_lt]

theorem hi_shift (h : s.Movable k) : (s.shift k).hi = s.hi + k := by
  rw [h.shift_eq, hi_between _ h.hi_lt]

end Movable

theorem movable_between {a b : Nat} (ha : a + k < limit) (hb : b + k < limit) :
    (between a b).Movable k := by
  refine ⟨isUnset_between b (by omega), ?_, ?_⟩
  · rwa [lo_between b (by omega)]
  · rwa [hi_between a (by omega)]

theorem point_shift {n : Nat} (h : n + k < limit) : (point n).shift k = point (n + k) :=
  shift_between (by omega) (by omega) k

end Span

@[simp]
theorem Expression.span_shift (e : Expression) : (e.shift k).span = e.span.shift k := by
  cases e <;> rfl

namespace Condition

@[simp]
theorem span_shift (c : Condition) : (c.shift k).span = c.span.shift k := by
  cases c <;> rfl

theorem ofTest_shift (t : Test) : ofTest (t.shift k) = (ofTest t).shift k := by
  cases t with
  | comparison c left right s => rfl
  | expression value => simp [Test.shift, ofTest, shift]

theorem join_shift {left right : Condition} {connective : Option Connective}
    (hleft : left.span.Movable k) (hright : right.span.Movable k) :
    join (left.shift k) connective (right.shift k) = (join left connective right).shift k := by
  have hlo := hleft.lo_lt
  have hhi := hright.hi_lt
  rw [join, join, span_shift, span_shift, hleft.lo_shift, hright.hi_shift, shift,
    Span.shift_between (by omega) (by omega)]

/-- Folding clauses goes with moving them; the tree has a span that can move too. -/
theorem ofClause_shift {test : Test} {rest : List Clause} (htest : test.span.Movable k)
    (hrest : ∀ c ∈ rest, c.test.span.Movable k) :
    ofClause (test.shift k) (rest.map (Clause.shift k)) = (ofClause test rest).shift k ∧
      (ofClause test rest).span.Movable k := by
  induction rest generalizing test with
  | nil =>
      refine ⟨ofTest_shift test, ?_⟩
      rwa [ofClause, span_ofTest]
  | cons next rest ih =>
      obtain ⟨hnext, hrest⟩ := List.forall_mem_cons.mp hrest
      obtain ⟨heq, hmovable⟩ := ih hnext hrest
      have hfirst : (ofTest test).span.Movable k := by rwa [span_ofTest]
      refine ⟨?_, Span.movable_between hfirst.lo_lt hmovable.hi_lt⟩
      rw [List.map_cons, ofClause, ofClause]
      change join (ofTest (test.shift k)) next.connective (ofClause (next.test.shift k) _) = _
      rw [heq, ofTest_shift, join_shift hfirst hmovable]

end Condition

namespace Markup

theorem fold_shift {text : List Char} {m : Flat} (h : m.Placed text)
    (hk : byteLength text + k < Span.limit) : (m.shiftFlat k).fold = m.fold.shiftFolded k := by
  cases m with
  | condition clauses =>
      cases clauses with
      | nil => rfl
      | cons first rest =>
          obtain ⟨hfirst, hrest⟩ := List.forall_mem_cons.mp h
          obtain ⟨heq, _⟩ := Condition.ofClause_shift (hfirst.movable hk)
            fun c hc => (hrest c hc).movable hk
          change condition (Condition.ofClause (first.test.shift k) (rest.map (Clause.shift k))) = _
          rw [heq]
          rfl
  | _ => rfl

end Markup

theorem Piece.label_shift (p : Piece) : (p.shift k).label = p.label := by
  cases p with
  | text run => rfl
  | output o =>
      obtain ⟨markup, trim, span⟩ := o
      cases markup <;> rfl

@[simp]
theorem nameText_shift (name : List Piece) : nameText (name.map (Piece.shift k)) = nameText name := by
  have hlabel : Piece.label ∘ Piece.shift k = Piece.label := funext Piece.label_shift
  rw [nameText, List.map_map, hlabel, nameText]

namespace Node

theorem isDanglingClose_shift (n : Node) : (n.shift k).isDanglingClose = n.isDanglingClose := by
  cases n <;> rfl

theorem plainText?_shift (ns : List Node) : plainText? (ns.map (shift k)) = plainText? ns := by
  unfold plainText?
  congr 1
  induction ns with
  | nil => rfl
  | cons n ns ih =>
      rw [List.map_cons, List.mapM_cons, List.mapM_cons, ih]
      cases n <;> rfl

theorem valueNamed?_shift (wanted : String) (n : Node) :
    valueNamed? wanted (n.shift k) = valueNamed? wanted n := by
  cases n with
  | valueAttribute quotes name value valueSpan span =>
      rw [shift, valueNamed?, valueNamed?, nameText_shift, shiftNodes_eq_map, plainText?_shift]
  | _ => rfl

theorem attributeValue?_shift (ns : List Node) (wanted : String) :
    attributeValue? (ns.map (shift k)) wanted = attributeValue? ns wanted := by
  have hvalue : valueNamed? wanted ∘ shift k = valueNamed? wanted := funext (valueNamed?_shift wanted)
  rw [attributeValue?, List.findSome?_map, hvalue, attributeValue?]

end Node

namespace Frame

def shift (k : Nat) : Frame → Frame
  | element name attributes opening children =>
    element (name.map (Piece.shift k)) (attributes.map (Node.shift k)) (opening.shift k)
      (children.map (Node.shift k))
  | block head children => block (head.shift k) (children.map (Node.shift k))
  | branched head closed current children =>
    branched (head.shift k) (closed.map (Branch.shift k)) (current.shift k)
      (children.map (Node.shift k))

@[simp]
theorem isElement_shift (f : Frame) : (f.shift k).isElement = f.isElement := by
  cases f <;> rfl

@[simp]
theorem tagName?_shift (f : Frame) : (f.shift k).tagName? = f.tagName? := by
  cases f <;> rfl

theorem unclosed_shift (f : Frame) : (f.shift k).unclosed = f.unclosed.shift k := by
  cases f with
  | element name attributes opening children => simp [shift, unclosed, Unclosed.shift]
  | block head children => rfl
  | branched head closed current children =>
      obtain ⟨name, markup, trim, span⟩ := current
      cases name <;> rfl

theorem add_shift (f : Frame) (nodes : List Node) :
    (f.shift k).add (nodes.map (Node.shift k)) = (f.add nodes).shift k := by
  cases f <;> simp [shift, add]

theorem depth_shift (stack : List Frame) : depth (stack.map (shift k)) = depth stack := by
  induction stack with
  | nil => rfl
  | cons f rest ih =>
      rw [List.map_cons, depth, depth, ih]
      cases f <;> rfl

theorem gather_shift (last : Branch) (others closed : List Branch) :
    gather (last.shift k) (others.map (Branch.shift k)) (closed.map (Branch.shift k)) =
      ((gather last others closed).1.shift k, (gather last others closed).2.map (Branch.shift k)) := by
  induction closed generalizing last others with
  | nil => rfl
  | cons b closed ih =>
      rw [List.map_cons, gather, gather]
      exact ih b (last :: others)

theorem close_shift {closing : Closing} (hclosing : closing.span.Movable k) (f : Frame) :
    (f.shift k).close (closing.shift k) = (f.close closing).shift k := by
  cases f with
  | element name attributes opening children =>
      simp [shift, close, Node.shift, shiftNodes_eq_map, Closing.shift]
  | block head children => simp [shift, close, Node.shift, shiftNodes_eq_map]
  | branched head closed current children =>
      have hlast : Branch.mk (current.shift k) (children.map (Node.shift k)).reverse
          (.point (closing.shift k).span.lo) =
            (Branch.mk current children.reverse (.point closing.span.lo)).shift k := by
        simp [Branch.shift, shiftNodes_eq_map, Closing.shift, hclosing.lo_shift, Span.point_shift hclosing.lo_lt]
      have hgather := gather_shift (k := k) (.mk current children.reverse (.point closing.span.lo)) [] closed
      simp only [shift, close, hlast]
      rw [List.map_nil] at hgather
      simp only [hgather, Node.shift, shiftBranches_eq_map]

theorem implied_shift {offset : Nat} (h : offset + k < Span.limit) :
    implied (offset + k) = (implied offset).shift k := by
  rw [implied, implied, Closing.shift, Span.point_shift h]

theorem movable_implied {offset : Nat} (h : offset + k < Span.limit) :
    (implied offset).span.Movable k :=
  Span.movable_between h h

theorem closeElements_shift {offset : Nat} (h : offset + k < Span.limit) (pending : List Node)
    (stack : List Frame) :
    closeElements (offset + k) (pending.map (Node.shift k)) (stack.map (shift k)) =
      ((closeElements offset pending stack).1.map (Node.shift k),
        (closeElements offset pending stack).2.map (shift k)) := by
  induction stack generalizing pending with
  | nil => rfl
  | cons f rest ih =>
      rw [List.map_cons, closeElements, closeElements, isElement_shift]
      split
      · rw [implied_shift h, add_shift, close_shift (movable_implied h)]
        exact ih [(f.add pending).close (implied offset)]
      · rfl

theorem closeAll_shift {offset : Nat} (h : offset + k < Span.limit) (pending : List Node)
    (stack : List Frame) :
    closeAll (offset + k) (pending.map (Node.shift k)) (stack.map (shift k)) =
      (closeAll offset pending stack).map (Node.shift k) := by
  induction stack generalizing pending with
  | nil => rfl
  | cons f rest ih =>
      rw [List.map_cons, closeAll, closeAll, implied_shift h, add_shift,
        close_shift (movable_implied h)]
      exact ih [(f.add pending).close (implied offset)]

end Frame

namespace Item

def shift (k : Nat) : Item → Item
  | leaf node => leaf (node.shift k)
  | openElement name attributes span =>
    openElement (name.map (Piece.shift k)) (attributes.map (Node.shift k)) (span.shift k)
  | closeElement name span => closeElement (name.map (Piece.shift k)) (span.shift k)
  | openTag head => openTag (head.shift k)
  | openBranch name head => openBranch name (head.shift k)
  | closeTag close => closeTag (close.shift k)

end Item

namespace Nesting

def shift (k : Nat) (b : Nesting) : Nesting :=
  ⟨b.roots.map (Node.shift k), b.stack.map (Frame.shift k)⟩

theorem add_shift (b : Nesting) (nodes : List Node) :
    (b.shift k).add (nodes.map (Node.shift k)) = (b.add nodes).shift k := by
  obtain ⟨roots, stack⟩ := b
  cases stack with
  | nil => simp [shift, add]
  | cons f rest => simp [shift, add, Frame.add_shift]

theorem misclosed_shift (b : Nesting) (container : Container) (name : String) (span : Span) :
    (b.shift k).misclosed container name (span.shift k) = (b.misclosed container name span).shift k := by
  obtain ⟨roots, stack⟩ := b
  cases stack with
  | nil => rfl
  | cons f rest =>
      simp only [shift, misclosed, List.map_cons, Frame.unclosed_shift]
      rfl

theorem openFrame_shift (b : Nesting) (f : Frame) (span : Span) :
    (b.shift k).openFrame (f.shift k) (span.shift k) = moved k (shift k) (b.openFrame f span) := by
  unfold openFrame
  rw [show (b.shift k).stack = b.stack.map (Frame.shift k) from rfl, Frame.depth_shift]
  split
  · rfl
  · rfl

theorem openTag_shift (b : Nesting) {head : TagHead} (hspan : head.span.Movable k) :
    (b.shift k).openTag (head.shift k) = moved k (shift k) (b.openTag head) := by
  have hpoint : Span.point (head.shift k).span.hi = (Span.point head.span.hi).shift k := by
    rw [Span.point_shift hspan.hi_lt]
    exact congrArg Span.point hspan.hi_shift
  have hfirst : firstBranch (head.shift k).span = (firstBranch head.span).shift k := by
    rw [firstBranch, hpoint]
    rfl
  unfold openTag
  rw [show (b.shift k).stack = b.stack.map (Frame.shift k) from rfl, Frame.depth_shift, hpoint, hfirst]
  change (if TagName.isBranching head.name then _ else _) = _
  split
  · split
    · rfl
    · exact openFrame_shift b (.branched head [] (firstBranch head.span) []) head.span
  · exact openFrame_shift b (.block head []) head.span

theorem openBranch_shift (b : Nesting) (name : String) {head : TagHead}
    (hspan : head.span.Movable k) :
    (b.shift k).openBranch name (head.shift k) = moved k (shift k) (b.openBranch name head) := by
  have hclose := Frame.closeElements_shift hspan.lo_lt [] b.stack
  have hlo : (head.shift k).span.lo = head.span.lo + k := hspan.lo_shift
  unfold openBranch
  rw [hlo, show (b.shift k).stack = b.stack.map (Frame.shift k) from rfl]
  rw [List.map_nil] at hclose
  rw [hclose]
  cases h : Frame.closeElements head.span.lo [] b.stack with
  | mk pending rest =>
      cases rest with
      | nil => rfl
      | cons f rest =>
          cases f with
          | branched tag closed current children =>
              have hdone : Branch.mk (current.shift k)
                  (pending.map (Node.shift k) ++ children.map (Node.shift k)).reverse (.point (head.span.lo + k)) =
                    (Branch.mk current (pending ++ children).reverse (.point head.span.lo)).shift k := by
                simp [Branch.shift, shiftNodes_eq_map, Span.point_shift hspan.lo_lt]
              simp only [List.map_cons, Frame.shift, hdone]
              rfl
          | element | block =>
              simp only [List.map_cons, moved_error, Error.shift, Misnesting.shift,
                ← Frame.unclosed_shift]
              rfl

theorem closeTag_shift (b : Nesting) {close : TagClose} (hspan : close.span.Movable k) :
    (b.shift k).closeTag (close.shift k) = moved k (shift k) (b.closeTag close) := by
  have hclose := Frame.closeElements_shift hspan.lo_lt [] b.stack
  have hlo : (close.shift k).span.lo = close.span.lo + k := hspan.lo_shift
  have hmisclosed := misclosed_shift (k := k) b .tag close.name close.span
  unfold closeTag
  rw [hlo, show (b.shift k).stack = b.stack.map (Frame.shift k) from rfl]
  rw [List.map_nil] at hclose
  rw [hclose]
  cases h : Frame.closeElements close.span.lo [] b.stack with
  | mk pending rest =>
      cases rest with
      | nil => exact congrArg Except.error hmisclosed
      | cons f rest =>
          have hclosing : (Closing.mk close.trim close.span).span.Movable k := hspan
          have hnode : ((f.shift k).add (pending.map (Node.shift k))).close
              ⟨(close.shift k).trim, (close.shift k).span⟩ =
                ((f.add pending).close ⟨close.trim, close.span⟩).shift k := by
            rw [Frame.add_shift]
            exact Frame.close_shift hclosing (f.add pending)
          have hname : (close.shift k).name = close.name := rfl
          simp only [List.map_cons, Frame.tagName?_shift, List.isEmpty_map, hnode, hname]
          split
          · exact congrArg Except.ok
              (add_shift ⟨b.roots, rest⟩ [(f.add pending).close ⟨close.trim, close.span⟩])
          · exact congrArg Except.error hmisclosed

theorem closesTop_shift (name : String) (stack : List Frame) :
    closesTop name (stack.map (Frame.shift k)) = closesTop name stack := by
  cases stack with
  | nil => rfl
  | cons f rest =>
      cases f with
      | element opened attributes opening children =>
          simp [Frame.shift, closesTop]
      | block | branched => rfl

theorem acceptsDangling_shift (mode : Mode) (stack : List Frame) :
    acceptsDangling mode (stack.map (Frame.shift k)) = acceptsDangling mode stack := by
  cases stack with
  | nil => rfl
  | cons f rest =>
      cases f with
      | element | block => rfl
      | branched head closed current children =>
          have hdangling : Node.isDanglingClose ∘ Node.shift k = Node.isDanglingClose :=
            funext Node.isDanglingClose_shift
          simp only [List.map_cons, Frame.shift, acceptsDangling, List.all_map, hdangling]
          rfl

theorem closeElement_shift (mode : Mode) (b : Nesting) (name : List Piece) {span : Span}
    (hspan : span.Movable k) :
    (b.shift k).closeElement mode (name.map (Piece.shift k)) (span.shift k) =
      moved k (shift k) (b.closeElement mode name span) := by
  have hmisclosed := misclosed_shift (k := k) b .element (nameText name) span
  have htop := closesTop_shift (k := k) (nameText name) b.stack
  have hdangling := acceptsDangling_shift (k := k) mode b.stack
  have hadd := add_shift (k := k) b [.danglingClose name span]
  unfold closeElement
  rw [nameText_shift, hmisclosed]
  rw [show (b.shift k).stack = b.stack.map (Frame.shift k) from rfl, htop, hdangling]
  cases hstack : b.stack with
  | nil => rfl
  | cons f rest =>
      have hclosing : (Closing.mk {} span).span.Movable k := hspan
      have hnode : (f.shift k).close ⟨{}, span.shift k⟩ = (f.close ⟨{}, span⟩).shift k :=
        Frame.close_shift hclosing f
      simp only [List.map_cons, hnode]
      split
      · exact congrArg Except.ok (add_shift ⟨b.roots, rest⟩ [f.close ⟨{}, span⟩])
      · split
        · exact congrArg Except.ok hadd
        · rfl

theorem step_shift (mode : Mode) (b : Nesting) {item : Item} (hspan : item.span.Movable k) :
    (b.shift k).step mode (item.shift k) = moved k (shift k) (b.step mode item) := by
  cases item with
  | leaf node => exact congrArg Except.ok (add_shift b [node])
  | openElement name attributes span =>
      exact openFrame_shift b (.element name attributes span []) span
  | closeElement name span => exact closeElement_shift mode b name hspan
  | openTag head => exact openTag_shift b hspan
  | openBranch name head => exact openBranch_shift b name hspan
  | closeTag close => exact closeTag_shift b hspan

theorem finish_shift (o : Options) {stop : Nat} (hstop : stop + k < Span.limit) (b : Nesting) :
    (b.shift k).finish o (stop + k) = moved k (List.map (Node.shift k)) (b.finish o stop) := by
  have hall := Frame.closeAll_shift hstop [] b.stack
  unfold finish
  rw [show (b.shift k).stack = b.stack.map (Frame.shift k) from rfl]
  cases hstack : b.stack with
  | nil => simp [shift]
  | cons f rest =>
      rw [hstack] at hall
      simp only [List.map_cons]
      split
      · rw [List.map_nil, List.map_cons] at hall
        rw [hall, moved_ok, List.map_reverse, List.map_append]
        rfl
      · rw [Frame.unclosed_shift, ← Span.point_shift hstop]
        rfl

theorem shift_empty : ({} : Nesting).shift k = {} := rfl

theorem Tag.head_shift {text : List Char} {tag : Tag} (h : tag.markup.Placed text)
    (hk : byteLength text + k < Span.limit) : (tag.shift k).head = tag.head.shift k := by
  have hfold := Markup.fold_shift h hk
  simp only [Tag.head, Tag.shift, TagHead.shift, hfold]

/-- Nested tokens that go with moving give a part of a token that does. -/
theorem nested_shift {o : Options} {ts : List Token} {span : Span} {build build' : List Node → Item}
    (hspan : span.Movable k)
    (hfeed : feed o (({} : Nesting).shift k) (Token.shiftAll k ts) = moved k (shift k) (feed o {} ts))
    (hbuild : ∀ nodes, build' (nodes.map (Node.shift k)) = (build nodes).shift k) :
    (do
      let b ← feed o {} (Token.shiftAll k ts)
      return build' (← b.finish o (span.shift k).hi)) =
      moved k (Item.shift k) (do
        let b ← feed o {} ts
        return build (← b.finish o span.hi)) := by
  rw [shift_empty] at hfeed
  rw [hfeed]
  apply moved_bind
  intro b _
  rw [hspan.hi_shift, finish_shift o hspan.hi_lt]
  apply moved_bind
  intro nodes _
  rw [hbuild]
  rfl

mutual

theorem complete_shift {text : List Char} (hk : byteLength text + k < Span.limit) :
    ∀ {t : Token} {o : Options} {lo hi : Nat}, t.span.Inside text lo hi → t.Placed text →
      complete o (t.shift k) = moved k (Item.shift k) (complete o t)
  | .rawElement e attributes body, o, lo, hi, hspan, h => by
      rw [Token.Placed] at h
      obtain ⟨hblock, _, hattributes, hbodySpan, hbody⟩ := h
      have hopening := hblock.opening.movable hk
      have hmovable := hbodySpan.movable hk
      have hfeed := feed_shift hk (o := o.nested) (b := {}) hattributes
      have hfeed' := feed_shift hk (o := Options.rawBody) (b := {}) hbody
      rw [shift_empty] at hfeed hfeed'
      simp only [Token.shift, complete, hfeed]
      apply moved_bind
      intro b _
      change (b.shift k).finish o.nested (e.block.opening.shift k).hi >>= _ = _
      rw [hopening.hi_shift, finish_shift o.nested hopening.hi_lt]
      apply moved_bind
      intro nodes _
      rw [hfeed']
      apply moved_bind
      intro b' _
      change (b'.shift k).finish Options.rawBody (e.bodySpan.shift k).hi >>= _ = _
      rw [hmovable.hi_shift, finish_shift Options.rawBody hmovable.hi_lt]
      apply moved_bind
      intro nodes' _
      rw [Node.attributeValue?_shift]
      simp only [pure, Except.pure, moved_ok, Item.shift, Node.shift, shiftNodes_eq_map]
      rfl
  | .voidElement name attributes span, o, lo, hi, hspan, h => by
      rw [Token.Placed] at h
      have hfeed := feed_shift hk (o := o.nested) (b := {}) h.2
      rw [Token.shift, complete, complete]
      apply nested_shift (hspan.movable hk) hfeed
      intro nodes
      simp only [Item.shift, Node.shift, shiftNodes_eq_map]
  | .selfClosing name attributes span, o, lo, hi, hspan, h => by
      rw [Token.Placed] at h
      have hfeed := feed_shift hk (o := o.nested) (b := {}) h.2
      rw [Token.shift, complete, complete]
      apply nested_shift (hspan.movable hk) hfeed
      intro nodes
      simp only [Item.shift, Node.shift, shiftNodes_eq_map]
  | .elementOpen name attributes span, o, lo, hi, hspan, h => by
      rw [Token.Placed] at h
      have hfeed := feed_shift hk (o := o.nested) (b := {}) h.2
      rw [Token.shift, complete, complete]
      apply nested_shift (hspan.movable hk) hfeed
      intro nodes
      rfl
  | .valueAttribute quotes name value valueSpan span, o, lo, hi, hspan, h => by
      rw [Token.Placed] at h
      have hfeed := feed_shift hk (o := o.nested) (b := {}) h.2.2
      rw [Token.shift, complete, complete]
      apply nested_shift (h.2.1.movable hk) hfeed
      intro nodes
      simp only [Item.shift, Node.shift, shiftNodes_eq_map]
  | .statements head body, o, lo, hi, hspan, h => by
      rw [Token.Placed] at h
      have hfeed := feed_shift hk (o := o.nested) (b := {}) h.2
      rw [Token.shift, complete, complete]
      apply nested_shift (h.1.movable hk) hfeed
      intro nodes
      simp only [Item.shift, Node.shift, shiftNodes_eq_map]
      rfl
  | .rawTag tag body, o, lo, hi, hspan, h => by
      rw [Token.Placed] at h
      have hfeed := feed_shift hk (o := Options.rawBody) (b := {}) h.2.2
      rw [Token.shift, complete, complete]
      apply nested_shift (h.2.1.movable hk) hfeed
      intro nodes
      simp only [Item.shift, Node.shift, shiftNodes_eq_map]
      rfl
  | .tagOpen tag, o, lo, hi, hspan, h => by
      rw [Token.Placed] at h
      rw [Token.shift, complete, complete, Tag.head_shift h hk]
      rfl
  | .tag tag, o, lo, hi, hspan, h => by
      rw [Token.Placed] at h
      have hname : (tag.shift k).name = tag.name := rfl
      simp only [Token.shift, complete, Tag.head_shift h hk, hname]
      split
      · rfl
      · simp only [moved_ok, Item.shift, Node.shift]
  | .text _, o, lo, hi, hspan, h | .frontmatter .., o, lo, hi, hspan, h
  | .doctype .., o, lo, hi, hspan, h | .comment .., o, lo, hi, hspan, h
  | .elementClose .., o, lo, hi, hspan, h | .bareAttribute .., o, lo, hi, hspan, h
  | .output _, o, lo, hi, hspan, h | .tagClose _, o, lo, hi, hspan, h
  | .docParam _, o, lo, hi, hspan, h | .docExample .., o, lo, hi, hspan, h
  | .docDescription .., o, lo, hi, hspan, h => by
      simp only [Token.shift, complete, moved_ok, Item.shift, Node.shift]

theorem feed_shift {text : List Char} (hk : byteLength text + k < Span.limit) :
    ∀ {ts : List Token} {o : Options} {b : Nesting} {lo hi : Nat}, TokensIn text lo hi ts →
      feed o (b.shift k) (Token.shiftAll k ts) = moved k (shift k) (feed o b ts)
  | [], o, b, lo, hi, h => by
      rfl
  | t :: ts, o, b, lo, hi, h => by
      rw [TokensIn] at h
      obtain ⟨hspan, _, hparts, hrest⟩ := h
      rw [Token.shiftAll, feed, feed, complete_shift hk hspan hparts]
      apply moved_bind
      intro item hitem
      have hsame : item.span = t.span := (complete_span hitem).2
      have hmovable : item.span.Movable k := by
        rw [hsame]
        exact hspan.movable hk
      rw [step_shift o.mode b hmovable]
      apply moved_bind
      intro b' _
      exact feed_shift hk hrest

end

end Nesting

/-- Nesting goes with moving: tokens in a text that are moved right give the same tree or error,
moved right. -/
theorem Node.ofTokens_shift {text : List Char} (hk : byteLength text + k < Span.limit) (o : Options)
    {stop lo hi : Nat} (hstop : stop + k < Span.limit) {ts : List Token}
    (hts : TokensIn text lo hi ts) :
    Node.ofTokens o (stop + k) (ts.map (Token.shift k)) =
      moved k (List.map (Node.shift k)) (Node.ofTokens o stop ts) := by
  have hfeed := Nesting.feed_shift hk (o := o) (b := {}) hts
  rw [Nesting.shift_empty, Token.shiftAll_eq_map] at hfeed
  rw [Node.ofTokens, Node.ofTokens, hfeed]
  apply moved_bind
  intro b _
  exact Nesting.finish_shift o hstop b

end LiquidTemplate
