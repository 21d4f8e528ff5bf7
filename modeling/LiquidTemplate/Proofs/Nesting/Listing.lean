import LiquidTemplate.Proofs.Nesting.Steps
import LiquidTemplate.Proofs.Nesting.Language

namespace LiquidTemplate

def Span.covering (s : Span) : List Span := if s.isEmpty then [] else [s]

mutual

/-- The spans of the tokens that make up a node, in order. An implied closing is no token. -/
def Node.tokenSpans : Node → List Span
  | .element _ _ opening children closing => opening :: (nodeSpans children ++ closing.covering)
  | .block head children closing => head.span :: (nodeSpans children ++ closing.span.covering)
  | .branched head first others closing =>
    head.span :: (first.contentSpans ++ branchSpans others ++ closing.span.covering)
  | leaf => [leaf.span]

def nodeSpans : List Node → List Span
  | [] => []
  | n :: ns => n.tokenSpans ++ nodeSpans ns

def Branch.contentSpans : Branch → List Span
  | .mk _ children _ => nodeSpans children

def branchSpans : List Branch → List Span
  | [] => []
  | b :: bs => b.head.span :: (b.contentSpans ++ branchSpans bs)

end

def bodySpans : List Branch → List Span
  | [] => []
  | first :: others => first.contentSpans ++ branchSpans others

def Frame.tokenSpans : Frame → List Span
  | element _ _ opening children => opening :: nodeSpans children.reverse
  | block head children => head.span :: nodeSpans children.reverse
  | branched head closed current children =>
    head.span :: bodySpans (closed.reverse ++ [.mk current children.reverse (.point current.span.hi)])

def stackSpans (stack : List Frame) : List Span := stack.reverse.flatMap Frame.tokenSpans

def Nesting.tokenSpans (b : Nesting) : List Span := nodeSpans b.roots.reverse ++ stackSpans b.stack

@[simp]
theorem covering_point (offset : Nat) : (Span.point offset).covering = [] := by
  simp [Span.covering, Span.isEmpty, Span.length, Span.point, Span.between, Span.lo, Span.hi]

theorem covering_eq {s : Span} (h : s.isEmpty = false) : s.covering = [s] := by
  simp [Span.covering, h]

@[simp]
theorem nodeSpans_append (xs ys : List Node) : nodeSpans (xs ++ ys) = nodeSpans xs ++ nodeSpans ys := by
  induction xs with
  | nil => simp [nodeSpans]
  | cons x xs ih => simp [nodeSpans, ih]

@[simp]
theorem branchSpans_append (xs ys : List Branch) :
    branchSpans (xs ++ ys) = branchSpans xs ++ branchSpans ys := by
  induction xs with
  | nil => simp [branchSpans]
  | cons x xs ih => simp [branchSpans, ih]

theorem bodySpans_cons (first : Branch) (others : List Branch) :
    bodySpans (first :: others) = first.contentSpans ++ branchSpans others := rfl

theorem bodySpans_append {xs : List Branch} (h : xs ≠ []) (ys : List Branch) :
    bodySpans (xs ++ ys) = bodySpans xs ++ branchSpans ys := by
  cases xs with
  | nil => exact absurd rfl h
  | cons x xs => simp [bodySpans]

theorem bodySpans_snoc (closed : List Branch) (head : BranchHead) (xs ys : List Node) (i j : Span) :
    bodySpans (closed ++ [.mk head (xs ++ ys) i]) =
      bodySpans (closed ++ [.mk head xs j]) ++ nodeSpans ys := by
  cases closed with
  | nil => simp [bodySpans, branchSpans, Branch.contentSpans]
  | cons b bs => simp [bodySpans, branchSpans, Branch.contentSpans, Branch.head]

theorem gather_cons (last : Branch) (others closed : List Branch) :
    (Frame.gather last others closed).1 :: (Frame.gather last others closed).2 =
      closed.reverse ++ last :: others := by
  induction closed generalizing last others with
  | nil => rfl
  | cons b closed ih => simp [Frame.gather, ih]

theorem Frame.tokenSpans_add (nodes : List Node) (f : Frame) :
    (f.add nodes).tokenSpans = f.tokenSpans ++ nodeSpans nodes.reverse := by
  cases f with
  | element name attributes opening children => simp [Frame.add, Frame.tokenSpans]
  | block head children => simp [Frame.add, Frame.tokenSpans]
  | branched head closed current children =>
    simp only [Frame.add, Frame.tokenSpans, List.reverse_append, List.cons_append]
    rw [bodySpans_snoc _ _ _ _ _ (.point current.span.hi)]

theorem Frame.tokenSpans_close (closing : Closing) (f : Frame) :
    (f.close closing).tokenSpans = f.tokenSpans ++ closing.span.covering := by
  cases f with
  | element name attributes opening children => simp [Frame.close, Frame.tokenSpans, Node.tokenSpans]
  | block head children => simp [Frame.close, Frame.tokenSpans, Node.tokenSpans]
  | branched head closed current children =>
    have hbody := bodySpans_snoc closed.reverse current children.reverse [] (.point closing.span.lo)
      (.point current.span.hi)
    have hgather := gather_cons (.mk current children.reverse (.point closing.span.lo)) [] closed
    rw [List.append_nil, ← hgather, bodySpans_cons, nodeSpans, List.append_nil] at hbody
    simp [Frame.close, Frame.tokenSpans, Node.tokenSpans, hbody]

@[simp]
theorem stackSpans_nil : stackSpans [] = [] := rfl

@[simp]
theorem stackSpans_cons (f : Frame) (stack : List Frame) :
    stackSpans (f :: stack) = stackSpans stack ++ f.tokenSpans := by
  simp [stackSpans]

/-- Closing elements by implication moves their tokens to the frame below. -/
theorem closeElements_spans (offset : Nat) (pending : List Node) (stack : List Frame) :
    stackSpans (Frame.closeElements offset pending stack).2 ++
        nodeSpans (Frame.closeElements offset pending stack).1.reverse =
      stackSpans stack ++ nodeSpans pending.reverse := by
  induction stack generalizing pending with
  | nil => rfl
  | cons f rest ih =>
    by_cases hf : f.isElement
    · rw [Frame.closeElements, if_pos hf, ih]
      simp [nodeSpans, Frame.tokenSpans_close, Frame.tokenSpans_add, Frame.implied]
    · rw [Frame.closeElements, if_neg hf]

theorem closeAll_spans (offset : Nat) (pending : List Node) (stack : List Frame) :
    nodeSpans (Frame.closeAll offset pending stack).reverse =
      stackSpans stack ++ nodeSpans pending.reverse := by
  induction stack generalizing pending with
  | nil => simp [Frame.closeAll]
  | cons f rest ih =>
    rw [Frame.closeAll, ih]
    simp [nodeSpans, Frame.tokenSpans_close, Frame.tokenSpans_add, Frame.implied]

namespace Nesting

theorem tokenSpans_add (nodes : List Node) (b : Nesting) :
    (b.add nodes).tokenSpans = b.tokenSpans ++ nodeSpans nodes.reverse := by
  obtain ⟨roots, stack⟩ := b
  cases stack with
  | nil => simp [add, tokenSpans]
  | cons f rest => simp [add, tokenSpans, Frame.tokenSpans_add]

theorem tokenSpans_openFrame {b b' : Nesting} {f : Frame} {span : Span}
    (h : b.openFrame f span = .ok b') : b'.tokenSpans = b.tokenSpans ++ f.tokenSpans := by
  obtain ⟨_, rfl⟩ := openFrame_ok h
  simp [tokenSpans]

theorem tokenSpans_openTag {b b' : Nesting} {head : TagHead} (h : b.openTag head = .ok b') :
    b'.tokenSpans = b.tokenSpans ++ [head.span] := by
  rcases openTag_ok h with ⟨_, _, rfl⟩ | ⟨_, _, rfl⟩
  · simp [tokenSpans, Frame.tokenSpans, nodeSpans]
  · simp [tokenSpans, Frame.tokenSpans, bodySpans, branchSpans, Branch.contentSpans, nodeSpans]

theorem tokenSpans_openBranch {b b' : Nesting} {name : String} {head : TagHead}
    (h : b.openBranch name head = .ok b') : b'.tokenSpans = b.tokenSpans ++ [head.span] := by
  obtain ⟨pending, tag, closed, current, children, rest, hclose, rfl⟩ := openBranch_ok h
  have hspans := closeElements_spans head.span.lo [] b.stack
  rw [hclose] at hspans
  simp only [nodeSpans, List.reverse_nil, List.append_nil] at hspans
  simp only [tokenSpans, stackSpans_cons, Frame.tokenSpans, ← hspans, List.reverse_cons,
    List.reverse_nil, List.reverse_append]
  rw [bodySpans_append (by simp), bodySpans_snoc _ _ _ _ _ (.point current.span.hi)]
  simp [branchSpans, Branch.head, Branch.contentSpans, nodeSpans]

theorem tokenSpans_closeTag {b b' : Nesting} {close : TagClose} (h : b.closeTag close = .ok b') :
    b'.tokenSpans = b.tokenSpans ++ close.span.covering := by
  obtain ⟨pending, f, rest, hclose, _, _, rfl⟩ := closeTag_ok h
  have hspans := closeElements_spans close.span.lo [] b.stack
  rw [hclose] at hspans
  simp only [nodeSpans, List.reverse_nil, List.append_nil, stackSpans_cons] at hspans
  rw [tokenSpans_add]
  simp [tokenSpans, ← hspans, nodeSpans, Frame.tokenSpans_close, Frame.tokenSpans_add]

theorem tokenSpans_closeElement {mode : Mode} {b b' : Nesting} {name : List Piece} {span : Span}
    (hspan : span.isEmpty = false) (h : b.closeElement mode name span = .ok b') :
    b'.tokenSpans = b.tokenSpans ++ [span] := by
  obtain ⟨f, rest, hstack, ⟨_, rfl⟩ | ⟨_, rfl⟩⟩ := closeElement_ok h
  · rw [tokenSpans_add]
    simp [tokenSpans, hstack, nodeSpans, Frame.tokenSpans_close, covering_eq hspan]
  · rw [tokenSpans_add]
    simp [nodeSpans, Node.tokenSpans, Node.span]

end Nesting

namespace Item

def span : Item → Span
  | leaf node => node.span
  | openElement _ _ s => s
  | closeElement _ s => s
  | openTag head => head.span
  | openBranch _ head => head.span
  | closeTag close => close.span

def Single : Item → Prop
  | leaf node => node.tokenSpans = [node.span]
  | _ => True

end Item

namespace Nesting

theorem complete_span {o : Options} {t : Token} {item : Item} (h : complete o t = .ok item) :
    item.Single ∧ item.span = t.span := by
  cases t with
  | tag tag =>
    unfold complete at h
    split at h <;> cases h <;> exact ⟨by trivial, rfl⟩
  | rawElement | voidElement | selfClosing | elementOpen | valueAttribute | statements | rawTag =>
    simp only [complete, bind_eq_ok, pure_eq_ok] at h
    grind [Item.Single, Item.span, Token.span, Node.tokenSpans, Node.span]
  | _ =>
    cases h
    exact ⟨by trivial, rfl⟩

theorem tokenSpans_step {mode : Mode} {b b' : Nesting} {item : Item} (hitem : item.Single)
    (hspan : item.span.isEmpty = false) (h : b.step mode item = .ok b') :
    b'.tokenSpans = b.tokenSpans ++ [item.span] := by
  cases item with
  | leaf node =>
    cases h
    have hnode : node.tokenSpans = [node.span] := hitem
    simp [tokenSpans_add, nodeSpans, hnode, Item.span]
  | openElement name attributes span =>
    rw [tokenSpans_openFrame h]
    simp [Frame.tokenSpans, nodeSpans, Item.span]
  | closeElement name span => exact tokenSpans_closeElement hspan h
  | openTag head => exact tokenSpans_openTag h
  | openBranch name head => exact tokenSpans_openBranch h
  | closeTag close =>
    have hclose : close.span.covering = [close.span] := covering_eq hspan
    rw [tokenSpans_closeTag h, hclose, Item.span]

theorem tokenSpans_feed {o : Options} {b b' : Nesting} {tokens : List Token}
    (hspans : ∀ t ∈ tokens, t.span.isEmpty = false) (h : feed o b tokens = .ok b') :
    b'.tokenSpans = b.tokenSpans ++ tokens.map Token.span := by
  induction tokens generalizing b with
  | nil =>
    cases h
    simp
  | cons t rest ih =>
    rw [feed] at h
    obtain ⟨item, hitem, h⟩ := bind_eq_ok.mp h
    obtain ⟨b₁, hstep, h⟩ := bind_eq_ok.mp h
    obtain ⟨hsingle, hspan⟩ := complete_span hitem
    have hone := tokenSpans_step hsingle (by rw [hspan]; exact hspans t (by simp)) hstep
    rw [ih (fun u hu => hspans u (by simp [hu])) h, hone, hspan]
    simp

theorem tokenSpans_finish {o : Options} {stop : Nat} {b : Nesting} {nodes : List Node}
    (h : b.finish o stop = .ok nodes) : nodeSpans nodes = b.tokenSpans := by
  unfold finish at h
  split at h
  · rename_i hstack
    cases h
    simp [tokenSpans, hstack]
  · rename_i f rest hstack
    split at h
    · cases h
      rw [List.reverse_append, nodeSpans_append, closeAll_spans]
      simp [tokenSpans, nodeSpans]
    · cases h

end Nesting

/-- No token is lost, repeated or moved: the tokens of a tree, listed in order, are those that it
was built from. -/
theorem nodeSpans_ofTokens {o : Options} {stop : Nat} {tokens : List Token} {nodes : List Node}
    (hspans : ∀ t ∈ tokens, t.span.isEmpty = false) (h : Node.ofTokens o stop tokens = .ok nodes) :
    nodeSpans nodes = tokens.map Token.span := by
  obtain ⟨b, hfeed, hfinish⟩ := bind_eq_ok.mp h
  rw [Nesting.tokenSpans_finish hfinish, Nesting.tokenSpans_feed hspans hfeed]
  simp [Nesting.tokenSpans, nodeSpans]

theorem nodeSpans_crossedBranches :
    (∀ t ∈ crossedBranches, t.span.isEmpty = false) ∧
      ∃ nodes, Node.ofTokens {} 38 crossedBranches = .ok nodes ∧
        nodeSpans nodes = crossedBranches.map Token.span := by
  have hspans : ∀ t ∈ crossedBranches, t.span.isEmpty = false := by decide
  obtain ⟨nodes, h⟩ : ∃ nodes, Node.ofTokens {} 38 crossedBranches = .ok nodes := ⟨_, rfl⟩
  exact ⟨hspans, nodes, h, nodeSpans_ofTokens hspans h⟩

end LiquidTemplate
