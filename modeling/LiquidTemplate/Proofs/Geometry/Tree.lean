import LiquidTemplate.Node
import LiquidTemplate.Proofs.Geometry.Span

namespace LiquidTemplate

open Text

theorem Branch.lo_span (b : Branch) : b.span.lo = b.head.span.lo := Span.lo_between _ (Span.lo_lt _)

theorem Branch.hi_span (b : Branch) : b.span.hi = b.closing.hi := Span.hi_between _ (Span.hi_lt _)

/-- A branch that is closed where something else starts ends there. -/
theorem Branch.hi_span_mk (head : BranchHead) (children : List Node) (s : Span) :
    (Branch.mk head children (.point s.lo)).span.hi = s.lo :=
  (Branch.hi_span _).trans (Span.hi_between _ s.lo_lt)

def Piece.span : Piece → Span
  | text run => run.span
  | output o => o.span

def Test.span : Test → Span
  | comparison _ _ _ s => s
  | expression value => value.span

theorem Condition.span_ofTest (t : Test) : (ofTest t).span = t.span := by
  cases t <;> rfl

def Markup.Flat.Placed (text : List Char) : Markup.Flat → Prop
  | .condition clauses => ∀ c ∈ clauses, c.test.span.Inside text 0 (byteLength text)
  | _ => True

mutual

def Token.Placed (text : List Char) : Token → Prop
  | .rawElement e attributes body =>
    e.block.Placed text ∧ Span.Row text e.block.opening.lo e.block.opening.hi [e.name.span] ∧
      TokensIn text e.block.opening.lo e.block.opening.hi attributes ∧
      e.bodySpan.Inside text e.block.opening.hi e.block.closing.lo ∧
      TokensIn text e.bodySpan.lo e.bodySpan.hi body
  | .voidElement name attributes span =>
    Span.Row text span.lo span.hi [name.span] ∧ TokensIn text span.lo span.hi attributes
  | .selfClosing name attributes span =>
    Span.Row text span.lo span.hi (name.map Piece.span) ∧ TokensIn text span.lo span.hi attributes
  | .elementOpen name attributes span =>
    Span.Row text span.lo span.hi (name.map Piece.span) ∧ TokensIn text span.lo span.hi attributes
  | .elementClose name span => Span.Row text span.lo span.hi (name.map Piece.span)
  | .valueAttribute _ name value valueSpan span =>
    Span.Row text span.lo span.hi (name.map Piece.span) ∧
      valueSpan.Inside text span.lo span.hi ∧ TokensIn text valueSpan.lo valueSpan.hi value
  | .bareAttribute name span => Span.Row text span.lo span.hi (name.map Piece.span)
  | .tagOpen tag => tag.markup.Placed text
  | .tag tag => tag.markup.Placed text
  | .statements head body =>
    head.markupSpan.Inside text head.span.lo head.span.hi ∧
      TokensIn text head.markupSpan.lo head.markupSpan.hi body
  | .rawTag tag body =>
    tag.block.Placed text ∧
      tag.bodySpan.Inside text tag.block.opening.hi tag.block.closing.lo ∧
      TokensIn text tag.bodySpan.lo tag.bodySpan.hi body
  | _ => True

/-- Tokens in order between two offsets of the text: none is empty, none reaches into the next, and
their parts lie where they should. -/
def TokensIn (text : List Char) (lo hi : Nat) : List Token → Prop
  | [] => lo ≤ hi
  | t :: ts =>
    t.span.Inside text lo hi ∧ t.span.lo < t.span.hi ∧ t.Placed text ∧ TokensIn text t.span.hi hi ts

end

mutual

/-- The parts of the node lie where they should in the text: names and attributes in the opening,
children between the opening and the closing, and all of it in the node. -/
def Node.Placed (text : List Char) : Node → Prop
  | .element name attributes opening children closing =>
    Block.Placed text ⟨.between opening.lo closing.hi, opening, closing⟩ ∧
      Span.Row text opening.lo opening.hi (name.map Piece.span) ∧
      NodesIn text opening.lo opening.hi attributes ∧ NodesIn text opening.hi closing.lo children
  | .rawElement e _ attributes nodes =>
    e.block.Placed text ∧ Span.Row text e.block.opening.lo e.block.opening.hi [e.name.span] ∧
      NodesIn text e.block.opening.lo e.block.opening.hi attributes ∧
      e.bodySpan.Inside text e.block.opening.hi e.block.closing.lo ∧
      NodesIn text e.bodySpan.lo e.bodySpan.hi nodes
  | .voidElement name attributes span =>
    Span.Row text span.lo span.hi [name.span] ∧ NodesIn text span.lo span.hi attributes
  | .selfClosing name attributes span =>
    Span.Row text span.lo span.hi (name.map Piece.span) ∧ NodesIn text span.lo span.hi attributes
  | .danglingClose name span => Span.Row text span.lo span.hi (name.map Piece.span)
  | .valueAttribute _ name value valueSpan span =>
    Span.Row text span.lo span.hi (name.map Piece.span) ∧
      valueSpan.Inside text span.lo span.hi ∧ NodesIn text valueSpan.lo valueSpan.hi value
  | .bareAttribute name span => Span.Row text span.lo span.hi (name.map Piece.span)
  | .block head children closing =>
    Block.Placed text ⟨.between head.span.lo closing.span.hi, head.span, closing.span⟩ ∧
      NodesIn text head.span.hi closing.span.lo children
  | .branched head first others closing =>
    Block.Placed text ⟨.between head.span.lo closing.span.hi, head.span, closing.span⟩ ∧
      first.span.Inside text head.span.hi closing.span.lo ∧ first.Placed text ∧
      BranchesIn text first.span.hi closing.span.lo others
  | .statements _ span body => NodesIn text span.lo span.hi body
  | .rawTag tag _ nodes =>
    tag.block.Placed text ∧
      tag.bodySpan.Inside text tag.block.opening.hi tag.block.closing.lo ∧
      NodesIn text tag.bodySpan.lo tag.bodySpan.hi nodes
  | _ => True

def NodesIn (text : List Char) (lo hi : Nat) : List Node → Prop
  | [] => lo ≤ hi
  | n :: ns =>
    n.span.Inside text lo hi ∧ n.span.lo < n.span.hi ∧ n.Placed text ∧ NodesIn text n.span.hi hi ns

def Branch.Placed (text : List Char) : Branch → Prop
  | .mk head children closing =>
    Block.Placed text ⟨.between head.span.lo closing.hi, head.span, closing⟩ ∧ closing = .point closing.hi ∧
      NodesIn text head.span.hi closing.lo children

def BranchesIn (text : List Char) (lo hi : Nat) : List Branch → Prop
  | [] => lo ≤ hi
  | b :: bs => b.span.Inside text lo hi ∧ b.Placed text ∧ BranchesIn text b.span.hi hi bs

end

theorem tokensIn_iff {text : List Char} {lo hi : Nat} {ts : List Token} :
    TokensIn text lo hi ts ↔ Span.Row text lo hi (ts.map Token.span) ∧ ∀ t ∈ ts, t.Placed text := by
  induction ts generalizing lo with
  | nil =>
      rw [TokensIn]
      simp [Span.Row]
  | cons t ts ih =>
      rw [TokensIn, ih]
      simp only [List.map_cons, Span.Row, List.forall_mem_cons]
      constructor
      · rintro ⟨hspan, hlt, hparts, hrow, hrest⟩
        exact ⟨⟨hspan, hlt, hrow⟩, hparts, hrest⟩
      · rintro ⟨⟨hspan, hlt, hrow⟩, hparts, hrest⟩
        exact ⟨hspan, hlt, hparts, hrow, hrest⟩

theorem TokensIn.le {text : List Char} {lo hi : Nat} {ts : List Token} (h : TokensIn text lo hi ts) : lo ≤ hi :=
  (tokensIn_iff.mp h).1.le

theorem TokensIn.weaken {text : List Char} {lo hi lo' hi' : Nat} {ts : List Token}
    (h : TokensIn text lo hi ts) (hlo : lo' ≤ lo) (hhi : hi ≤ hi') : TokensIn text lo' hi' ts := by
  rw [tokensIn_iff] at h ⊢
  exact ⟨h.1.weaken hlo hhi, h.2⟩

theorem nodesIn_iff {text : List Char} {lo hi : Nat} {ns : List Node} :
    NodesIn text lo hi ns ↔ Span.Row text lo hi (ns.map Node.span) ∧ ∀ n ∈ ns, n.Placed text := by
  induction ns generalizing lo with
  | nil =>
      rw [NodesIn]
      simp [Span.Row]
  | cons n ns ih =>
      rw [NodesIn, ih]
      simp only [List.map_cons, Span.Row, List.forall_mem_cons]
      constructor
      · rintro ⟨hspan, hlt, hparts, hrow, hrest⟩
        exact ⟨⟨hspan, hlt, hrow⟩, hparts, hrest⟩
      · rintro ⟨⟨hspan, hlt, hrow⟩, hparts, hrest⟩
        exact ⟨hspan, hlt, hparts, hrow, hrest⟩

section Nodes

variable {text : List Char} {lo mid hi : Nat}

theorem nodesIn_nil (h : lo ≤ hi) : NodesIn text lo hi [] := by
  rw [NodesIn]
  exact h

theorem NodesIn.le {ns : List Node} (h : NodesIn text lo hi ns) : lo ≤ hi := (nodesIn_iff.mp h).1.le

theorem NodesIn.append {ns ms : List Node} (hn : NodesIn text lo mid ns)
    (hm : NodesIn text mid hi ms) : NodesIn text lo hi (ns ++ ms) := by
  induction ns generalizing lo with
  | nil =>
      rw [NodesIn] at hn
      cases ms with
      | nil => exact nodesIn_nil (Nat.le_trans hn hm.le)
      | cons m ms =>
          rw [NodesIn] at hm
          obtain ⟨hspan, hlt, hparts, hrest⟩ := hm
          rw [List.nil_append, NodesIn]
          exact ⟨hspan.weaken (Nat.le_trans hn hspan.le_lo) hspan.hi_le, hlt, hparts, hrest⟩
  | cons n ns ih =>
      rw [NodesIn] at hn
      obtain ⟨hspan, hlt, hparts, hrest⟩ := hn
      rw [List.cons_append, NodesIn]
      exact ⟨hspan.weaken hspan.le_lo (Nat.le_trans hspan.hi_le hm.le), hlt, hparts, ih hrest⟩

theorem NodesIn.weaken_hi {ns : List Node} (h : NodesIn text lo mid ns) (hle : mid ≤ hi) :
    NodesIn text lo hi ns := by
  have hall := h.append (nodesIn_nil hle)
  rwa [List.append_nil] at hall

theorem NodesIn.weaken_lo {ns : List Node} (h : NodesIn text mid hi ns) (hle : lo ≤ mid) :
    NodesIn text lo hi ns :=
  (nodesIn_nil hle).append h

theorem nodesIn_singleton {n : Node} (hspan : n.span.Inside text lo hi) (hlt : n.span.lo < n.span.hi)
    (hparts : n.Placed text) : NodesIn text lo hi [n] := by
  rw [NodesIn]
  exact ⟨hspan, hlt, hparts, nodesIn_nil hspan.hi_le⟩

end Nodes

section Branches

variable {text : List Char} {lo mid hi : Nat}

theorem branchesIn_nil (h : lo ≤ hi) : BranchesIn text lo hi [] := by
  rw [BranchesIn]
  exact h

theorem BranchesIn.snoc {bs : List Branch} {b : Branch} (h : BranchesIn text lo mid bs)
    (hspan : b.span.Inside text mid hi) (hparts : b.Placed text) :
    BranchesIn text lo hi (bs ++ [b]) := by
  induction bs generalizing lo with
  | nil =>
      rw [BranchesIn] at h
      rw [List.nil_append, BranchesIn]
      exact ⟨hspan.weaken (Nat.le_trans h hspan.le_lo) hspan.hi_le, hparts,
        branchesIn_nil hspan.hi_le⟩
  | cons c bs ih =>
      rw [BranchesIn] at h
      obtain ⟨hc, hcparts, hrest⟩ := h
      have hle : mid ≤ hi := Nat.le_trans hspan.le_lo (Nat.le_trans hspan.lo_le_hi hspan.hi_le)
      rw [List.cons_append, BranchesIn]
      exact ⟨hc.weaken hc.le_lo (Nat.le_trans hc.hi_le hle), hcparts, ih hrest⟩

end Branches

end LiquidTemplate
