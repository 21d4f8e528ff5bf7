import LiquidTemplate.Proofs.Nesting.Listing

namespace LiquidTemplate

/-- A property of nodes, with one of names, and one of markup and the span of the opening that it
stands in. -/
structure Traits where
  node : Node → Prop
  name : List Piece → Prop := fun _ => True
  markup : Markup.Folded → Span → Prop := fun _ _ => True

structure Composes (T : Traits) : Prop where
  element : ∀ {name attributes opening children closing}, T.name name → (∀ n ∈ attributes, T.node n) →
    (∀ n ∈ children, T.node n) → T.node (.element name attributes opening children closing)
  danglingClose : ∀ {name span}, T.name name → T.node (.danglingClose name span)
  block : ∀ {head children closing}, T.markup head.markup head.span → (∀ n ∈ children, T.node n) →
    T.node (.block head children closing)
  branched : ∀ {head first others closing}, T.markup head.markup head.span →
    (∀ b ∈ first :: others, T.markup b.head.markup b.head.span ∧ ∀ n ∈ b.children, T.node n) →
    T.node (.branched head first others closing)
  firstBranch : ∀ tag, T.markup (Nesting.firstBranch tag).markup (Nesting.firstBranch tag).span

variable {T : Traits}

namespace Frame

def Holds (T : Traits) : Frame → Prop
  | element name attributes _ children =>
    T.name name ∧ (∀ n ∈ attributes, T.node n) ∧ ∀ n ∈ children, T.node n
  | block head children => T.markup head.markup head.span ∧ ∀ n ∈ children, T.node n
  | branched head closed current children =>
    T.markup head.markup head.span ∧
      (∀ b ∈ closed, T.markup b.head.markup b.head.span ∧ ∀ n ∈ b.children, T.node n) ∧
      T.markup current.markup current.span ∧ ∀ n ∈ children, T.node n

theorem Holds.add {f : Frame} (h : f.Holds T) {nodes : List Node} (hnodes : ∀ n ∈ nodes, T.node n) :
    (f.add nodes).Holds T := by
  cases f with
  | element name attributes opening children =>
      obtain ⟨hname, hattributes, hchildren⟩ := h
      exact ⟨hname, hattributes, List.forall_mem_append.mpr ⟨hnodes, hchildren⟩⟩
  | block head children =>
      obtain ⟨hhead, hchildren⟩ := h
      exact ⟨hhead, List.forall_mem_append.mpr ⟨hnodes, hchildren⟩⟩
  | branched head closed current children =>
      obtain ⟨hhead, hclosed, hcurrent, hchildren⟩ := h
      exact ⟨hhead, hclosed, hcurrent, List.forall_mem_append.mpr ⟨hnodes, hchildren⟩⟩

theorem Holds.close (hT : Composes T) {f : Frame} (h : f.Holds T) (closing : Closing) :
    T.node (f.close closing) := by
  cases f with
  | element name attributes opening children =>
      obtain ⟨hname, hattributes, hchildren⟩ := h
      apply hT.element hname hattributes
      intro n hn
      exact hchildren n (List.mem_reverse.mp hn)
  | block head children =>
      obtain ⟨hhead, hchildren⟩ := h
      apply hT.block hhead
      intro n hn
      exact hchildren n (List.mem_reverse.mp hn)
  | branched head closed current children =>
      obtain ⟨hhead, hclosed, hcurrent, hchildren⟩ := h
      apply hT.branched hhead
      intro b hb
      rw [gather_cons] at hb
      rcases List.mem_append.mp hb with hb | hb
      · exact hclosed b (List.mem_reverse.mp hb)
      · rw [List.mem_singleton.mp hb]
        refine ⟨hcurrent, ?_⟩
        intro n hn
        exact hchildren n (List.mem_reverse.mp hn)

theorem holds_closeElements (hT : Composes T) (offset : Nat) {pending : List Node}
    {stack : List Frame} (hpending : ∀ n ∈ pending, T.node n) (hstack : ∀ f ∈ stack, f.Holds T) :
    (∀ n ∈ (closeElements offset pending stack).1, T.node n) ∧
      ∀ f ∈ (closeElements offset pending stack).2, f.Holds T := by
  induction stack generalizing pending with
  | nil => exact ⟨hpending, hstack⟩
  | cons f rest ih =>
      obtain ⟨hf, hrest⟩ := List.forall_mem_cons.mp hstack
      by_cases helement : f.isElement
      · rw [closeElements, if_pos helement]
        refine ih ?_ hrest
        intro n hn
        rw [List.mem_singleton.mp hn]
        exact (hf.add hpending).close hT _
      · rw [closeElements, if_neg helement]
        exact ⟨hpending, hstack⟩

theorem holds_closeAll (hT : Composes T) (offset : Nat) {pending : List Node} {stack : List Frame}
    (hpending : ∀ n ∈ pending, T.node n) (hstack : ∀ f ∈ stack, f.Holds T) :
    ∀ n ∈ closeAll offset pending stack, T.node n := by
  induction stack generalizing pending with
  | nil => exact hpending
  | cons f rest ih =>
      obtain ⟨hf, hrest⟩ := List.forall_mem_cons.mp hstack
      rw [closeAll]
      refine ih ?_ hrest
      intro n hn
      rw [List.mem_singleton.mp hn]
      exact (hf.add hpending).close hT _

end Frame

def Item.Holds (T : Traits) : Item → Prop
  | leaf node => T.node node
  | openElement name attributes _ => T.name name ∧ ∀ n ∈ attributes, T.node n
  | closeElement name _ => T.name name
  | openTag head | openBranch _ head => T.markup head.markup head.span
  | closeTag _ => True

namespace Nesting

structure Holds (T : Traits) (b : Nesting) : Prop where
  roots : ∀ n ∈ b.roots, T.node n
  stack : ∀ f ∈ b.stack, f.Holds T

theorem holds_empty : ({} : Nesting).Holds T := ⟨by simp, by simp⟩

theorem Holds.add {b : Nesting} (h : b.Holds T) {n : Node} (hn : T.node n) : (b.add [n]).Holds T := by
  obtain ⟨roots, stack⟩ := b
  have hnodes : ∀ m ∈ [n], T.node m := by simpa using hn
  cases stack with
  | nil => exact ⟨List.forall_mem_append.mpr ⟨hnodes, h.roots⟩, h.stack⟩
  | cons f rest =>
      obtain ⟨hf, hrest⟩ := List.forall_mem_cons.mp h.stack
      exact ⟨h.roots, List.forall_mem_cons.mpr ⟨hf.add hnodes, hrest⟩⟩

theorem Holds.push {b : Nesting} (h : b.Holds T) {f : Frame} (hf : f.Holds T) :
    Holds T ⟨b.roots, f :: b.stack⟩ :=
  ⟨h.roots, List.forall_mem_cons.mpr ⟨hf, h.stack⟩⟩

theorem Holds.step (hT : Composes T) {mode : Mode} {b b' : Nesting} {item : Item} (h : b.Holds T)
    (hitem : item.Holds T) (hstep : b.step mode item = .ok b') : b'.Holds T := by
  have hnone : ∀ n ∈ ([] : List Node), T.node n := by simp
  cases item with
  | leaf node =>
      cases hstep
      exact h.add hitem
  | openElement name attributes span =>
      obtain ⟨_, rfl⟩ := openFrame_ok hstep
      exact h.push ⟨hitem.1, hitem.2, hnone⟩
  | closeElement name span =>
      obtain ⟨f, rest, hstack, ⟨_, rfl⟩ | ⟨_, rfl⟩⟩ := closeElement_ok hstep
      · have hall := h.stack
        rw [hstack] at hall
        obtain ⟨hf, hrest⟩ := List.forall_mem_cons.mp hall
        have hbelow : Holds T ⟨b.roots, rest⟩ := ⟨h.roots, hrest⟩
        exact hbelow.add (hf.close hT _)
      · exact h.add (hT.danglingClose hitem)
  | openTag head =>
      rcases openTag_ok hstep with ⟨_, _, rfl⟩ | ⟨_, _, rfl⟩
      · have hblock : (Frame.block head []).Holds T := ⟨hitem, hnone⟩
        exact h.push hblock
      · exact h.push ⟨hitem, by simp, hT.firstBranch head.span, hnone⟩
  | openBranch name head =>
      obtain ⟨pending, tag, closed, current, children, rest, hclose, rfl⟩ := openBranch_ok hstep
      obtain ⟨hpending, hall⟩ := Frame.holds_closeElements hT head.span.lo hnone h.stack
      rw [hclose] at hpending hall
      obtain ⟨⟨hhead, hclosed, hcurrent, hchildren⟩, hrest⟩ := List.forall_mem_cons.mp hall
      refine ⟨h.roots, List.forall_mem_cons.mpr ⟨⟨hhead, ?_, hitem, hnone⟩, hrest⟩⟩
      refine List.forall_mem_cons.mpr ⟨⟨hcurrent, ?_⟩, hclosed⟩
      intro n hn
      exact List.forall_mem_append.mpr ⟨hpending, hchildren⟩ n (List.mem_reverse.mp hn)
  | closeTag close =>
      obtain ⟨pending, f, rest, hclose, _, _, rfl⟩ := closeTag_ok hstep
      obtain ⟨hpending, hall⟩ := Frame.holds_closeElements hT close.span.lo hnone h.stack
      rw [hclose] at hpending hall
      obtain ⟨hf, hrest⟩ := List.forall_mem_cons.mp hall
      have hbelow : Holds T ⟨b.roots, rest⟩ := ⟨h.roots, hrest⟩
      exact hbelow.add ((hf.add hpending).close hT _)

theorem Holds.feed (hT : Composes T) {o : Options} {b b' : Nesting} {ts : List Token}
    (h : b.Holds T) (hts : ∀ t ∈ ts, ∀ item, complete o t = .ok item → item.Holds T)
    (hfeed : feed o b ts = .ok b') : b'.Holds T := by
  induction ts generalizing b with
  | nil =>
      cases hfeed
      exact h
  | cons t ts ih =>
      obtain ⟨ht, hts⟩ := List.forall_mem_cons.mp hts
      rw [Nesting.feed] at hfeed
      obtain ⟨item, hitem, hfeed⟩ := bind_eq_ok.mp hfeed
      obtain ⟨b₁, hstep, hfeed⟩ := bind_eq_ok.mp hfeed
      exact ih (h.step hT (ht item hitem) hstep) hts hfeed

theorem Holds.finish (hT : Composes T) {o : Options} {stop : Nat} {b : Nesting} {nodes : List Node}
    (h : b.Holds T) (hfinish : b.finish o stop = .ok nodes) : ∀ n ∈ nodes, T.node n := by
  have hroots := h.roots
  have hnone : ∀ n ∈ ([] : List Node), T.node n := by simp
  have hall := Frame.holds_closeAll hT stop hnone h.stack
  unfold Nesting.finish at hfinish
  split at hfinish
  · cases hfinish
    intro n hn
    exact hroots n (List.mem_reverse.mp hn)
  · split at hfinish
    · cases hfinish
      intro n hn
      exact List.forall_mem_append.mpr ⟨hall, hroots⟩ n (List.mem_reverse.mp hn)
    · cases hfinish

end Nesting

/-- A property that composes holds of a tree if it holds of the tokens that the tree is made of. -/
theorem Node.holds_ofTokens (hT : Composes T) {o : Options} {stop : Nat} {ts : List Token}
    {nodes : List Node}
    (hts : ∀ t ∈ ts, ∀ item, Nesting.complete o t = .ok item → item.Holds T)
    (h : Node.ofTokens o stop ts = .ok nodes) : ∀ n ∈ nodes, T.node n := by
  obtain ⟨b, hfeed, hfinish⟩ := bind_eq_ok.mp h
  exact (Nesting.holds_empty.feed hT hts hfeed).finish hT hfinish

end LiquidTemplate
