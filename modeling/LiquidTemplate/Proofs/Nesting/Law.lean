import LiquidTemplate.Proofs.Citation.Document

namespace LiquidTemplate

/-- What is asked of the nodes of a tree while it is built. -/
structure Law where
  /-- Of a node, with the nodes directly in it. -/
  node : Node → Prop
  /-- Of a node that is put into the construct around it, or stands at the top. -/
  part : Node → Prop
  /-- Of an open construct, with what it holds so far. -/
  frame : Frame → Prop
  /-- Of an element that is closed by implication at the offset. -/
  left : Nat → Node → Prop
  /-- Of a token. -/
  item : Item → Prop

def Node.isSimple : Node → Bool
  | element .. | danglingClose .. | block .. | branched .. => false
  | _ => true

namespace Law

def Admits (L : Law) (n : Node) : Prop := L.node n ∧ L.part n

/-- Every step under the options keeps to the law. At most one node waits to be put into a construct
that is closed: the outermost element that was left open in it. -/
structure Kept (L : Law) (o : Options) : Prop where
  simple : ∀ {n}, n.isSimple → L.item (.leaf n) → (∀ m ∈ n.nested, L.part m) → L.Admits n
  openElement : ∀ {name attributes span}, L.item (.openElement name attributes span) →
    (∀ n ∈ attributes, L.part n) → L.frame (.element name attributes span [])
  openBlock : ∀ {head}, TagName.isBranching head.name = false → L.frame (.block head [])
  openBranched : ∀ {head}, TagName.isBranching head.name →
    L.frame (.branched head [] (Nesting.firstBranch head.span) [])
  add : ∀ {f n}, L.frame f → L.part n → L.frame (f.add [n])
  dangle : ∀ {f name span}, L.frame f → Nesting.closesTop (nameText name) [f] = false →
    Nesting.acceptsDangling o.mode [f] →
    L.node (.danglingClose name span) ∧ L.frame (f.add [.danglingClose name span])
  leave : ∀ {f offset} {last : Option Node}, L.frame f → f.isElement → (∀ n ∈ last, L.left offset n) →
    L.node ((f.add last.toList).close (Frame.implied offset)) ∧
      L.left offset ((f.add last.toList).close (Frame.implied offset))
  turn : ∀ {tag closed current children name} {head : TagHead} {last : Option Node},
    L.frame (.branched tag closed current children) → (∀ n ∈ last, L.left head.span.lo n) →
    L.frame (.branched tag (.mk current (last.toList ++ children).reverse (.point head.span.lo) :: closed)
      ⟨some name, head.markup, head.trim, head.span⟩ [])
  closeElement : ∀ {f name span}, L.frame f → f.isElement → L.item (.closeElement name span) →
    L.Admits (f.close ⟨{}, span⟩)
  closeTag : ∀ {f} {close : TagClose} {last : Option Node}, L.frame f → f.tagName? = some close.name →
    (∀ n ∈ last, L.left close.span.lo n) → (last = none ∨ TagName.isConditional close.name) →
    L.Admits ((f.add last.toList).close ⟨close.trim, close.span⟩)
  finish : ∀ {f stop} {last : Option Node}, o.allowUnclosed → L.frame f → (∀ n ∈ last, L.part n) →
    L.Admits ((f.add last.toList).close (Frame.implied stop))

end Law

namespace Frame

def contents : Frame → List Node
  | element _ attributes _ children => attributes ++ children
  | block _ children => children
  | branched _ closed _ children => closed.flatMap Branch.children ++ children

theorem mem_contents_add {f : Frame} {nodes : List Node} {n : Node} :
    n ∈ (f.add nodes).contents ↔ n ∈ nodes ∨ n ∈ f.contents := by
  cases f with
  | element name attributes opening children => simp [add, contents, or_left_comm]
  | block head children => simp [add, contents]
  | branched head closed current children =>
      simp only [add, contents, List.mem_append]
      exact or_left_comm

theorem mem_nested_close {f : Frame} {closing : Closing} {n : Node} :
    n ∈ (f.close closing).nested ↔ n ∈ f.contents := by
  cases f with
  | element name attributes opening children => simp [close, contents, Node.nested]
  | block head children => simp [close, contents, Node.nested]
  | branched head closed current children =>
      simp only [close, Node.nested, gather_cons, contents]
      simp [Branch.children]

end Frame

variable {L : Law} {o : Options}

structure Frame.Obeys (L : Law) (f : Frame) : Prop where
  frame : L.frame f
  contents : ∀ n ∈ f.contents, n.All L.node

structure Node.Obeys (L : Law) (n : Node) : Prop where
  all : n.All L.node
  part : L.part n

/-- An element that waits to be put into the construct around it. -/
structure Node.Waits (L : Law) (offset : Nat) (n : Node) : Prop where
  all : n.All L.node
  left : L.left offset n

namespace Frame

variable {f : Frame} {nodes : List Node} {last : Option Node}

theorem all_add (hnodes : ∀ n ∈ nodes, n.All L.node) (hf : ∀ n ∈ f.contents, n.All L.node) :
    ∀ n ∈ (f.add nodes).contents, n.All L.node := by
  intro n hn
  rcases mem_contents_add.mp hn with hn | hn
  · exact hnodes n hn
  · exact hf n hn

theorem all_close {closing : Closing} (hf : ∀ n ∈ f.contents, n.All L.node) (h : L.node (f.close closing)) :
    (f.close closing).All L.node :=
  .mk h fun n hn => hf n (mem_nested_close.mp hn)

theorem all_shut {closing : Closing} (hf : f.Obeys L) (hlast : ∀ n ∈ last, n.All L.node)
    (h : L.node ((f.add last.toList).close closing)) : ((f.add last.toList).close closing).All L.node :=
  all_close (all_add (by simpa using hlast) hf.contents) h

/-- Elements that are closed by implication leave at most one node that waits. -/
theorem obeys_closeElements (hL : L.Kept o) (offset : Nat) (last : Option Node)
    (hlast : ∀ n ∈ last, n.Waits L offset) {stack : List Frame} (hstack : ∀ f ∈ stack, f.Obeys L) :
    ∃ last' : Option Node, (closeElements offset last.toList stack).1 = last'.toList ∧
      (∀ n ∈ last', n.Waits L offset) ∧ ∀ f ∈ (closeElements offset last.toList stack).2, f.Obeys L := by
  induction stack generalizing last with
  | nil => exact ⟨last, rfl, hlast, hstack⟩
  | cons f rest ih =>
      obtain ⟨hf, hrest⟩ := List.forall_mem_cons.mp hstack
      by_cases helement : f.isElement
      · obtain ⟨hnode, hleft⟩ := hL.leave hf.frame helement fun n hn => (hlast n hn).left
        have hwaits : ((f.add last.toList).close (implied offset)).Waits L offset :=
          ⟨all_shut hf (fun n hn => (hlast n hn).all) hnode, hleft⟩
        rw [closeElements, if_pos helement]
        exact ih (some _) (by simpa using hwaits) hrest
      · rw [closeElements, if_neg helement]
        exact ⟨last, rfl, hlast, hstack⟩

theorem obeys_closeAll (hL : L.Kept o) (ho : o.allowUnclosed) (stop : Nat) (last : Option Node)
    (hlast : ∀ n ∈ last, n.Obeys L) {stack : List Frame} (hstack : ∀ f ∈ stack, f.Obeys L) :
    ∀ n ∈ closeAll stop last.toList stack, n.Obeys L := by
  induction stack generalizing last with
  | nil => simpa [closeAll] using hlast
  | cons f rest ih =>
      obtain ⟨hf, hrest⟩ := List.forall_mem_cons.mp hstack
      have hshut : ((f.add last.toList).close (implied stop)).Obeys L := by
        obtain ⟨hnode, hpart⟩ := hL.finish ho hf.frame fun n hn => (hlast n hn).part
        exact ⟨all_shut hf (fun n hn => (hlast n hn).all) hnode, hpart⟩
      rw [closeAll]
      exact ih (some _) (by simpa using hshut) hrest

end Frame

def Item.Obeys (L : Law) : Item → Prop
  | leaf node => node.Obeys L
  | openElement name attributes span =>
    L.item (.openElement name attributes span) ∧ ∀ n ∈ attributes, n.Obeys L
  | item => L.item item

namespace Nesting

variable {b b' : Nesting}

structure Obeys (L : Law) (b : Nesting) : Prop where
  roots : ∀ n ∈ b.roots, n.Obeys L
  stack : ∀ f ∈ b.stack, f.Obeys L

theorem obeys_empty : ({} : Nesting).Obeys L := ⟨by simp, by simp⟩

theorem Obeys.add (hL : L.Kept o) (h : b.Obeys L) {n : Node} (hn : n.Obeys L) : (b.add [n]).Obeys L := by
  obtain ⟨roots, stack⟩ := b
  cases stack with
  | nil => exact ⟨List.forall_mem_cons.mpr ⟨hn, h.roots⟩, h.stack⟩
  | cons f rest =>
      obtain ⟨hf, hrest⟩ := List.forall_mem_cons.mp h.stack
      refine ⟨h.roots, List.forall_mem_cons.mpr ⟨⟨hL.add hf.frame hn.part, ?_⟩, hrest⟩⟩
      exact Frame.all_add (by simpa using hn.all) hf.contents

theorem Obeys.push (h : b.Obeys L) {f : Frame} (hf : f.Obeys L) : Obeys L ⟨b.roots, f :: b.stack⟩ :=
  ⟨h.roots, List.forall_mem_cons.mpr ⟨hf, h.stack⟩⟩

theorem Obeys.closeElement (hL : L.Kept o) (h : b.Obeys L) {name : List Piece} {span : Span}
    (hitem : L.item (.closeElement name span)) (hstep : b.closeElement o.mode name span = .ok b') :
    b'.Obeys L := by
  obtain ⟨roots, stack⟩ := b
  cases stack with
  | nil => cases hstep
  | cons f rest =>
      obtain ⟨hf, hrest⟩ := List.forall_mem_cons.mp h.stack
      simp only [Nesting.closeElement] at hstep
      by_cases htop : closesTop (nameText name) (f :: rest)
      · rw [if_pos htop] at hstep
        cases hstep
        have helement : f.isElement := by
          cases f with
          | element => rfl
          | block | branched => cases htop
        obtain ⟨hnode, hpart⟩ := hL.closeElement hf.frame helement hitem
        have hbelow : Obeys L ⟨roots, rest⟩ := ⟨h.roots, hrest⟩
        exact hbelow.add hL ⟨Frame.all_close hf.contents hnode, hpart⟩
      · rw [if_neg htop] at hstep
        split at hstep
        · rename_i hdangling
          cases hstep
          have htop' : closesTop (nameText name) [f] = false := by
            cases f with
            | element => simpa [closesTop] using htop
            | block | branched => rfl
          have hdangling' : acceptsDangling o.mode [f] := by
            cases f with
            | element | block | branched => exact hdangling
          obtain ⟨hnode, hframe⟩ := hL.dangle hf.frame htop' hdangling'
          have hall : (Node.danglingClose name span).All L.node := .mk hnode (by simp [Node.nested])
          refine ⟨h.roots, List.forall_mem_cons.mpr ⟨⟨hframe, ?_⟩, hrest⟩⟩
          exact Frame.all_add (by simpa using hall) hf.contents
        · cases hstep

theorem Obeys.openBranch (hL : L.Kept o) (h : b.Obeys L) {name : String} {head : TagHead}
    (hstep : b.openBranch name head = .ok b') : b'.Obeys L := by
  obtain ⟨pending, tag, closed, current, children, rest, hclose, rfl⟩ := openBranch_ok hstep
  obtain ⟨last, hpending, hlast, hall⟩ :=
    Frame.obeys_closeElements hL head.span.lo none (by simp) h.stack
  rw [Option.toList_none, hclose] at hpending hall
  subst hpending
  obtain ⟨hf, hrest⟩ := List.forall_mem_cons.mp hall
  refine ⟨h.roots, List.forall_mem_cons.mpr ⟨⟨hL.turn hf.frame fun n hn => (hlast n hn).left, ?_⟩, hrest⟩⟩
  have hwaiting : ∀ n ∈ last.toList, n.All L.node := by simpa using fun n hn => (hlast n hn).all
  have hcontents := Frame.all_add hwaiting hf.contents
  intro n hn
  apply hcontents
  simp only [Frame.contents, Frame.add, List.flatMap_cons, Branch.children, List.mem_append,
    List.mem_reverse, List.not_mem_nil, or_false] at hn ⊢
  exact or_comm.mp hn

theorem Obeys.closeTag (hL : L.Kept o) (h : b.Obeys L) {close : TagClose}
    (hstep : b.closeTag close = .ok b') : b'.Obeys L := by
  obtain ⟨pending, f, rest, hclose, hname, hcross, rfl⟩ := closeTag_ok hstep
  obtain ⟨last, hpending, hlast, hall⟩ :=
    Frame.obeys_closeElements hL close.span.lo none (by simp) h.stack
  rw [Option.toList_none, hclose] at hpending hall
  subst hpending
  obtain ⟨hf, hrest⟩ := List.forall_mem_cons.mp hall
  have hcross' : last = none ∨ TagName.isConditional close.name := by
    simpa [List.isEmpty_iff] using hcross
  obtain ⟨hnode, hpart⟩ := hL.closeTag hf.frame hname (fun n hn => (hlast n hn).left) hcross'
  have hbelow : Obeys L ⟨b.roots, rest⟩ := ⟨h.roots, hrest⟩
  exact hbelow.add hL ⟨Frame.all_shut hf (fun n hn => (hlast n hn).all) hnode, hpart⟩

theorem Obeys.step (hL : L.Kept o) (h : b.Obeys L) {item : Item} (hitem : item.Obeys L)
    (hstep : b.step o.mode item = .ok b') : b'.Obeys L := by
  cases item with
  | leaf node =>
      cases hstep
      exact h.add hL hitem
  | openElement name attributes span =>
      obtain ⟨_, rfl⟩ := openFrame_ok hstep
      obtain ⟨hitem, hattributes⟩ := hitem
      refine h.push ⟨hL.openElement hitem fun n hn => (hattributes n hn).part, ?_⟩
      simpa [Frame.contents] using fun n hn => (hattributes n hn).all
  | closeElement name span => exact h.closeElement hL hitem hstep
  | openTag head =>
      rcases openTag_ok hstep with ⟨hname, _, rfl⟩ | ⟨hname, _, rfl⟩
      · exact h.push ⟨hL.openBlock hname, by simp [Frame.contents]⟩
      · exact h.push ⟨hL.openBranched hname, by simp [Frame.contents]⟩
  | openBranch name head => exact h.openBranch hL hstep
  | closeTag close => exact h.closeTag hL hstep

theorem Obeys.feed (hL : L.Kept o) {ts : List Token} (h : b.Obeys L)
    (hts : ∀ t ∈ ts, ∀ item, complete o t = .ok item → item.Obeys L) (hfeed : feed o b ts = .ok b') :
    b'.Obeys L := by
  induction ts generalizing b with
  | nil =>
      cases hfeed
      exact h
  | cons t ts ih =>
      obtain ⟨ht, hts⟩ := List.forall_mem_cons.mp hts
      rw [Nesting.feed] at hfeed
      obtain ⟨item, hitem, hfeed⟩ := bind_eq_ok.mp hfeed
      obtain ⟨b₁, hstep, hfeed⟩ := bind_eq_ok.mp hfeed
      exact ih (h.step hL (ht item hitem) hstep) hts hfeed

theorem Obeys.finish (hL : L.Kept o) {stop : Nat} {nodes : List Node} (h : b.Obeys L)
    (hfinish : b.finish o stop = .ok nodes) : ∀ n ∈ nodes, n.Obeys L := by
  have hroots := h.roots
  unfold Nesting.finish at hfinish
  split at hfinish
  · cases hfinish
    simpa using hroots
  · split at hfinish
    · rename_i ho
      cases hfinish
      have hall := Frame.obeys_closeAll hL ho stop none (by simp) h.stack
      intro n hn
      exact List.forall_mem_append.mpr ⟨hall, hroots⟩ n (List.mem_reverse.mp hn)
    · cases hfinish

end Nesting

theorem Node.obeys_ofTokens (hL : L.Kept o) {stop : Nat} {ts : List Token} {nodes : List Node}
    (hts : ∀ t ∈ ts, ∀ item, Nesting.complete o t = .ok item → item.Obeys L)
    (h : Node.ofTokens o stop ts = .ok nodes) : ∀ n ∈ nodes, n.Obeys L := by
  obtain ⟨b, hfeed, hfinish⟩ := bind_eq_ok.mp h
  exact (Nesting.obeys_empty.feed hL hts hfeed).finish hL hfinish

theorem Law.Kept.obeys_simple (hL : L.Kept o) {n : Node} (hn : n.isSimple) (hitem : L.item (.leaf n))
    (h : ∀ m ∈ n.nested, m.Obeys L) : n.Obeys L := by
  obtain ⟨hnode, hpart⟩ := hL.simple hn hitem fun m hm => (h m hm).part
  exact ⟨.mk hnode fun m hm => (h m hm).all, hpart⟩

/-- A token is completed to one that keeps to the law, if the trees of the tokens in it do. -/
theorem Nesting.complete_obeys (hL : L.Kept o) {t : Token} {item : Item} (hitem : L.item item)
    (hnested : ∀ (o' : Options) (stop : Nat) (ts : List Token) (nodes : List Node),
      o' = o.nested ∨ o' = .rawBody → ts ⊆ t.nested → Node.ofTokens o' stop ts = .ok nodes →
      ∀ n ∈ nodes, n.Obeys L)
    (h : complete o t = .ok item) : item.Obeys L := by
  have hregion : ∀ {o' : Options} {stop : Nat} {ts : List Token} {b : Nesting} {nodes : List Node},
      o' = o.nested ∨ o' = .rawBody → ts ⊆ t.nested → feed o' {} ts = .ok b → b.finish o' stop = .ok nodes →
      ∀ n ∈ nodes, n.Obeys L := by
    intro o' stop ts b nodes ho hts hfeed hfinish
    exact hnested o' stop ts nodes ho hts (bind_eq_ok.mpr ⟨b, hfeed, hfinish⟩)
  cases t with
  | rawElement e attributes body =>
      simp only [complete, bind_eq_ok, pure_eq_ok] at h
      obtain ⟨b, hfeed, nodes, hfinish, b', hfeed', nodes', hfinish', rfl⟩ := h
      have hattributes := hregion (.inl rfl) (List.subset_append_left _ _) hfeed hfinish
      have hbody := hregion (.inr rfl) (List.subset_append_right _ _) hfeed' hfinish'
      exact hL.obeys_simple rfl hitem (List.forall_mem_append.mpr ⟨hattributes, hbody⟩)
  | voidElement | selfClosing | valueAttribute | statements =>
      simp only [complete, bind_eq_ok, pure_eq_ok] at h
      obtain ⟨b, hfeed, nodes, hfinish, rfl⟩ := h
      exact hL.obeys_simple rfl hitem (hregion (.inl rfl) (List.Subset.refl _) hfeed hfinish)
  | rawTag =>
      simp only [complete, bind_eq_ok, pure_eq_ok] at h
      obtain ⟨b, hfeed, nodes, hfinish, rfl⟩ := h
      exact hL.obeys_simple rfl hitem (hregion (.inr rfl) (List.Subset.refl _) hfeed hfinish)
  | elementOpen =>
      simp only [complete, bind_eq_ok, pure_eq_ok] at h
      obtain ⟨b, hfeed, nodes, hfinish, rfl⟩ := h
      exact ⟨hitem, hregion (.inl rfl) (List.Subset.refl _) hfeed hfinish⟩
  | tag tag =>
      unfold complete at h
      split at h
      · cases h
        exact hitem
      · cases h
        exact hL.obeys_simple rfl hitem (by simp [Node.nested])
  | elementClose | tagOpen | tagClose =>
      cases h
      exact hitem
  | _ =>
      cases h
      exact hL.obeys_simple rfl hitem (by simp [Node.nested])

theorem Token.sizeOf_nested {t u : Token} (h : u ∈ t.nested) : sizeOf u < sizeOf t := by
  have hlt := List.sizeOf_lt_of_mem h
  cases t with
  | rawElement e attributes body =>
      rcases List.mem_append.mp h with h | h
      · have := List.sizeOf_lt_of_mem h
        simp only [rawElement.sizeOf_spec]
        omega
      · have := List.sizeOf_lt_of_mem h
        simp only [rawElement.sizeOf_spec]
        omega
  | voidElement | selfClosing | elementOpen | valueAttribute | statements | rawTag =>
      simp only [nested] at hlt
      simp only [voidElement.sizeOf_spec, selfClosing.sizeOf_spec, elementOpen.sizeOf_spec,
        valueAttribute.sizeOf_spec, statements.sizeOf_spec, rawTag.sizeOf_spec]
      omega
  | _ => cases h

theorem Token.all_of_forall {P : Token → Prop} (h : ∀ t, P t) (t : Token) : t.All P :=
  .mk (h t) fun u _ => all_of_forall h u
termination_by sizeOf t
decreasing_by exact sizeOf_nested ‹_›

section Tokens

variable {Q : Token → Prop} (modes : Mode → Prop) (hL : ∀ o : Options, modes o.mode → L.Kept o)
  (htolerant : modes .tolerant)
  (hitems : ∀ {t : Token} {o : Options} {item : Item}, Q t → Nesting.complete o t = .ok item → L.item item)

include hL htolerant hitems

theorem Nesting.complete_obeys_of_all {t : Token} (ht : t.All Q) {o : Options} (ho : modes o.mode) {item : Item}
    (h : complete o t = .ok item) : item.Obeys L := by
  induction ht generalizing o item with
  | mk ht _ ih =>
      refine complete_obeys (hL o ho) (hitems ht h) ?_ h
      intro o' stop ts nodes ho' hts hnodes
      have hmode : modes o'.mode := by
        rcases ho' with rfl | rfl
        · exact ho
        · exact htolerant
      apply Node.obeys_ofTokens (hL o' hmode) _ hnodes
      intro u hu item hitem
      exact ih u (hts hu) hmode hitem

/-- A law that every step keeps holds of a tree at any depth. -/
theorem Node.obeys_of_all {o : Options} (ho : modes o.mode) {stop : Nat} {ts : List Token}
    (hts : ∀ t ∈ ts, t.All Q) {nodes : List Node} (h : Node.ofTokens o stop ts = .ok nodes) :
    ∀ n ∈ nodes, n.Obeys L := by
  apply Node.obeys_ofTokens (hL o ho) _ h
  intro t ht item hitem
  exact Nesting.complete_obeys_of_all modes hL htolerant hitems (hts t ht) ho hitem

end Tokens

theorem Node.obeys_of_forall (modes : Mode → Prop) (hL : ∀ o : Options, modes o.mode → L.Kept o)
    (htolerant : modes .tolerant) (hitem : ∀ item, L.item item) (ho : modes o.mode) {stop : Nat}
    {ts : List Token} {nodes : List Node} (h : Node.ofTokens o stop ts = .ok nodes) : ∀ n ∈ nodes, n.Obeys L := by
  have hts : ∀ t ∈ ts, t.All fun _ => True := fun t _ => Token.all_of_forall (fun _ => trivial) t
  exact obeys_of_all modes hL htolerant (fun _ _ => hitem _) ho hts h

theorem snoc_eq_append_cons {α : Type} {xs before after : List α} {x y : α}
    (h : xs ++ [x] = before ++ y :: after) :
    (after = [] ∧ before = xs ∧ y = x) ∨ ∃ init, after = init ++ [x] ∧ xs = before ++ y :: init := by
  rcases after.eq_nil_or_concat with rfl | ⟨init, last, rfl⟩
  · obtain ⟨rfl, hlast⟩ := List.append_inj' h rfl
    cases hlast
    exact .inl ⟨rfl, rfl, rfl⟩
  · rw [List.concat_eq_append, ← List.cons_append, ← List.append_assoc] at h
    obtain ⟨rfl, hlast⟩ := List.append_inj' h rfl
    cases hlast
    exact .inr ⟨init, List.concat_eq_append, rfl⟩

end LiquidTemplate
