import LiquidTemplate.Proofs.Nesting.Steps
import LiquidTemplate.Proofs.Nesting.Language

namespace LiquidTemplate

namespace Nesting

def Completes (o : Options) (ts : List Token) : Prop := ∀ t ∈ ts, ∃ item, complete o t = .ok item

theorem Completes.of_cons {o : Options} {t : Token} {ts : List Token} (h : Completes o (t :: ts)) :
    (∃ item, complete o t = .ok item) ∧ Completes o ts :=
  ⟨h t (by simp), fun u hu => h u (by simp [hu])⟩

theorem Completes.of_append {o : Options} {xs ys : List Token} (h : Completes o (xs ++ ys)) :
    Completes o xs ∧ Completes o ys :=
  ⟨fun u hu => h u (by simp [hu]), fun u hu => h u (by simp [hu])⟩

theorem complete_leaf {o : Options} {t : Token} {item : Item} (ht : t.isLeaf)
    (h : complete o t = .ok item) : ∃ node, item = .leaf node ∧ node.isDanglingClose = false := by
  cases t with
  | elementOpen | elementClose | tagOpen | tagClose => cases ht
  | tag tag =>
    have hname : TagName.isBranch tag.name = false := by simpa [Token.isLeaf] using ht
    rw [complete, hname] at h
    cases h
    exact ⟨_, rfl, rfl⟩
  | rawElement | voidElement | selfClosing | valueAttribute | statements | rawTag =>
    simp only [complete, bind_eq_ok, pure_eq_ok] at h
    grind [Node.isDanglingClose]
  | _ =>
    cases h
    exact ⟨_, rfl, rfl⟩

theorem complete_elementOpen {o : Options} {name : List Piece} {attributes : List Token}
    {span : Span} {item : Item} (h : complete o (.elementOpen name attributes span) = .ok item) :
    ∃ nodes, item = .openElement name nodes span := by
  simp only [complete, bind_eq_ok, pure_eq_ok] at h
  obtain ⟨_, _, nodes, _, rfl⟩ := h
  exact ⟨nodes, rfl⟩

theorem complete_branch (o : Options) {tag : Tag} (h : TagName.isBranch tag.name) :
    complete o (.tag tag) = .ok (.openBranch tag.name tag.head) := by
  rw [complete, if_pos h]

end Nesting

open Nesting

/-- What a phrase does to the open constructs: a balanced phrase only adds nodes to the innermost
one, a tail may leave elements open above it, and the other phrases are taken by an open branch. -/
def Taken (o : Options) : Phrase → Nat → List Token → Prop
  | .balanced, d, ts => ∀ b : Nesting, Frame.depth b.stack + d ≤ maxDepth →
      ∃ nodes, feed o b ts = .ok (b.add nodes)
  | .tail, d, ts => ∀ b : Nesting, Frame.depth b.stack + d ≤ maxDepth →
      ∃ es nodes, (∀ e ∈ es, e.isElement) ∧
        feed o b ts = .ok ⟨(b.add nodes).roots, es ++ (b.add nodes).stack⟩
  | .segment, d, ts => ∀ roots head closed current children rest,
      TagName.isConditional head.name → children.all Node.isDanglingClose →
      Frame.depth (.branched head closed current children :: rest) + d ≤ maxDepth →
      ∃ es children', (∀ e ∈ es, e.isElement) ∧
        feed o ⟨roots, .branched head closed current children :: rest⟩ ts =
          .ok ⟨roots, es ++ .branched head closed current children' :: rest⟩
  | .body conditional, d, ts => ∀ roots head closed current rest,
      TagName.isConditional head.name = conditional →
      Frame.depth (.branched head closed current [] :: rest) + d ≤ maxDepth →
      ∃ es closed' current' children', (∀ e ∈ es, e.isElement) ∧ (conditional = false → es = []) ∧
        feed o ⟨roots, .branched head closed current [] :: rest⟩ ts =
          .ok ⟨roots, es ++ .branched head closed' current' children' :: rest⟩

theorem feed_openElement {o : Options} {b : Nesting} {name : List Piece} {attributes : List Token}
    {span : Span} (hdepth : Frame.depth b.stack < maxDepth) (ts : List Token)
    (h : ∃ item, complete o (.elementOpen name attributes span) = .ok item) :
    ∃ nodes, feed o b (.elementOpen name attributes span :: ts) =
      feed o ⟨b.roots, .element name nodes span [] :: b.stack⟩ ts := by
  obtain ⟨item, hitem⟩ := h
  obtain ⟨nodes, rfl⟩ := complete_elementOpen hitem
  exact ⟨nodes, feed_cons hitem (by simp [step, openFrame, Nat.not_le.mpr hdepth])⟩

/-- The branch tag ends the open branch, whatever elements are open in it. -/
theorem feed_branch (o : Options) {tag : Tag} (htag : TagName.isBranch tag.name)
    (roots : List Node) {es : List Frame} (hes : ∀ e ∈ es, e.isElement) (head : TagHead)
    (closed : List Branch) (current : BranchHead) (children : List Node) (rest : List Frame)
    (ts : List Token) : ∃ closed' current',
      feed o ⟨roots, es ++ .branched head closed current children :: rest⟩ (.tag tag :: ts) =
        feed o ⟨roots, .branched head closed' current' [] :: rest⟩ ts := by
  obtain ⟨nodes, hclose, _⟩ := Frame.closeElements_append tag.head.span.lo [] hes
    (f := .branched head closed current children) rfl rest
  exact ⟨_, _, feed_cons (complete_branch o htag) (by rw [step, openBranch, hclose])⟩

/-- The closing tag ends the innermost tag, with elements left open in it if it is conditional. -/
theorem feed_closeTag (o : Options) {close : TagClose} (roots : List Node) (es : List Frame)
    (hes : ∀ e ∈ es, e.isElement) (f : Frame) (hf : f.isElement = false)
    (hname : f.tagName? = some close.name)
    (hcross : TagName.isConditional close.name = false → es = []) (rest : List Frame)
    (ts : List Token) : ∃ nodes,
      feed o ⟨roots, es ++ f :: rest⟩ (.tagClose close :: ts) =
        feed o ((Nesting.mk roots rest).add nodes) ts := by
  obtain ⟨nodes, hclose, hempty⟩ := Frame.closeElements_append close.span.lo [] hes hf rest
  have hcond : nodes.isEmpty ∨ TagName.isConditional close.name := by
    cases hc : TagName.isConditional close.name with
    | true => exact .inr rfl
    | false => exact .inl (by simp [hempty (hcross hc)])
  refine ⟨[(f.add nodes).close ⟨close.trim, close.span⟩], feed_cons rfl ?_⟩
  rw [step, closeTag, hclose]
  exact if_pos ⟨hname, hcond⟩

/-- After the tag that ends an open branch, the branches that follow are taken. -/
theorem Taken.afterBranch {o : Options} {conditional : Bool} {d : Nat} {tag : Tag}
    {ts us : List Token} (htag : TagName.isBranch tag.name) (hus : Taken o (.body conditional) d us)
    {roots : List Node} {head : TagHead} {closed : List Branch} {current : BranchHead}
    {children : List Node} {es rest : List Frame} (hcond : TagName.isConditional head.name = conditional)
    (hdepth : Frame.depth (.branched head closed current [] :: rest) + d ≤ maxDepth)
    (hes : ∀ e ∈ es, e.isElement)
    (hfeed : feed o ⟨roots, .branched head closed current [] :: rest⟩ ts =
      .ok ⟨roots, es ++ .branched head closed current children :: rest⟩) :
    ∃ es' closed' current' children', (∀ e ∈ es', e.isElement) ∧ (conditional = false → es' = []) ∧
      feed o ⟨roots, .branched head closed current [] :: rest⟩ (ts ++ .tag tag :: us) =
        .ok ⟨roots, es' ++ .branched head closed' current' children' :: rest⟩ := by
  obtain ⟨closed₁, current₁, hbranch⟩ := feed_branch o htag roots hes head closed current children rest us
  obtain ⟨es₂, closed₂, current₂, children₂, hes₂, hcond₂, hrest⟩ :=
    hus roots head closed₁ current₁ rest hcond hdepth
  refine ⟨es₂, closed₂, current₂, children₂, hes₂, hcond₂, ?_⟩
  rw [feed_append_ok hfeed]
  exact hbranch.trans hrest

theorem Taken.element {o : Options} {d : Nat} {name name' : List Piece} {attributes : List Token}
    {span span' : Span} {inner ts : List Token} (hname : Text.sameCaseless (nameText name) (nameText name'))
    (hopen : ∃ item, complete o (.elementOpen name attributes span) = .ok item)
    (hinner : Taken o .balanced d inner) (hts : Taken o .balanced (d + 1) ts) :
    Taken o .balanced (d + 1) (.elementOpen name attributes span :: (inner ++ .elementClose name' span' :: ts)) := by
  intro b hdepth
  have hroom : Frame.depth b.stack < maxDepth := by omega
  obtain ⟨attributes', hfeed⟩ := feed_openElement hroom (inner ++ .elementClose name' span' :: ts) hopen
  obtain ⟨children, hchildren⟩ := hinner ⟨b.roots, .element name attributes' span [] :: b.stack⟩
    (by simp [Frame.depth, Frame.weight]; omega)
  let closed := (Frame.element name attributes' span (children ++ [])).close ⟨{}, span'⟩
  obtain ⟨nodes, hnodes⟩ := hts (b.add [closed]) (by simpa using hdepth)
  refine ⟨nodes ++ [closed], ?_⟩
  rw [hfeed, feed_append_ok hchildren, ← add_add, ← hnodes]
  refine feed_cons rfl ?_
  simp [step, closeElement, add, Frame.add, closesTop, hname, closed]

theorem Taken.block {o : Options} {d : Nat} {tag : Tag} {close : TagClose} {inner ts : List Token}
    (htag : TagName.isBranching tag.name = false) (hclose : close.name = tag.name)
    (hinner : Taken o .balanced d inner) (hts : Taken o .balanced (d + 1) ts) :
    Taken o .balanced (d + 1) (.tagOpen tag :: (inner ++ .tagClose close :: ts)) := by
  intro b hdepth
  have hopen : b.step o.mode (.openTag tag.head) = .ok ⟨b.roots, .block tag.head [] :: b.stack⟩ := by
    have hroom : ¬ maxDepth ≤ Frame.depth b.stack := by omega
    simp [step, openTag, openFrame, Tag.head, htag, hroom]
  obtain ⟨children, hchildren⟩ := hinner ⟨b.roots, .block tag.head [] :: b.stack⟩
    (by simp [Frame.depth, Frame.weight]; omega)
  obtain ⟨node, hnode⟩ := feed_closeTag o b.roots [] (by simp) (.block tag.head (children ++ [])) rfl
    (congrArg some hclose.symm) (fun _ => rfl) b.stack ts
  obtain ⟨nodes, hnodes⟩ := hts (b.add node) (by simpa using hdepth)
  refine ⟨nodes ++ node, ?_⟩
  rw [feed_cons rfl hopen, feed_append_ok hchildren]
  exact hnode.trans (hnodes.trans (by rw [add_add]))

/-- A tag with branches takes two levels, one of them for its first branch. -/
theorem Taken.branched {o : Options} {d : Nat} {tag : Tag} {close : TagClose} {inner ts : List Token}
    (htag : TagName.isBranching tag.name) (hclose : close.name = tag.name)
    (hinner : Taken o (.body (TagName.isConditional tag.name)) d inner) (hts : Taken o .balanced (d + 2) ts) :
    Taken o .balanced (d + 2) (.tagOpen tag :: (inner ++ .tagClose close :: ts)) := by
  intro b hdepth
  have hopen : b.step o.mode (.openTag tag.head) =
      .ok ⟨b.roots, .branched tag.head [] (firstBranch tag.span) [] :: b.stack⟩ := by
    have hroom : ¬ maxDepth ≤ Frame.depth b.stack := by omega
    have hroom' : ¬ Frame.depth b.stack + 1 = maxDepth := by omega
    simp [step, openTag, openFrame, Tag.head, htag, hroom, hroom']
  obtain ⟨es, closed, current, children, hes, hcond, hbody⟩ := hinner b.roots tag.head []
    (firstBranch tag.span) b.stack rfl (by simp [Frame.depth, Frame.weight]; omega)
  obtain ⟨node, hnode⟩ := feed_closeTag o b.roots es hes (.branched tag.head closed current children) rfl
    (congrArg some hclose.symm) (by rwa [hclose]) b.stack ts
  obtain ⟨nodes, hnodes⟩ := hts (b.add node) (by simpa using hdepth)
  refine ⟨nodes ++ node, ?_⟩
  rw [feed_cons rfl hopen, feed_append_ok hbody, hnode]
  exact hnodes.trans (by rw [add_add])

theorem Taken.unclosed {o : Options} {d : Nat} {name : List Piece} {attributes : List Token} {span : Span}
    {ts us : List Token} (hopen : ∃ item, complete o (.elementOpen name attributes span) = .ok item)
    (hts : Taken o .balanced (d + 1) ts) (hus : Taken o .tail d us) :
    Taken o .tail (d + 1) (ts ++ .elementOpen name attributes span :: us) := by
  intro b hdepth
  obtain ⟨nodes, hnodes⟩ := hts b hdepth
  have hroom : Frame.depth (b.add nodes).stack < maxDepth := by rw [depth_add]; omega
  obtain ⟨attributes', hfeed⟩ := feed_openElement hroom us hopen
  obtain ⟨es, children, hes, hrest⟩ := hus
    ⟨(b.add nodes).roots, .element name attributes' span [] :: (b.add nodes).stack⟩
    (by simp [Frame.depth, Frame.weight]; omega)
  refine ⟨es ++ [.element name attributes' span (children ++ [])], nodes, ?_, ?_⟩
  · intro e he
    rcases List.mem_append.mp he with he | he
    · exact hes e he
    · rw [List.mem_singleton.mp he]; rfl
  · rw [feed_append_ok hnodes, hfeed, hrest]
    simp [add, Frame.add]

theorem Nests.taken {o : Options} {p : Phrase} {d : Nat} {ts : List Token} (h : Nests p d ts)
    (hparts : Completes o ts) : Taken o p d ts := by
  induction h with
  | nil =>
      intro b _
      exact ⟨[], by simp [feed]⟩
  | leaf ht _ ih =>
      obtain ⟨⟨item, hitem⟩, hrest⟩ := hparts.of_cons
      obtain ⟨node, rfl, _⟩ := complete_leaf ht hitem
      intro b hdepth
      obtain ⟨nodes, hfeed⟩ := ih hrest (b.add [node]) (by simpa using hdepth)
      refine ⟨nodes ++ [node], ?_⟩
      rw [feed_cons hitem rfl, hfeed, add_add]
  | element hname _ _ ihinner ih =>
      obtain ⟨hopen, hrest⟩ := hparts.of_cons
      obtain ⟨hinner, hrest⟩ := hrest.of_append
      exact .element hname hopen (ihinner hinner) (ih hrest.of_cons.2)
  | block htag hclose _ _ ihinner ih =>
      obtain ⟨hinner, hrest⟩ := hparts.of_cons.2.of_append
      exact .block htag hclose (ihinner hinner) (ih hrest.of_cons.2)
  | branched htag hclose _ _ ihinner ih =>
      obtain ⟨hinner, hrest⟩ := hparts.of_cons.2.of_append
      exact .branched htag hclose (ihinner hinner) (ih hrest.of_cons.2)
  | shut _ ih =>
      intro b hdepth
      obtain ⟨nodes, hfeed⟩ := ih hparts b hdepth
      exact ⟨[], nodes, by simp, by simpa using hfeed⟩
  | unclosed _ _ ihts ihus =>
      obtain ⟨hts, hrest⟩ := hparts.of_append
      obtain ⟨hopen, hus⟩ := hrest.of_cons
      exact .unclosed hopen (ihts hts) (ihus hus)
  | plain _ ih =>
      intro roots head closed current children rest _ _ hdepth
      obtain ⟨es, nodes, hes, hfeed⟩ := ih hparts ⟨roots, .branched head closed current children :: rest⟩ hdepth
      exact ⟨es, nodes ++ children, hes, hfeed⟩
  | @dangling d name span ts _ ih =>
      intro roots head closed current children rest hcond hlead hdepth
      obtain ⟨es, children', hes, hfeed⟩ := ih hparts.of_cons.2 roots head closed current
        (.danglingClose name span :: children) rest hcond (by simpa [Node.isDanglingClose] using hlead) hdepth
      refine ⟨es, children', hes, ?_⟩
      rw [feed_cons rfl ?_, hfeed]
      simp [step, closeElement, closesTop, acceptsDangling, hcond, hlead, add, Frame.add]
  | lastTurn _ ih =>
      intro roots head closed current rest _ hdepth
      obtain ⟨nodes, hfeed⟩ := ih hparts ⟨roots, .branched head closed current [] :: rest⟩ hdepth
      exact ⟨[], closed, current, nodes ++ [], by simp, fun _ => rfl, hfeed⟩
  | @turn d tag ts us _ htag _ ihts ihus =>
      obtain ⟨hts, hrest⟩ := hparts.of_append
      intro roots head closed current rest hcond hdepth
      obtain ⟨es, nodes, hes, hfeed⟩ := ihts hts ⟨roots, .branched head closed current [] :: rest⟩ hdepth
      exact Taken.afterBranch htag (ihus hrest.of_cons.2) hcond hdepth hes hfeed
  | lastChoice _ ih =>
      intro roots head closed current rest hcond hdepth
      obtain ⟨es, children, hes, hfeed⟩ := ih hparts roots head closed current [] rest hcond rfl hdepth
      exact ⟨es, closed, current, children, hes, by simp, hfeed⟩
  | @choice d tag ts us _ htag _ ihts ihus =>
      obtain ⟨hts, hrest⟩ := hparts.of_append
      intro roots head closed current rest hcond hdepth
      obtain ⟨es, children, hes, hfeed⟩ := ihts hts roots head closed current [] rest hcond rfl hdepth
      exact Taken.afterBranch htag (ihus hrest.of_cons.2) hcond hdepth hes hfeed

end LiquidTemplate
