import Mathlib.Tactic.ByContra
import Mathlib.Tactic.Tauto
import LiquidTemplate.Proofs.Nesting.Taking
import LiquidTemplate.Proofs.Nesting.Continuation

namespace LiquidTemplate

open Level

theorem TagName.isBranching_of_isConditional {name : String} (h : isConditional name) :
    isBranching name := by
  simp only [isConditional, isBranching, List.contains_eq_mem, List.mem_cons, decide_eq_true_eq,
    List.not_mem_nil, or_false] at h ⊢
  tauto

def Frame.Sorted : Frame → Prop
  | element .. => True
  | block head _ => TagName.isBranching head.name = false
  | branched head .. => TagName.isBranching head.name

namespace Frame

@[simp]
theorem level_add (f : Frame) (nodes : List Node) : (f.add nodes).level = f.level := by
  cases f <;> rfl

@[simp]
theorem weight_level (f : Frame) : f.level.weight = f.weight := by
  cases f <;> rfl

@[simp]
theorem depth_map_level (stack : List Frame) : Level.depth (stack.map level) = depth stack := by
  induction stack with
  | nil => rfl
  | cons f rest ih => simp [Level.depth, depth, ih]

theorem sorted_add {f : Frame} (nodes : List Node) : (f.add nodes).Sorted ↔ f.Sorted := by
  cases f <;> rfl

theorem map_level_elements {es : List Frame} (hes : ∀ e ∈ es, e.isElement) :
    ∀ l ∈ es.map level, ∃ name, l = .element name := by
  intro l hl
  obtain ⟨f, hf, rfl⟩ := List.mem_map.mp hl
  cases f with
  | element name => exact ⟨name, rfl⟩
  | block | branched => cases hes _ hf

end Frame

namespace Nesting

def levels (b : Nesting) : List Level := b.stack.map Frame.level

/-- Whether only closings without an opening stand in the innermost branch so far. -/
def leading (b : Nesting) : Bool :=
  match b.stack with
  | .branched _ _ _ children :: _ => children.all Node.isDanglingClose
  | _ => false

def Sorted (b : Nesting) : Prop := ∀ f ∈ b.stack, f.Sorted

@[simp]
theorem levels_add (nodes : List Node) (b : Nesting) : (b.add nodes).levels = b.levels := by
  obtain ⟨roots, stack⟩ := b
  cases stack <;> simp [add, levels]

theorem sorted_add {nodes : List Node} {b : Nesting} : (b.add nodes).Sorted ↔ b.Sorted := by
  obtain ⟨roots, stack⟩ := b
  cases stack <;> simp [add, Sorted, Frame.sorted_add]

theorem leading_add {node : Node} (h : node.isDanglingClose = false) (b : Nesting) :
    (b.add [node]).leading = false := by
  obtain ⟨roots, stack⟩ := b
  rcases stack with _ | ⟨f, rest⟩
  · rfl
  · cases f <;> simp [add, Frame.add, leading, h]

/-- A branch tag is taken where a branch is open, whatever elements are open in it. -/
theorem openBranch_levels {b b' : Nesting} {name : String} {head : TagHead}
    (h : b.openBranch name head = .ok b') :
    ∃ es tag rest, (∀ e ∈ es, ∃ name, e = .element name) ∧
      b.levels = es ++ .branched tag :: rest ∧ b'.levels = .branched tag :: rest ∧ b'.leading := by
  obtain ⟨pending, tag, closed, current, children, rest, hclose, rfl⟩ := openBranch_ok h
  obtain ⟨es, hes, hsplit, _⟩ := Frame.closeElements_split head.span.lo [] b.stack
  rw [hclose] at hsplit
  refine ⟨es.map Frame.level, tag.name, rest.map Frame.level, Frame.map_level_elements hes, ?_, rfl, rfl⟩
  simp [levels, hsplit, Frame.level]

/-- A closing tag is taken where its tag is the innermost one, and if elements are open in that, it
is conditional. -/
theorem closeTag_levels {b b' : Nesting} {close : TagClose} (h : b.closeTag close = .ok b') :
    ∃ es f rest, (∀ e ∈ es, ∃ name, e = .element name) ∧ f ∈ b.stack ∧
      f.tagName? = some close.name ∧ (es = [] ∨ TagName.isConditional close.name) ∧
      b.levels = es ++ f.level :: rest ∧ b'.levels = rest ∧ b'.leading = false := by
  obtain ⟨pending, f, rest, hclose, hname, hcross, rfl⟩ := closeTag_ok h
  obtain ⟨es, hes, hsplit, hpending⟩ := Frame.closeElements_split close.span.lo [] b.stack
  rw [hclose] at hsplit hpending
  refine ⟨es.map Frame.level, f, rest.map Frame.level, Frame.map_level_elements hes, ?_, hname, ?_, ?_,
    levels_add _ _, leading_add (Frame.isDanglingClose_close _ _) _⟩
  · simp [hsplit]
  · rcases hcross with hempty | hcond
    · left
      by_contra hne
      exact hpending (fun he => hne (by simp [he])) (List.isEmpty_iff.mp hempty)
    · exact .inr hcond
  · simp [levels, hsplit]

/-- Outside of completion, a closing of an element is taken by the innermost element, or where it
may dangle. -/
theorem closeElement_levels {mode : Mode} {b b' : Nesting} {name : List Piece} {span : Span}
    (hmode : mode ≠ .completion) (h : b.closeElement mode name span = .ok b') :
    (∃ opened rest, b.levels = .element opened :: rest ∧ b'.levels = rest ∧ b'.leading = false ∧
      Text.sameCaseless (nameText opened) (nameText name)) ∨
    (∃ tag rest, b.levels = .branched tag :: rest ∧ b'.levels = b.levels ∧ b.leading ∧ b'.leading ∧
      TagName.isConditional tag) := by
  obtain ⟨f, rest, hstack, hcases⟩ := closeElement_ok h
  rcases hcases with ⟨htop, rfl⟩ | ⟨hdangling, rfl⟩
  · rw [hstack] at htop
    cases f with
    | element opened =>
        refine .inl ⟨opened, rest.map Frame.level, by simp [levels, hstack, Frame.level],
          levels_add _ _, leading_add (Frame.isDanglingClose_close _ _) _, htop⟩
    | block | branched => cases htop
  · rw [hstack] at hdangling
    cases f with
    | element => simp [acceptsDangling, hmode] at hdangling
    | block => cases hdangling
    | branched head closed current children =>
        simp only [acceptsDangling, Bool.and_eq_true] at hdangling
        refine .inr ⟨head.name, rest.map Frame.level, by simp [levels, hstack, Frame.level], by simp, ?_, ?_,
          hdangling.1⟩
        · simpa [leading, hstack] using hdangling.2
        · simpa [leading, hstack, add, Frame.add, Node.isDanglingClose] using hdangling.2

theorem sorted_step {mode : Mode} {b b' : Nesting} {item : Item} (hb : b.Sorted)
    (h : b.step mode item = .ok b') : b'.Sorted := by
  cases item with
  | leaf node =>
      cases h
      exact sorted_add.mpr hb
  | openElement name attributes span =>
      obtain ⟨_, rfl⟩ := openFrame_ok h
      exact List.forall_mem_cons.mpr ⟨trivial, hb⟩
  | closeElement name span =>
      obtain ⟨f, rest, hstack, ⟨_, rfl⟩ | ⟨_, rfl⟩⟩ := closeElement_ok h
      · refine sorted_add.mpr fun g hg => hb g ?_
        rw [hstack]
        exact List.mem_cons_of_mem f hg
      · exact sorted_add.mpr hb
  | openTag head =>
      rcases openTag_ok h with ⟨hname, _, rfl⟩ | ⟨hname, _, rfl⟩
      · exact List.forall_mem_cons.mpr ⟨hname, hb⟩
      · exact List.forall_mem_cons.mpr ⟨hname, hb⟩
  | openBranch name head =>
      obtain ⟨pending, tag, closed, current, children, rest, hclose, rfl⟩ := openBranch_ok h
      obtain ⟨es, _, hsplit, _⟩ := Frame.closeElements_split head.span.lo [] b.stack
      rw [hclose] at hsplit
      have hrest : ∀ f ∈ Frame.branched tag closed current children :: rest, f.Sorted :=
        fun f hf => hb f (by rw [hsplit]; exact List.mem_append_right es hf)
      rw [List.forall_mem_cons] at hrest
      exact List.forall_mem_cons.mpr hrest
  | closeTag close =>
      obtain ⟨pending, f, rest, hclose, _, _, rfl⟩ := closeTag_ok h
      obtain ⟨es, _, hsplit, _⟩ := Frame.closeElements_split close.span.lo [] b.stack
      rw [hclose] at hsplit
      refine sorted_add.mpr fun g hg => hb g ?_
      rw [hsplit]
      exact List.mem_append_right es (List.mem_cons_of_mem f hg)

theorem follows_closeTag {b b' : Nesting} {close : TagClose} {ts : List Token} (hb : b.Sorted)
    (h : b.closeTag close = .ok b') (hts : Follows b'.leading b'.levels ts) :
    Follows b.leading b.levels (.tagClose close :: ts) := by
  obtain ⟨es, f, rest, hes, hmem, hname, hcross, hlevels, hrest, hleading⟩ := closeTag_levels h
  rw [hleading, hrest] at hts
  rw [hlevels]
  have hsorted := hb f hmem
  cases f with
  | element => cases hname
  | block head children =>
      have hhead : head.name = close.name := by simpa [Frame.tagName?] using hname
      have hes : es = [] := by
        rcases hcross with hes | hcond
        · exact hes
        · have hbranching : TagName.isBranching close.name = false := hhead ▸ hsorted
          rw [TagName.isBranching_of_isConditional hcond] at hbranching
          cases hbranching
      subst hes
      rw [Frame.level, hhead]
      change Follows b.leading (.block close.name :: rest) ([] ++ .tagClose close :: ts)
      exact .closeBlock .nil hts
  | branched head closed current children =>
      have hhead : head.name = close.name := by simpa [Frame.tagName?] using hname
      rw [Frame.level, hhead]
      cases hcond : TagName.isConditional close.name with
      | true => exact (Breaks.elements hes (.close hcond hts)).follows
      | false =>
          obtain rfl : es = [] := by simpa [hcond] using hcross
          change Follows b.leading (.branched close.name :: rest) ([] ++ .tagClose close :: ts)
          exact .closeLoop hcond .nil hts

/-- A token is taken only where it may stand: what follows it, with the token in front, follows
what was open before it. -/
theorem follows_step {o : Options} (hmode : o.mode ≠ .completion) {b b' : Nesting} {t : Token}
    {item : Item} {ts : List Token} (hb : b.Sorted) (ht : complete o t = .ok item)
    (h : b.step o.mode item = .ok b') (hts : Follows b'.leading b'.levels ts) :
    Follows b.leading b.levels (t :: ts) := by
  by_cases hleaf : t.isLeaf
  · obtain ⟨node, rfl, hnode⟩ := complete_leaf hleaf ht
    cases h
    rw [leading_add hnode, levels_add] at hts
    exact hts.prepend (.leaf hleaf .nil)
  cases t with
  | elementOpen name attributes span =>
      obtain ⟨nodes, rfl⟩ := complete_elementOpen ht
      obtain ⟨hdepth, rfl⟩ := openFrame_ok h
      exact Follows.openElement (by simpa [levels] using hdepth) hts
  | elementClose name span =>
      cases ht
      rcases closeElement_levels hmode h with
        ⟨opened, rest, hlevels, hrest, hleading, hname⟩ | ⟨tag, rest, hlevels, hsame, hleading, hleading', hcond⟩
      · rw [hleading, hrest] at hts
        rw [hlevels]
        change Follows b.leading (.element opened :: rest) ([] ++ .elementClose name span :: ts)
        exact .closeElement hname .nil hts
      · rw [hleading', hsame, hlevels] at hts
        rw [hleading, hlevels]
        exact hts.dangling hcond
  | tagOpen tag =>
      cases ht
      rcases openTag_ok h with ⟨hname, hdepth, rfl⟩ | ⟨hname, hdepth, rfl⟩
      · exact Follows.openTag hname (by simpa [levels] using hdepth) hts
      · exact Follows.openBranchedTag hname (by simpa [levels] using hdepth) hts
  | tagClose close =>
      cases ht
      exact follows_closeTag hb h hts
  | tag tag =>
      have hname : TagName.isBranch tag.name := by simpa [Token.isLeaf] using hleaf
      rw [complete_branch o hname] at ht
      cases ht
      obtain ⟨es, name, rest, hes, hlevels, hlevels', hleading⟩ := openBranch_levels h
      rw [hleading, hlevels'] at hts
      rw [hlevels]
      exact hts.openBranch hname hes
  | _ => exact absurd rfl hleaf

/-- A run that closes everything was fed what follows its start. -/
theorem follows_feed {o : Options} (hmode : o.mode ≠ .completion) {b b' : Nesting} {ts : List Token}
    (hb : b.Sorted) (h : feed o b ts = .ok b') (hdone : b'.stack = []) :
    Follows b.leading b.levels ts := by
  induction ts generalizing b with
  | nil =>
      cases h
      rw [levels, hdone]
      exact .done .nil
  | cons t ts ih =>
      rw [feed] at h
      obtain ⟨item, ht, h⟩ := bind_eq_ok.mp h
      obtain ⟨b₁, hstep, h⟩ := bind_eq_ok.mp h
      exact follows_step hmode hb ht hstep (ih (sorted_step hb hstep) h)

end Nesting

/-- A tree is built from exactly the balanced lists of tokens that open no more levels than there
may be. For a list that never needs more, the levels can be left out of account. -/
theorem ofTokens_ok_iff {o : Options} {ts : List Token} (hmode : o.mode ≠ .completion)
    (hclosed : o.allowUnclosed = false) (hparts : Nesting.Completes o ts) (stop : Nat) :
    ((∃ nodes, Node.ofTokens o stop ts = .ok nodes) ↔ Nests .balanced maxDepth ts) ∧
      ((∀ d, Nests .balanced d ts → ∃ e ≤ maxDepth, Nests .balanced e ts) →
        ((∃ nodes, Node.ofTokens o stop ts = .ok nodes) ↔ ∃ d, Nests .balanced d ts)) := by
  have hiff : (∃ nodes, Node.ofTokens o stop ts = .ok nodes) ↔ Nests .balanced maxDepth ts := by
    constructor
    · rintro ⟨nodes, h⟩
      obtain ⟨b, hfeed, hfinish⟩ := bind_eq_ok.mp h
      have hstack : b.stack = [] := by
        unfold Nesting.finish at hfinish
        split at hfinish
        · assumption
        · simp [hclosed] at hfinish
      cases Nesting.follows_feed hmode (by simp [Nesting.Sorted]) hfeed hstack with
      | done h => exact h
    · intro h
      obtain ⟨nodes, hfeed⟩ := h.taken hparts {} (by simp [Frame.depth])
      exact ⟨nodes.reverse, by rw [Node.ofTokens, hfeed]; simp [Nesting.add, Nesting.finish, bind, Except.bind]⟩
  refine ⟨hiff, fun hdepth => hiff.trans ⟨fun h => ⟨maxDepth, h⟩, ?_⟩⟩
  rintro ⟨d, h⟩
  obtain ⟨e, he, h⟩ := hdepth d h
  exact h.mono he

theorem crossedBranches_nests :
    Nesting.Completes {} crossedBranches ∧ Nests .balanced maxDepth crossedBranches ∧
      ∃ nodes, Node.ofTokens {} 38 crossedBranches = .ok nodes := by
  have hparts : Nesting.Completes {} crossedBranches := by
    intro t ht
    simp only [crossedBranches, List.mem_cons, List.not_mem_nil, or_false] at ht
    rcases ht with rfl | rfl | rfl | rfl | rfl <;> exact ⟨_, rfl⟩
  have hiff := (ofTokens_ok_iff (o := {}) (by decide) rfl hparts 38).1
  have h : ∃ nodes, Node.ofTokens {} 38 crossedBranches = .ok nodes := ⟨_, rfl⟩
  exact ⟨hparts, hiff.mp h, h⟩

end LiquidTemplate
