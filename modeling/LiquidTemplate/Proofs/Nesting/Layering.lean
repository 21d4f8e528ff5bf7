import LiquidTemplate.Nesting.Layer
import LiquidTemplate.Proofs.Nesting.Listing
import LiquidTemplate.Proofs.Nesting.Soundness
import LiquidTemplate.Proofs.Peg.Runs

namespace LiquidTemplate

namespace Frame

def layers : Frame → List Layer
  | element name attributes opening children => [⟨.element name attributes opening .unset, children, []⟩]
  | block head children => [⟨.tag head none, children, []⟩]
  | branched head closed current children => [⟨.branch current .unset, children, []⟩, ⟨.tag head none, [], closed⟩]

variable {f : Frame} {es rest : List Frame}

theorem length_layers (stack : List Frame) : (stack.flatMap layers).length = depth stack := by
  induction stack with
  | nil => rfl
  | cons f rest ih =>
      rw [List.flatMap_cons, List.length_append, ih]
      cases f <;> rfl

theorem weight_of_isElement (hf : f.isElement) : f.weight = 1 := by
  cases f with
  | element => rfl
  | block | branched => cases hf

theorem flatMap_layers_elements (hes : ∀ f ∈ es, f.isElement) :
    (∀ l ∈ es.flatMap layers, l.isElement ∧ l.isTag = false) ∧ (es.flatMap layers).length = es.length := by
  induction es with
  | nil => exact ⟨List.forall_mem_nil _, rfl⟩
  | cons f es ih =>
      obtain ⟨hf, hes'⟩ := List.forall_mem_cons.mp hes
      cases f with
      | element => simpa [layers, Layer.isElement, Layer.isTag] using ih hes'
      | block | branched => cases hf

theorem any_isElement (hes : ∀ f ∈ es, f.isElement) : (es.flatMap layers).any Layer.isElement = !es.isEmpty := by
  cases es with
  | nil => rfl
  | cons f es =>
      cases f with
      | element => rfl
      | block | branched => cases hes _ List.mem_cons_self

/-- The lowest layer of a frame that is no element is a tag, and a layer above that is a branch. -/
theorem layers_tagged (hf : f.isElement = false) : ∃ upper head children branches,
    f.layers = upper ++ [⟨.tag head none, children, branches⟩] ∧ f.tagName? = some head.name ∧
      upper.length = f.weight - 1 ∧ upper.any Layer.isElement = false ∧ ∀ l ∈ upper, l.isTag = false := by
  cases f with
  | element => cases hf
  | block head children => exact ⟨[], head, children, [], rfl, rfl, rfl, rfl, List.forall_mem_nil _⟩
  | branched head closed current children =>
      exact ⟨[⟨.branch current .unset, children, []⟩], head, [], closed, rfl, rfl, rfl, rfl,
        List.forall_mem_singleton.mpr rfl⟩

/-- The innermost tag, under elements and the branch that is open in it. -/
theorem exists_tag (hes : ∀ f ∈ es, f.isElement) (hf : f.isElement = false) : ∃ above head children branches,
    (es ++ f :: rest).flatMap layers = above ++ ⟨.tag head none, children, branches⟩ :: rest.flatMap layers ∧
      f.tagName? = some head.name ∧ above.length = es.length + (f.weight - 1) ∧
      above.any Layer.isElement = !es.isEmpty ∧ ∀ l ∈ above, l.isTag = false := by
  obtain ⟨upper, head, children, branches, hlayers, hname, hupper, hplain, htags⟩ := layers_tagged hf
  obtain ⟨helements, hlength⟩ := flatMap_layers_elements hes
  refine ⟨es.flatMap layers ++ upper, head, children, branches, ?_, hname, ?_, ?_, ?_⟩
  · rw [List.flatMap_append, List.flatMap_cons, hlayers, List.append_assoc, List.append_assoc, List.singleton_append]
  · rw [List.length_append, hlength, hupper]
  · rw [List.any_append, any_isElement hes, hplain, Bool.or_false]
  · exact List.forall_mem_append.mpr ⟨fun l hl => (helements l hl).2, htags⟩

/-- The elements above a frame that is none. -/
theorem takeWhile_isElement (hes : ∀ f ∈ es, f.isElement) (hrest : ∀ f ∈ rest.head?, f.isElement = false) :
    ((es ++ rest).flatMap layers).takeWhile Layer.isElement = es.flatMap layers := by
  rw [List.flatMap_append]
  refine Peg.takeWhile_append_stop (fun l hl => ((flatMap_layers_elements hes).1 l hl).1) ?_
  cases rest with
  | nil => simp
  | cons f rest =>
      have hf := hrest f rfl
      cases f with
      | element => cases hf
      | block | branched => simp [layers, Layer.isElement]

theorem head?_closeElements (offset : Nat) (pending : List Node) (stack : List Frame) :
    ∀ f ∈ (closeElements offset pending stack).2.head?, f.isElement = false := by
  induction stack generalizing pending with
  | nil => simp [closeElements]
  | cons f rest ih =>
      rw [closeElements]
      split
      · exact ih _
      · rename_i hf
        simpa using hf

/-- Elements are closed down to the first frame that is none. -/
theorem exists_closeElements (offset : Nat) (stack : List Frame) :
    ∃ es pending rest, stack = es ++ rest ∧ (∀ f ∈ es, f.isElement) ∧ (∀ f ∈ rest.head?, f.isElement = false) ∧
      closeElements offset [] stack = (pending, rest) ∧ pending.isEmpty = es.isEmpty := by
  obtain ⟨es, hes, hsplit, hpending⟩ := closeElements_split offset [] stack
  have hhead := head?_closeElements offset [] stack
  refine ⟨es, _, _, hsplit, hes, hhead, rfl, ?_⟩
  cases es with
  | cons f es => exact List.isEmpty_eq_false_iff.mpr (hpending (List.cons_ne_nil f es))
  | nil =>
      rw [List.nil_append] at hsplit
      rw [← hsplit] at hhead
      cases stack with
      | nil => rfl
      | cons f rest => simp [closeElements, hhead f rfl]

end Frame

namespace Layers

theorem popN_add (ending : Ending) (m n : Nat) (b : Layers) :
    b.popN ending (m + n) = (b.popN ending m).popN ending n := by
  induction m generalizing b with
  | zero => rw [Nat.zero_add, popN]
  | succ m ih => rw [Nat.succ_add, popN, popN, ih]

end Layers

namespace Nesting

/-- The same tree with a layer for each open construct. -/
def layered (b : Nesting) : Layers := ⟨b.roots, b.stack.flatMap Frame.layers⟩

theorem length_layered (b : Nesting) : b.layered.stack.length = Frame.depth b.stack := Frame.length_layers b.stack

theorem push_layered (node : Node) (b : Nesting) : b.layered.push node = (b.add [node]).layered := by
  obtain ⟨roots, _ | ⟨f, rest⟩⟩ := b
  · rfl
  · cases f <;> rfl

/-- The two layers of a tag with branches are closed one after the other. -/
theorem pop_layered_at (offset : Nat) (closing : Closing) (roots : List Node) (f : Frame) (rest : List Frame) :
    ((⟨roots, f :: rest⟩ : Nesting).layered.popN (.implied offset) (f.weight - 1)).pop (.written closing) =
      ((⟨roots, rest⟩ : Nesting).add [f.closeAt offset closing]).layered := by
  rw [← push_layered]
  cases f with
  | element | block => rfl
  | branched head closed current children =>
      have hbranches := gather_cons (.mk current children.reverse (.point offset)) [] closed
      simp only [Frame.weight, Layers.popN, layered, List.flatMap_cons, Frame.layers, List.cons_append,
        List.nil_append, Layers.pop, Layer.close, Layers.attach, Ending.closing, Frame.implied, List.reverse_cons,
        ← hbranches]
      rfl

theorem pop_layered (closing : Closing) (roots : List Node) (f : Frame) (rest : List Frame) :
    ((⟨roots, f :: rest⟩ : Nesting).layered.popN (.implied closing.span.lo) (f.weight - 1)).pop (.written closing) =
      ((⟨roots, rest⟩ : Nesting).add [f.close closing]).layered := by
  rw [pop_layered_at, Frame.closeAt_lo]

theorem popN_elements (offset : Nat) (roots pending : List Node) {es rest : List Frame}
    (hes : ∀ f ∈ es, f.isElement) (hrest : ∀ f ∈ rest.head?, f.isElement = false) :
    ((⟨roots, es ++ rest⟩ : Nesting).add pending).layered.popN (.implied offset) es.length =
      ((⟨roots, rest⟩ : Nesting).add (Frame.closeElements offset pending (es ++ rest)).1).layered := by
  induction es generalizing pending with
  | nil =>
      cases rest with
      | nil => rfl
      | cons f rest => simp [Frame.closeElements, hrest f rfl, Layers.popN]
  | cons f es ih =>
      obtain ⟨hf, hes⟩ := List.forall_mem_cons.mp hes
      have hpop := pop_layered (Frame.implied offset) roots (f.add pending) (es ++ rest)
      rw [Frame.weight_add, Frame.weight_of_isElement hf] at hpop
      rw [List.cons_append, Frame.closeElements, if_pos hf, ← ih [(f.add pending).close (Frame.implied offset)] hes,
        ← hpop]
      rfl

/-- An error names the innermost construct as the frame of it does. -/
theorem exists_innermost (roots : List Node) (f : Frame) (rest : List Frame) :
    ∃ l, (⟨roots, f :: rest⟩ : Nesting).layered.innermost? = some l ∧ l.unclosed = f.unclosed := by
  cases f with
  | element | block => exact ⟨_, rfl, rfl⟩
  | branched head closed current children =>
      obtain ⟨_ | _, _, _, _⟩ := current <;> exact ⟨_, rfl, rfl⟩

theorem misclosed_layered (b : Nesting) (container : Container) (name : String) (span : Span) :
    b.layered.misclosed container name span = b.misclosed container name span := by
  obtain ⟨roots, _ | ⟨f, rest⟩⟩ := b
  · rfl
  · obtain ⟨l, hl, hunclosed⟩ := exists_innermost roots f rest
    rw [Layers.misclosed, hl]
    exact congrArg (fun u => Error.misnested (.closeBefore container name u) span) hunclosed

theorem acceptsDangling_layered (mode : Mode) (b : Nesting) :
    b.layered.acceptsDangling mode = acceptsDangling mode b.stack := by
  obtain ⟨roots, _ | ⟨f, rest⟩⟩ := b
  · rfl
  · cases f with
    | element | block => rfl
    | branched head closed current children => exact Bool.and_comm _ _

theorem openLayer_layered {b : Nesting} {opening : Opening} {f : Frame} (hf : f.layers = [{ opening }]) :
    b.layered.openLayer opening = layered <$> b.openFrame f opening.span := by
  rw [Layers.openLayer, openFrame, length_layered]
  split
  · rfl
  · rw [ok_map, layered, layered, List.flatMap_cons, hf, List.singleton_append]

theorem openTag_layered (b : Nesting) (head : TagHead) : b.layered.openTag head = layered <$> b.openTag head := by
  have hone : b.layered.openLayer (.tag head none) = layered <$> b.openFrame (.block head []) head.span :=
    openLayer_layered rfl
  rw [Layers.openTag, openTag, hone]
  simp only [openFrame]
  by_cases hname : TagName.isBranching head.name
  · simp only [if_pos hname]
    by_cases hdepth : maxDepth ≤ Frame.depth b.stack
    · rw [if_pos hdepth, if_neg (by omega), if_pos hdepth]
      rfl
    · rw [if_neg hdepth, if_neg hdepth, ok_map, ok_bind, Layers.openLayer, length_layered, Frame.depth]
      by_cases hlast : Frame.depth b.stack + 1 = maxDepth
      · rw [if_pos hlast, if_pos (by simp only [Frame.weight]; omega)]
        rfl
      · rw [if_neg hlast, if_neg (by simp only [Frame.weight]; omega)]
        rfl
  · simp only [if_neg hname]
    split <;> rfl

/-- After the branch that is open is closed, there is room for the next one. -/
theorem openBranch_layered {b : Nesting} (hb : Frame.depth b.stack ≤ maxDepth) (name : String) (head : TagHead) :
    b.layered.openBranch name head = layered <$> b.openBranch name head := by
  obtain ⟨roots, stack⟩ := b
  obtain ⟨es, pending, rest, rfl, hes, hrest, hclose, _⟩ := Frame.exists_closeElements head.span.lo stack
  have hpopN := popN_elements head.span.lo roots [] hes hrest
  rw [add_nil, hclose] at hpopN
  rw [Layers.openBranch, openBranch, hclose]
  simp only [layered] at hpopN ⊢
  rw [Frame.takeWhile_isElement hes hrest, (Frame.flatMap_layers_elements hes).2, hpopN]
  cases rest with
  | nil => rfl
  | cons f rest =>
      cases f with
      | element => cases hrest _ rfl
      | block => rfl
      | branched tag closed current children =>
          have hroom : ¬maxDepth ≤ ((rest.flatMap Frame.layers).length + 1) := by
            rw [← Frame.length_layers, List.flatMap_append, List.length_append, List.flatMap_cons, List.length_append,
              Frame.layers, List.length_cons, List.length_cons, List.length_nil] at hb
            omega
          exact if_neg hroom

theorem closeTag_layered (b : Nesting) (close : TagClose) :
    b.layered.closeTag close = layered <$> b.closeTag close := by
  obtain ⟨roots, stack⟩ := b
  obtain ⟨es, pending, rest, rfl, hes, hrest, hclose, hempty⟩ := Frame.exists_closeElements close.span.lo stack
  have hpopN := popN_elements close.span.lo roots [] hes hrest
  rw [add_nil, hclose] at hpopN
  rw [Layers.closeTag, misclosed_layered, closeTag, hclose]
  -- Without a frame below the elements there is no tag; else the layers above its tag are what is closed first.
  cases rest with
  | nil =>
      have habove : (es.flatMap Frame.layers ++ []).takeWhile (!·.isTag) = es.flatMap Frame.layers :=
        Peg.takeWhile_append_stop (fun l hl => by simp [((Frame.flatMap_layers_elements hes).1 l hl).2]) (by simp)
      rw [List.append_nil] at habove
      simp only [layered, List.append_nil, habove, List.drop_length]
      rfl
  | cons f rest =>
      obtain ⟨above, head, children, branches, hstack, hname, hlength, hcross, htags⟩ :=
        Frame.exists_tag hes (hrest f rfl)
      have habove : (layered ⟨roots, es ++ f :: rest⟩).stack.takeWhile (!·.isTag) = above := by
        rw [layered, hstack]
        exact Peg.takeWhile_append_stop (fun l hl => by simp [htags l hl]) (by simp [Layer.isTag])
      have hfound : ((layered ⟨roots, es ++ f :: rest⟩).stack.drop above.length).head?.map Layer.opening =
          some (.tag head none) := by
        rw [layered, hstack, List.drop_left]
        rfl
      have hpop := pop_layered ⟨close.trim, close.span⟩ roots (f.add pending) rest
      rw [Frame.weight_add] at hpop
      simp only [habove, hfound, hcross, hname, hempty, Option.some.injEq, Bool.not_not]
      rw [hlength, Layers.popN_add, hpopN]
      split
      · exact congrArg Except.ok hpop
      · rfl

theorem closeElement_layered (mode : Mode) (b : Nesting) (name : List Piece) (span : Span) :
    b.layered.closeElement mode name span = layered <$> b.closeElement mode name span := by
  have hdangling : Layers.closeElement.dangling mode b.layered name span =
      layered <$> if acceptsDangling mode b.stack then .ok (b.add [.danglingClose name span])
        else .error (b.misclosed .element (nameText name) span) := by
    rw [Layers.closeElement.dangling, acceptsDangling_layered, push_layered, misclosed_layered]
    split <;> rfl
  obtain ⟨roots, _ | ⟨f, rest⟩⟩ := b
  · exact hdangling
  · cases f with
    | element opened attributes opening children =>
        have hpop := pop_layered ⟨{}, span⟩ roots (.element opened attributes opening children) rest
        rw [closeElement]
        dsimp only
        by_cases hname : closesTop (nameText name) (.element opened attributes opening children :: rest)
        · rw [if_pos hname]
          exact (if_pos hname).trans (congrArg Except.ok hpop)
        · rw [if_neg hname]
          exact (if_neg hname).trans hdangling
    | block | branched => exact hdangling

theorem step_layered (mode : Mode) {b : Nesting} (hb : Frame.depth b.stack ≤ maxDepth) (item : Item) :
    b.layered.step mode item = layered <$> b.step mode item := by
  cases item with
  | leaf node => exact congrArg Except.ok (push_layered node b)
  | openElement name attributes span => exact openLayer_layered rfl
  | closeElement name span => exact closeElement_layered mode b name span
  | openTag head => exact openTag_layered b head
  | openBranch name head => exact openBranch_layered hb name head
  | closeTag close => exact closeTag_layered b close

/-- What is open always has room, so the layers follow step by step. -/
theorem feed_layered (o : Options) {b : Nesting} (hb : b.Sound fun _ => True) (ts : List Token) :
    Layers.feed o b.layered ts = layered <$> feed o b ts := by
  induction ts generalizing b with
  | nil => rfl
  | cons t ts ih =>
      rw [Layers.feed, List.foldlM_cons, feed]
      cases hitem : complete o t with
      | error e => rfl
      | ok item =>
          rw [ok_bind, ok_bind, step_layered o.mode (Frame.depth_le hb.stack)]
          cases hstep : b.step o.mode item with
          | error e => rfl
          | ok b' => exact ih (hb.step Span.fits_true (complete_sound Span.fits_true (fun _ _ => trivial) hitem) hstep)

theorem popN_layered (stop : Nat) (roots : List Node) (f : Frame) (rest : List Frame) :
    (⟨roots, f :: rest⟩ : Nesting).layered.popN (.implied stop) f.weight =
      ((⟨roots, rest⟩ : Nesting).add [f.closeAt stop (Frame.implied stop)]).layered := by
  have hweight : f.weight = f.weight - 1 + 1 := by cases f <;> rfl
  rw [hweight, Layers.popN_add]
  exact pop_layered_at stop (Frame.implied stop) roots f rest

theorem closeAt_implied {stop : Nat} (hstop : stop < Span.limit) (f : Frame) :
    f.closeAt stop (Frame.implied stop) = f.close (Frame.implied stop) := by
  have hlo : (Frame.implied stop).span.lo = stop := Span.lo_between stop hstop
  rw [← Frame.closeAt_lo, hlo]

/-- Everything that is open is closed where its region ends. -/
theorem exists_popN_depth {ok : Span → Prop} (hok : Span.Fits ok) {stop : Nat} (hstop : ok (.point stop)) {b : Nesting}
    (hb : b.Sound ok) : ∃ roots, b.layered.popN (.implied stop) (Frame.depth b.stack) = ⟨roots, []⟩ ∧
      (∀ n ∈ roots, n.Sound ok 0) ∧ (stop < Span.limit → roots = Frame.closeAll stop [] b.stack ++ b.roots) := by
  -- A frame that is closed waits for the one below it, so the induction is over all nodes that may wait.
  suffices h : ∀ pending, (∀ n ∈ pending, n.Sound ok (Frame.depth b.stack)) →
      ∃ roots, (b.add pending).layered.popN (.implied stop) (Frame.depth b.stack) = ⟨roots, []⟩ ∧
        (∀ n ∈ roots, n.Sound ok 0) ∧ (stop < Span.limit → roots = Frame.closeAll stop pending b.stack ++ b.roots) by
    have hempty := h [] (List.forall_mem_nil _)
    rwa [add_nil] at hempty
  obtain ⟨roots, stack⟩ := b
  induction stack with
  | nil =>
      intro pending hpending
      exact ⟨pending ++ roots, rfl, List.forall_mem_append.mpr ⟨hpending, hb.roots⟩, fun _ => rfl⟩
  | cons f rest ih =>
      intro pending hpending
      obtain ⟨hf, hrest⟩ := hb.stack
      rw [Frame.depth, Nat.add_comm] at hpending
      have hclosed : ((f.add pending).closeAt stop (Frame.implied stop)).Sound ok (Frame.depth rest) :=
        (hf.add hpending).closeAt hok hstop hstop
      obtain ⟨all, hpopN, hall, hfits⟩ := ih ⟨hb.roots, hrest⟩ _ (List.forall_mem_singleton.mpr hclosed)
      refine ⟨all, ?_, hall, fun hlt => ?_⟩
      · have hpop := popN_layered stop roots (f.add pending) rest
        rw [Frame.weight_add] at hpop
        rw [Frame.depth, Layers.popN_add]
        exact (congrArg _ hpop).trans hpopN
      · rw [hfits hlt, Frame.closeAll, closeAt_implied hlt]

theorem finish_layered {ok : Span → Prop} (hok : Span.Fits ok) (o : Options) {stop : Nat} (hstop : ok (.point stop))
    {b : Nesting} (hb : b.Sound ok) : (∀ nodes, b.layered.finish o stop = .ok nodes → ∀ n ∈ nodes, n.Sound ok 0) ∧
      (stop < Span.limit → b.layered.finish o stop = b.finish o stop) := by
  obtain ⟨all, hpopN, hall, hfits⟩ := exists_popN_depth hok hstop hb
  rw [← length_layered] at hpopN
  obtain ⟨roots, _ | ⟨f, rest⟩⟩ := b
  · refine ⟨?_, fun _ => rfl⟩
    rintro _ ⟨⟩ n hn
    exact hb.roots n (List.mem_reverse.mp hn)
  · obtain ⟨l, hl, hunclosed⟩ := exists_innermost roots f rest
    rw [Layers.finish, hl]
    simp only [hpopN, hunclosed, finish]
    refine ⟨?_, fun hlt => by rw [hfits hlt]⟩
    intro nodes hnodes n hn
    split at hnodes
    · cases hnodes
      exact hall n (List.mem_reverse.mp hn)
    · cases hnodes

end Nesting

namespace Layers

theorem exists_layered {ok : Span → Prop} (hok : Span.Fits ok) {o : Options} {ts : List Token}
    (hts : ∀ s ∈ Token.spansAll ts, ok s) {b : Layers} (h : feed o {} ts = .ok b) :
    ∃ n : Nesting, n.Sound ok ∧ n.layered = b := by
  rw [show feed o {} ts = _ from Nesting.feed_layered o Nesting.sound_empty ts] at h
  obtain ⟨n, hfeed, hb⟩ := map_eq_ok.mp h
  exact ⟨n, Nesting.feed_sound hok Nesting.sound_empty hts hfeed, hb⟩

/-- Both ways to keep what is open give the same tree, of a region whose end fits. -/
theorem ofTokens_eq (o : Options) {stop : Nat} (hstop : stop < Span.limit) (ts : List Token) :
    ofTokens o stop ts = Node.ofTokens o stop ts := by
  rw [ofTokens, Node.ofTokens, show feed o {} ts = _ from Nesting.feed_layered o Nesting.sound_empty ts]
  cases hfeed : Nesting.feed o {} ts with
  | error e => rfl
  | ok b =>
      have hb := Nesting.feed_sound Span.fits_true Nesting.sound_empty (fun _ _ => trivial) hfeed
      exact (Nesting.finish_layered Span.fits_true o trivial hb).2 hstop

end Layers

end LiquidTemplate
