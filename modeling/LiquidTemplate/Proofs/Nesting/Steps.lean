import LiquidTemplate.Nesting
import LiquidTemplate.Proofs.Except

namespace LiquidTemplate

namespace Frame

@[simp]
theorem add_nil (f : Frame) : f.add [] = f := by
  cases f <;> rfl

@[simp]
theorem add_add (f : Frame) (xs ys : List Node) : (f.add xs).add ys = f.add (ys ++ xs) := by
  cases f <;> simp [add]

@[simp]
theorem weight_add (f : Frame) (xs : List Node) : (f.add xs).weight = f.weight := by
  cases f <;> rfl

theorem isDanglingClose_close (f : Frame) (closing : Closing) :
    (f.close closing).isDanglingClose = false := by
  cases f <;> rfl

/-- Elements close down to the first frame that is none. -/
theorem closeElements_append (offset : Nat) (pending : List Node) {es : List Frame}
    (hes : ∀ e ∈ es, e.isElement) {f : Frame} (hf : f.isElement = false) (rest : List Frame) :
    ∃ nodes, closeElements offset pending (es ++ f :: rest) = (nodes, f :: rest) ∧
      (es = [] → nodes = pending) := by
  induction es generalizing pending with
  | nil => exact ⟨pending, by simp [closeElements, hf], fun _ => rfl⟩
  | cons e es ih =>
      obtain ⟨nodes, hnodes, _⟩ :=
        ih [(e.add pending).close (implied offset)] (fun x hx => hes x (by simp [hx]))
      have he : e.isElement := hes e (by simp)
      exact ⟨nodes, by simp [closeElements, he, hnodes], by simp⟩

theorem closeElements_ne_nil (offset : Nat) {pending : List Node} (h : pending ≠ [])
    (stack : List Frame) : (closeElements offset pending stack).1 ≠ [] := by
  induction stack generalizing pending with
  | nil => exact h
  | cons f rest ih =>
      rw [closeElements]
      split
      · exact ih (by simp)
      · exact h

/-- Closing elements takes the elements from the top of the stack, and leaves something pending
where there were any. -/
theorem closeElements_split (offset : Nat) (pending : List Node) (stack : List Frame) :
    ∃ es, (∀ e ∈ es, e.isElement) ∧ stack = es ++ (closeElements offset pending stack).2 ∧
      (es ≠ [] → (closeElements offset pending stack).1 ≠ []) := by
  induction stack generalizing pending with
  | nil => exact ⟨[], by simp, rfl, by simp⟩
  | cons f rest ih =>
      by_cases hf : f.isElement
      · rw [closeElements, if_pos hf]
        obtain ⟨es, hes, hsplit, _⟩ := ih [(f.add pending).close (implied offset)]
        refine ⟨f :: es, by simpa [hf] using hes, ?_, fun _ => closeElements_ne_nil _ (by simp) _⟩
        rw [List.cons_append, ← hsplit]
      · exact ⟨[], by simp, by simp [closeElements, hf], by simp⟩

end Frame

namespace Nesting

@[simp]
theorem add_nil (b : Nesting) : b.add [] = b := by
  obtain ⟨roots, stack⟩ := b
  cases stack <;> simp [add]

@[simp]
theorem add_add (b : Nesting) (xs ys : List Node) : (b.add xs).add ys = b.add (ys ++ xs) := by
  obtain ⟨roots, stack⟩ := b
  cases stack <;> simp [add]

@[simp]
theorem depth_add (b : Nesting) (xs : List Node) :
    Frame.depth (b.add xs).stack = Frame.depth b.stack := by
  obtain ⟨roots, stack⟩ := b
  cases stack <;> simp [add, Frame.depth]

theorem feed_append (o : Options) (b : Nesting) (xs ys : List Token) :
    feed o b (xs ++ ys) = feed o b xs >>= fun b => feed o b ys := by
  induction xs generalizing b with
  | nil => rfl
  | cons t xs ih => simp only [List.cons_append, feed, ih, bind_assoc]

theorem feed_cons {o : Options} {b b' : Nesting} {t : Token} {item : Item} {ts : List Token}
    (ht : complete o t = .ok item) (hstep : b.step o.mode item = .ok b') :
    feed o b (t :: ts) = feed o b' ts := by
  simp only [feed, ht]
  change (b.step o.mode item >>= fun b => feed o b ts) = _
  rw [hstep]
  rfl

theorem feed_append_ok {o : Options} {b b' : Nesting} {xs ys : List Token}
    (hx : feed o b xs = .ok b') : feed o b (xs ++ ys) = feed o b' ys := by
  rw [feed_append, hx]
  rfl

theorem openFrame_ok {b b' : Nesting} {f : Frame} {span : Span} (h : b.openFrame f span = .ok b') :
    Frame.depth b.stack < maxDepth ∧ b' = ⟨b.roots, f :: b.stack⟩ := by
  unfold openFrame at h
  split at h
  · cases h
  · cases h
    exact ⟨by omega, rfl⟩

theorem openTag_ok {b b' : Nesting} {head : TagHead} (h : b.openTag head = .ok b') :
    (TagName.isBranching head.name = false ∧ Frame.depth b.stack < maxDepth ∧
      b' = ⟨b.roots, .block head [] :: b.stack⟩) ∨
    (TagName.isBranching head.name ∧ Frame.depth b.stack + 1 < maxDepth ∧
      b' = ⟨b.roots, .branched head [] (firstBranch head.span) [] :: b.stack⟩) := by
  unfold openTag at h
  split at h
  · rename_i hname
    split at h
    · cases h
    · obtain ⟨hdepth, rfl⟩ := openFrame_ok h
      exact .inr ⟨hname, by omega, rfl⟩
  · rename_i hname
    obtain ⟨hdepth, rfl⟩ := openFrame_ok h
    exact .inl ⟨by simpa using hname, hdepth, rfl⟩

theorem openBranch_ok {b b' : Nesting} {name : String} {head : TagHead}
    (h : b.openBranch name head = .ok b') :
    ∃ pending tag closed current children rest,
      Frame.closeElements head.span.lo [] b.stack =
        (pending, .branched tag closed current children :: rest) ∧
      b' = ⟨b.roots, .branched tag (.mk current (pending ++ children).reverse (.point head.span.lo) :: closed)
        ⟨some name, head.markup, head.trim, head.span⟩ [] :: rest⟩ := by
  unfold openBranch at h
  split at h
  · cases h
  · rename_i pending tag closed current children rest hclose
    cases h
    exact ⟨pending, tag, closed, current, children, rest, hclose, rfl⟩
  · cases h

theorem closeTag_ok {b b' : Nesting} {close : TagClose} (h : b.closeTag close = .ok b') :
    ∃ pending f rest, Frame.closeElements close.span.lo [] b.stack = (pending, f :: rest) ∧
      f.tagName? = some close.name ∧ (pending.isEmpty ∨ TagName.isConditional close.name) ∧
      b' = (Nesting.mk b.roots rest).add [(f.add pending).close ⟨close.trim, close.span⟩] := by
  unfold closeTag at h
  split at h
  · rename_i pending f rest hclose
    split at h
    · rename_i hname
      cases h
      exact ⟨pending, f, rest, hclose, hname.1, hname.2, rfl⟩
    · cases h
  · cases h

theorem closeElement_ok {mode : Mode} {b b' : Nesting} {name : List Piece} {span : Span}
    (h : b.closeElement mode name span = .ok b') :
    ∃ f rest, b.stack = f :: rest ∧
      ((closesTop (nameText name) b.stack ∧ b' = (Nesting.mk b.roots rest).add [f.close ⟨{}, span⟩]) ∨
        (acceptsDangling mode b.stack ∧ b' = b.add [.danglingClose name span])) := by
  unfold closeElement at h
  split at h
  · cases h
  · rename_i f rest hstack
    split at h
    · rename_i htop
      cases h
      exact ⟨f, rest, hstack, .inl ⟨htop, rfl⟩⟩
    · split at h
      · rename_i hdangling
        cases h
        exact ⟨f, rest, hstack, .inr ⟨hdangling, rfl⟩⟩
      · cases h

end Nesting

end LiquidTemplate
