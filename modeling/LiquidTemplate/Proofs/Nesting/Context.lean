import LiquidTemplate.Proofs.Nesting.Leniency
import LiquidTemplate.Proofs.Nesting.Soundness

namespace LiquidTemplate

namespace Frame

theorem depth_append (xs ys : List Frame) : depth (xs ++ ys) = depth xs + depth ys := by
  induction xs with
  | nil => simp [depth]
  | cons f xs ih =>
      rw [List.cons_append, depth, depth, ih]
      omega

theorem closeElements_below {offset : Nat} {pending nodes : List Node} {stack rest : List Frame} {f : Frame}
    (h : closeElements offset pending stack = (nodes, f :: rest)) (below : List Frame) :
    closeElements offset pending (stack ++ below) = (nodes, f :: (rest ++ below)) := by
  induction stack generalizing pending with
  | nil => cases h
  | cons g stack ih =>
      rw [List.cons_append, closeElements]
      rw [closeElements] at h
      by_cases hg : g.isElement
      · rw [if_pos hg] at h ⊢
        exact ih h
      · rw [if_neg hg] at h ⊢
        cases h
        rfl

end Frame

namespace Nesting

variable {base b b' : Nesting} {o : Options} {mode : Mode}

/-- What was built by itself, as it is built when something else was built before it. -/
def stacked (base b : Nesting) : Nesting :=
  ⟨(base.add b.roots).roots, b.stack ++ (base.add b.roots).stack⟩

theorem stacked_empty (base : Nesting) : base.stacked {} = base := by
  simp [stacked]

theorem stacked_closed (base : Nesting) (roots : List Node) : base.stacked ⟨roots, []⟩ = base.add roots := rfl

theorem depth_stacked (base b : Nesting) :
    Frame.depth (base.stacked b).stack = Frame.depth base.stack + Frame.depth b.stack := by
  rw [stacked, Frame.depth_append, depth_add, Nat.add_comm]

theorem add_stacked (base b : Nesting) (nodes : List Node) :
    (base.stacked b).add nodes = base.stacked (b.add nodes) := by
  obtain ⟨roots, stack⟩ := b
  cases stack with
  | nil => exact add_add base roots nodes
  | cons f rest => rfl

theorem openFrame_stacked {f : Frame} {span : Span} (h : b.openFrame f span = .ok b')
    (hdepth : Frame.depth base.stack + Frame.depth b'.stack ≤ maxDepth) :
    (base.stacked b).openFrame f span = .ok (base.stacked b') := by
  obtain ⟨_, rfl⟩ := openFrame_ok h
  have hroom : ¬ maxDepth ≤ Frame.depth (base.stacked b).stack := by
    rw [depth_stacked]
    simp only [Frame.depth] at hdepth
    have hweight : 0 < f.weight := by
      cases f with
      | element | block | branched => simp [Frame.weight]
    omega
  rw [openFrame, if_neg hroom]
  rfl

theorem openTag_stacked {head : TagHead} (h : b.openTag head = .ok b')
    (hdepth : Frame.depth base.stack + Frame.depth b'.stack ≤ maxDepth) :
    (base.stacked b).openTag head = .ok (base.stacked b') := by
  unfold openTag at h ⊢
  by_cases hname : TagName.isBranching head.name
  · rw [if_pos hname] at h ⊢
    split at h
    · cases h
    · have hroom : ¬ Frame.depth (base.stacked b).stack + 1 = maxDepth := by
        obtain ⟨_, rfl⟩ := openFrame_ok h
        rw [depth_stacked]
        simp only [Frame.depth, Frame.weight] at hdepth
        omega
      rw [if_neg hroom]
      exact openFrame_stacked h hdepth
  · rw [if_neg hname] at h ⊢
    exact openFrame_stacked h hdepth

theorem openBranch_stacked {name : String} {head : TagHead} (h : b.openBranch name head = .ok b') :
    (base.stacked b).openBranch name head = .ok (base.stacked b') := by
  obtain ⟨pending, tag, closed, current, children, rest, hclose, rfl⟩ := openBranch_ok h
  have hclose' := Frame.closeElements_below hclose (base.add b.roots).stack
  simp only [openBranch, stacked, hclose']
  rfl

theorem closeTag_stacked {close : TagClose} (h : b.closeTag close = .ok b') :
    (base.stacked b).closeTag close = .ok (base.stacked b') := by
  obtain ⟨pending, f, rest, hclose, hname, hcross, rfl⟩ := closeTag_ok h
  have hclose' : Frame.closeElements close.span.lo [] (base.stacked b).stack =
      (pending, f :: (base.stacked ⟨b.roots, rest⟩).stack) := Frame.closeElements_below hclose _
  simp only [closeTag, hclose', if_pos (And.intro hname hcross)]
  rw [← add_stacked]
  rfl

theorem closeElement_stacked {name : List Piece} {span : Span} (h : b.closeElement mode name span = .ok b') :
    (base.stacked b).closeElement mode name span = .ok (base.stacked b') := by
  obtain ⟨roots, stack⟩ := b
  cases stack with
  | nil => cases h
  | cons f rest =>
      -- only the innermost construct decides
      have htop : closesTop (nameText name) (base.stacked ⟨roots, f :: rest⟩).stack =
          closesTop (nameText name) (f :: rest) := by
        cases f with
        | element | block | branched => rfl
      have haccepts : acceptsDangling mode (base.stacked ⟨roots, f :: rest⟩).stack =
          acceptsDangling mode (f :: rest) := by
        cases f with
        | element | block | branched => rfl
      have hstack : (base.stacked ⟨roots, f :: rest⟩).stack = f :: (base.stacked ⟨roots, rest⟩).stack := rfl
      simp only [closeElement, htop, haccepts] at h ⊢
      rw [hstack]
      by_cases hcloses : closesTop (nameText name) (f :: rest)
      · simp only [if_pos hcloses] at h ⊢
        cases h
        rw [← add_stacked]
        rfl
      · simp only [if_neg hcloses] at h ⊢
        split at h
        · rename_i hdangling
          cases h
          rw [if_pos hdangling, add_stacked]
        · cases h

/-- A step does on top of other constructs what it does by itself, if there is room for both. -/
theorem step_stacked {item : Item} (h : b.step mode item = .ok b')
    (hdepth : Frame.depth base.stack + Frame.depth b'.stack ≤ maxDepth) :
    (base.stacked b).step mode item = .ok (base.stacked b') := by
  cases item with
  | leaf node =>
      cases h
      exact congrArg Except.ok (add_stacked base b [node])
  | openElement name attributes span => exact openFrame_stacked h hdepth
  | closeElement name span => exact closeElement_stacked h
  | openTag head => exact openTag_stacked h hdepth
  | openBranch name head => exact openBranch_stacked h
  | closeTag close => exact closeTag_stacked h

/-- The most levels that are open at once while tokens are taken, up to an error. -/
def deepest (o : Options) (b : Nesting) : List Token → Nat
  | [] => Frame.depth b.stack
  | t :: ts =>
    match complete o t >>= b.step o.mode with
    | .ok b' => max (Frame.depth b.stack) (deepest o b' ts)
    | .error _ => Frame.depth b.stack

theorem le_deepest (o : Options) (b : Nesting) (ts : List Token) : Frame.depth b.stack ≤ deepest o b ts := by
  cases ts with
  | nil => exact Nat.le_refl _
  | cons t ts =>
      rw [deepest]
      split
      · exact Nat.le_max_left _ _
      · exact Nat.le_refl _

theorem deepest_cons {t : Token} {ts : List Token} {item : Item} (ht : complete o t = .ok item)
    (hstep : b.step o.mode item = .ok b') : deepest o b (t :: ts) = max (Frame.depth b.stack) (deepest o b' ts) := by
  have hnext : (complete o t >>= b.step o.mode) = .ok b' := bind_eq_ok.mpr ⟨item, ht, hstep⟩
  rw [deepest, hnext]

theorem feed_stacked {ts : List Token} (h : feed o b ts = .ok b')
    (hdepth : Frame.depth base.stack + deepest o b ts ≤ maxDepth) :
    feed o (base.stacked b) ts = .ok (base.stacked b') := by
  induction ts generalizing b with
  | nil =>
      cases h
      rfl
  | cons t ts ih =>
      rw [feed] at h
      obtain ⟨item, hitem, h⟩ := bind_eq_ok.mp h
      obtain ⟨b₁, hstep, h⟩ := bind_eq_ok.mp h
      rw [deepest_cons hitem hstep] at hdepth
      have hrest : Frame.depth base.stack + deepest o b₁ ts ≤ maxDepth := by omega
      have hnow := le_deepest o b₁ ts
      rw [feed_cons hitem (step_stacked hstep (by omega))]
      exact ih h hrest

theorem deepest_le {ts : List Token} (hb : b.Sound fun _ => True) (h : feed o b ts = .ok b') :
    deepest o b ts ≤ maxDepth := by
  induction ts generalizing b with
  | nil => exact Frame.depth_le hb.stack
  | cons t ts ih =>
      rw [feed] at h
      obtain ⟨item, hitem, h⟩ := bind_eq_ok.mp h
      obtain ⟨b₁, hstep, h⟩ := bind_eq_ok.mp h
      have hnext := hb.step Span.fits_true (complete_sound Span.fits_true (fun _ _ => trivial) hitem) hstep
      rw [deepest_cons hitem hstep]
      exact Nat.max_le.mpr ⟨Frame.depth_le hb.stack, ih hnext h⟩

end Nesting

namespace Node

open Nesting

variable {mode : Mode} {stop : Nat} {ts : List Token} {nodes : List Node}

/-- Where nothing may stay open, a tree is what a run leaves that closes all it opens. -/
theorem ofTokens_closed :
    ofTokens ⟨mode, false⟩ stop ts = .ok nodes ↔ feed ⟨mode, false⟩ {} ts = .ok ⟨nodes.reverse, []⟩ := by
  constructor
  · intro h
    obtain ⟨⟨roots, stack⟩, hfeed, hfinish⟩ := bind_eq_ok.mp h
    cases stack with
    | nil =>
        cases hfinish
        rw [hfeed, List.reverse_reverse]
    | cons f rest => cases hfinish
  · intro h
    refine bind_eq_ok.mpr ⟨_, h, ?_⟩
    simp [finish]

/-- Tokens that close all they open are built the same wherever they stand. After other such tokens they
give the trees of both; after any tokens they leave what is open as it is and put their nodes into the
innermost construct, if there is room for what both have open at once. -/
theorem ofTokens_context {xs : List Token} {a : List Node} (h : ofTokens ⟨mode, false⟩ stop xs = .ok a) :
    (∀ stop' ys c, ofTokens ⟨mode, false⟩ stop' ys = .ok c →
      ∀ stop'', ofTokens ⟨mode, false⟩ stop'' (xs ++ ys) = .ok (a ++ c)) ∧
    ∀ allow p b, feed ⟨mode, allow⟩ {} p = .ok b →
      Frame.depth b.stack + deepest ⟨mode, false⟩ {} xs ≤ maxDepth →
      feed ⟨mode, allow⟩ {} (p ++ xs) = .ok (b.add a.reverse) := by
  have hstacked : ∀ {base : Nesting} {ts : List Token} {nodes : List Node},
      feed ⟨mode, false⟩ {} ts = .ok ⟨nodes.reverse, []⟩ →
      Frame.depth base.stack + deepest ⟨mode, false⟩ {} ts ≤ maxDepth →
      feed ⟨mode, false⟩ base ts = .ok (base.add nodes.reverse) := by
    intro base ts nodes hts hdepth
    have hfeed := feed_stacked hts hdepth
    rwa [stacked_empty, stacked_closed] at hfeed
  have hxs := ofTokens_closed.mp h
  constructor
  · intro stop' ys c hc stop''
    have hys := ofTokens_closed.mp hc
    have hdepth := deepest_le sound_empty hys
    apply ofTokens_closed.mpr
    rw [feed_append_ok hxs, hstacked hys (by simpa [Frame.depth] using hdepth), List.reverse_append]
    rfl
  · intro allow p b hp hdepth
    rw [feed_append_ok hp, feed_allow mode allow false]
    exact hstacked hxs hdepth

theorem ofTokens_context_crossedBranches :
    ∃ a b, ofTokens {} 38 crossedBranches = .ok a ∧
      ofTokens {} 38 (crossedBranches ++ crossedBranches) = .ok (a ++ a) ∧ feed {} {} openParagraph = .ok b ∧
      Frame.depth b.stack + deepest {} {} crossedBranches = 4 ∧
      feed {} {} (openParagraph ++ crossedBranches) = .ok (b.add a.reverse) := by
  obtain ⟨a, ha⟩ : ∃ a, ofTokens {} 38 crossedBranches = .ok a := ⟨_, rfl⟩
  obtain ⟨hafter, hinside⟩ := ofTokens_context ha
  exact ⟨a, _, ha, hafter 38 _ a ha 38, rfl, rfl, hinside false openParagraph _ rfl (by decide)⟩

end Node

end LiquidTemplate
