import LiquidTemplate.Proofs.Geometry.Reading
import LiquidTemplate.Proofs.Nesting.Layering

namespace LiquidTemplate

open Text

namespace Layer

def IsBranch (l : Layer) : Prop := ∃ head closing, l.opening = .branch head closing

def IsBranching (l : Layer) : Prop := ∃ head closing, l.opening = .tag head closing ∧ TagName.isBranching head.name

def closed (l : Layer) : List Visit :=
  match l.opening with
  | .element _ attributes _ _ => walkAll attributes ++ walkAll l.children ++ walkBranches l.branches
  | _ => walkAll l.children ++ walkBranches l.branches

end Layer

def Visit.fields : Visit → List Span
  | node n => n.fields
  | branch b => b.fields

namespace Layers

def closed (b : Layers) : List Visit := walkAll b.roots ++ b.stack.flatMap Layer.closed

structure Disciplined (b : Layers) : Prop where
  branch_on_tag : ∀ above l below, b.stack = above ++ l :: below → l.IsBranch →
    ∃ tag rest, below = tag :: rest ∧ tag.IsBranching
  tag_under_branch : ∀ above l below, b.stack = above ++ l :: below → l.IsBranching →
    l.children = [] ∧ ∃ rest branch, above = rest ++ [branch] ∧ branch.IsBranch
  branches_in_turn : ∀ l ∈ b.stack, l.branches ≠ [] → l.IsBranching ∧
    ∃ first others, l.branches.reverse = first :: others ∧ first.head.name = none ∧ ∀ b ∈ others, b.Named
  length_le : b.stack.length ≤ maxDepth

end Layers

theorem flatMap_eq_append_cons {α β : Type} {f : α → List β} {xs : List α} {above below : List β} {y : β}
    (h : xs.flatMap f = above ++ y :: below) :
    ∃ before x after upper lower, xs = before ++ x :: after ∧ f x = upper ++ y :: lower ∧
      above = before.flatMap f ++ upper ∧ below = lower ++ after.flatMap f := by
  induction xs generalizing above with
  | nil => simp at h
  | cons x xs ih =>
      rw [List.flatMap_cons] at h
      rcases List.append_eq_append_iff.mp h with ⟨v, rfl, hv⟩ | ⟨v, hv, hrest⟩
      · obtain ⟨before, z, after, upper, lower, rfl, hz, rfl, rfl⟩ := ih hv
        exact ⟨x :: before, z, after, upper, lower, rfl, hz, by simp, rfl⟩
      · cases v with
        | nil =>
            obtain ⟨before, z, after, upper, lower, rfl, hz, hbefore, rfl⟩ :=
              ih (hrest.symm.trans (List.nil_append _).symm)
            refine ⟨x :: before, z, after, upper, lower, rfl, hz, ?_, rfl⟩
            rw [List.flatMap_cons, List.append_assoc, ← hbefore, hv]
            simp
        | cons z v =>
            obtain ⟨rfl, rfl⟩ := List.cons.inj hrest
            exact ⟨[], x, xs, above, v, rfl, hv, rfl, rfl⟩

theorem InTurn.closed {current : Option String} {branches : List Branch}
    (h : InTurn (current :: branches.map (·.head.name))) (hne : branches ≠ []) :
    ∃ first others, branches.reverse = first :: others ∧ first.head.name = none ∧ ∀ b ∈ others, b.Named := by
  obtain ⟨first, others, hreverse⟩ := List.exists_cons_of_ne_nil (List.reverse_ne_nil_iff.mpr hne)
  have hbranches : branches = (first :: others).reverse := by rw [← hreverse, List.reverse_reverse]
  obtain ⟨later, hnames, hlater⟩ := h
  refine ⟨first, others, hreverse, InTurn.branches ?_⟩
  rw [← hbranches]
  cases later with
  | nil => simp [hne] at hnames
  | cons name later =>
      obtain ⟨_, hnames⟩ := List.cons.inj hnames
      exact ⟨later, hnames, (List.forall_mem_cons.mp hlater).2⟩

theorem singleton_eq_append_cons {α : Type} {x y : α} {upper lower : List α} (h : [x] = upper ++ y :: lower) :
    x = y ∧ upper = [] ∧ lower = [] := by
  obtain ⟨rfl, h⟩ | ⟨_, _, h⟩ := List.cons_eq_append_iff.mp h
  · obtain ⟨rfl, rfl⟩ := List.cons.inj h
    exact ⟨rfl, rfl, rfl⟩
  · simp at h

namespace Frame

variable {ok : Span → Prop} {stack : List Frame} {f : Frame} {d : Nat}

theorem StackSound.mem (h : StackSound ok stack) (hf : f ∈ stack) : ∃ d, f.Sound ok d := by
  induction stack with
  | nil => cases hf
  | cons g rest ih =>
      rcases List.mem_cons.mp hf with rfl | hf
      · exact ⟨depth rest, h.1⟩
      · exact ih h.2 hf

/-- Of two layers of a frame the lower one is a tag with branches, the upper one its open branch. -/
theorem layers_turn {upper lower : List Layer} {l : Layer} (hf : f.Sound ok d) (h : f.layers = upper ++ l :: lower) :
    (l.IsBranch → ∃ tag, lower = [tag] ∧ tag.IsBranching) ∧
      (l.IsBranching → l.children = [] ∧ ∃ branch, upper = [branch] ∧ branch.IsBranch) ∧
      (l.branches ≠ [] → l.IsBranching ∧ ∃ first others, l.branches.reverse = first :: others ∧
        first.head.name = none ∧ ∀ b ∈ others, b.Named) := by
  cases f with
  | element name attributes opening children =>
      obtain ⟨rfl, rfl, rfl⟩ := singleton_eq_append_cons h
      refine ⟨?_, ?_, fun hne => absurd rfl hne⟩
      · rintro ⟨_, _, ⟨⟩⟩
      · rintro ⟨_, _, ⟨⟩, _⟩
  | block head children =>
      obtain ⟨_, _, hnot, _⟩ := hf
      obtain ⟨rfl, rfl, rfl⟩ := singleton_eq_append_cons h
      refine ⟨?_, ?_, fun hne => absurd rfl hne⟩
      · rintro ⟨_, _, ⟨⟩⟩
      · rintro ⟨_, _, ⟨⟩, hname⟩
        rw [hnot] at hname
        cases hname
  | branched head closed current children =>
      obtain ⟨_, _, hbranching, hturn, _⟩ := hf
      rcases upper with _ | ⟨_, _ | ⟨_, _⟩⟩
      · cases h
        refine ⟨fun _ => ⟨_, rfl, head, none, rfl, hbranching⟩, ?_, fun hne => absurd rfl hne⟩
        rintro ⟨_, _, ⟨⟩, _⟩
      · cases h
        refine ⟨?_, fun _ => ⟨rfl, _, rfl, current, .unset, rfl⟩,
          fun hne => ⟨⟨head, none, rfl, hbranching⟩, hturn.closed hne⟩⟩
        rintro ⟨_, _, ⟨⟩⟩
      · simp [layers] at h

theorem Sound.closed (hf : f.Sound ok d) : ∀ v ∈ f.layers.flatMap Layer.closed, v.Sound ok := by
  cases f with
  | element name attributes opening children =>
      obtain ⟨_, _, _, hattributes, hchildren⟩ := hf
      simp only [layers, List.flatMap_cons, List.flatMap_nil, List.append_nil, Layer.closed, walkBranches]
      exact List.forall_mem_append.mpr ⟨Node.Sound.walkAll hattributes, Node.Sound.walkAll hchildren⟩
  | block head children =>
      obtain ⟨_, _, _, hchildren⟩ := hf
      simp only [layers, List.flatMap_cons, List.flatMap_nil, List.append_nil, Layer.closed, walkBranches]
      exact Node.Sound.walkAll hchildren
  | branched head closed current children =>
      obtain ⟨_, _, _, _, _, hclosed, hchildren⟩ := hf
      simp only [layers, List.flatMap_cons, List.flatMap_nil, List.append_nil, Layer.closed, walkAll, walkBranches,
        List.nil_append]
      refine List.forall_mem_append.mpr ⟨Node.Sound.walkAll hchildren, fun v hv => ?_⟩
      obtain ⟨b, hb, hv⟩ := mem_walkBranches.mp hv
      exact (hclosed b hb).walk v hv

end Frame

namespace Nesting

variable {ok : Span → Prop} {b : Nesting}

/-- A layer in its frame, and the frame among the others. -/
theorem Sound.exists_frame (h : b.Sound ok) {above below : List Layer} {l : Layer}
    (hstack : b.layered.stack = above ++ l :: below) : ∃ (f : Frame) (d : Nat) (before after upper lower : List Layer),
      f.Sound ok d ∧ f.layers = upper ++ l :: lower ∧ above = before ++ upper ∧ below = lower ++ after := by
  obtain ⟨before, f, after, upper, lower, hframes, hf, habove, hbelow⟩ := flatMap_eq_append_cons hstack
  obtain ⟨d, hsound⟩ := h.stack.mem (hframes ▸ List.mem_append_right _ List.mem_cons_self)
  exact ⟨f, d, _, _, upper, lower, hsound, hf, habove, hbelow⟩

theorem Sound.disciplined (h : b.Sound ok) : b.layered.Disciplined where
  branch_on_tag := by
    intro above l below hstack hbranch
    obtain ⟨f, d, before, after, upper, lower, hsound, hf, _, rfl⟩ := h.exists_frame hstack
    obtain ⟨tag, rfl, htag⟩ := (Frame.layers_turn hsound hf).1 hbranch
    exact ⟨tag, after, rfl, htag⟩
  tag_under_branch := by
    intro above l below hstack hbranching
    obtain ⟨f, d, before, after, upper, lower, hsound, hf, rfl, _⟩ := h.exists_frame hstack
    obtain ⟨hchildren, branch, rfl, hbranch⟩ := (Frame.layers_turn hsound hf).2.1 hbranching
    exact ⟨hchildren, before, branch, rfl, hbranch⟩
  branches_in_turn := by
    intro l hl hne
    obtain ⟨above, below, hstack⟩ := List.append_of_mem hl
    obtain ⟨f, d, before, after, upper, lower, hsound, hf, _, _⟩ := h.exists_frame hstack
    exact (Frame.layers_turn hsound hf).2.2 hne
  length_le := by
    rw [length_layered]
    exact Frame.depth_le h.stack

theorem Sound.closed (h : b.Sound ok) : ∀ v ∈ b.layered.closed, v.Sound ok := by
  refine List.forall_mem_append.mpr ⟨Node.Sound.walkAll h.roots, fun v hv => ?_⟩
  rw [layered, List.flatMap_assoc] at hv
  obtain ⟨f, hf, hv⟩ := List.mem_flatMap.mp hv
  obtain ⟨d, hsound⟩ := h.stack.mem hf
  exact hsound.closed v hv

end Nesting

theorem Visit.Sound.fields {ok : Span → Prop} {v : Visit} (h : v.Sound ok) : ∀ s ∈ v.fields, ok s := by
  cases v with
  | node n => exact h.2.1
  | branch b => exact h

theorem Span.Row.isUnset {text : List Char} {lo hi : Nat} {ss : List Span} (h : Span.Row text lo hi ss) :
    ∀ s ∈ ss, s.isUnset = false := by
  induction ss generalizing lo with
  | nil => exact List.forall_mem_nil _
  | cons s ss ih => exact List.forall_mem_cons.mpr ⟨h.1.isUnset, ih h.2.2⟩

theorem Block.Placed.isUnset {text : List Char} {b : Block} (h : b.Placed text) :
    b.span.isUnset = false ∧ b.opening.isUnset = false ∧ b.closing.isUnset = false :=
  ⟨h.span.isUnset, h.opening.isUnset, h.closing.isUnset⟩

namespace Token

variable {text : List Char}

mutual

/-- Every span of a token that lies in a text is known. -/
theorem isUnset_spans {lo hi : Nat} :
    ∀ {t : Token}, t.span.Inside text lo hi → t.Placed text → ∀ s ∈ t.spans, s.isUnset = false
  | .rawElement e attributes body, _, h => by
      rw [Token.Placed] at h
      obtain ⟨hblock, hname, hattributes, hbodySpan, hbody⟩ := h
      have hends := hblock.isUnset
      simp only [spans, List.forall_mem_cons, List.forall_mem_append]
      exact ⟨hname.1.isUnset, hends.1, hends.2.1, hends.2.2, hbodySpan.isUnset, isUnset_spansAll hattributes,
        isUnset_spansAll hbody⟩
  | .voidElement name attributes span, hspan, h => by
      rw [Token.Placed] at h
      obtain ⟨hname, hattributes⟩ := h
      simp only [spans, List.forall_mem_cons]
      exact ⟨hspan.isUnset, hname.1.isUnset, isUnset_spansAll hattributes⟩
  | .selfClosing name attributes span, hspan, h | .elementOpen name attributes span, hspan, h => by
      rw [Token.Placed] at h
      obtain ⟨hname, hattributes⟩ := h
      simp only [spans, List.forall_mem_cons, List.forall_mem_append]
      exact ⟨hspan.isUnset, hname.isUnset, isUnset_spansAll hattributes⟩
  | .elementClose name span, hspan, h | .bareAttribute name span, hspan, h => by
      rw [Token.Placed] at h
      simp only [spans, List.forall_mem_cons]
      exact ⟨hspan.isUnset, h.isUnset⟩
  | .valueAttribute quotes name value valueSpan span, hspan, h => by
      rw [Token.Placed] at h
      obtain ⟨hname, hvalueSpan, hvalue⟩ := h
      simp only [spans, List.forall_mem_cons, List.forall_mem_append]
      exact ⟨hspan.isUnset, hvalueSpan.isUnset, hname.isUnset, isUnset_spansAll hvalue⟩
  | .statements head body, hspan, h => by
      rw [Token.Placed] at h
      obtain ⟨hmarkup, hbody⟩ := h
      simp only [spans, List.forall_mem_cons]
      exact ⟨hspan.isUnset, hmarkup.isUnset, isUnset_spansAll hbody⟩
  | .rawTag raw body, _, h => by
      rw [Token.Placed] at h
      obtain ⟨hblock, hbodySpan, hbody⟩ := h
      have hends := hblock.isUnset
      simp only [spans, List.forall_mem_cons]
      exact ⟨hends.1, hends.2.1, hends.2.2, hbodySpan.isUnset, isUnset_spansAll hbody⟩
  | .text _, hspan, _ | .frontmatter .., hspan, _ | .doctype .., hspan, _ | .comment .., hspan, _
  | .output _, hspan, _ | .docParam _, hspan, _ | .docExample .., hspan, _ | .docDescription .., hspan, _
  | .tag _, hspan, _ | .tagOpen _, hspan, _ | .tagClose _, hspan, _ =>
      List.forall_mem_singleton.mpr hspan.isUnset

theorem isUnset_spansAll {lo hi : Nat} :
    ∀ {ts : List Token}, TokensIn text lo hi ts → ∀ s ∈ spansAll ts, s.isUnset = false
  | [], _ => List.forall_mem_nil _
  | t :: ts, h => by
      rw [TokensIn] at h
      obtain ⟨hspan, _, hplaced, hrest⟩ := h
      rw [spansAll, List.forall_mem_append]
      exact ⟨isUnset_spans hspan hplaced, isUnset_spansAll hrest⟩

end

end Token

/-- Whatever tokens are taken, the layers stand on each other as they should, and what is closed has no unset
span but one of a token.  Tokens that are read from a text have none.  So nothing is lost when layers are closed:
a tag in the tree has branches if it asks for them. -/
theorem Layers.disciplined_feed (o : Options) (ts : List Token) :
    (∀ b, feed o {} ts = .ok b →
      b.Disciplined ∧ ∀ v ∈ b.closed, ∀ s ∈ v.fields, s.isUnset → s ∈ Token.spansAll ts) ∧
    (∀ mode entry text, byteLength text < Span.limit → Token.read ⟨0, mode⟩ entry text = .ok ts →
      ∀ s ∈ Token.spansAll ts, s.isUnset = false) ∧
    (∀ stop nodes, ofTokens o stop ts = .ok nodes ∨ Node.ofTokens o stop ts = .ok nodes →
      ∀ n, .node n ∈ walkAll nodes → n.Regular) ∧
    ∀ stop, stop < Span.limit → ofTokens o stop ts = Node.ofTokens o stop ts := by
  refine ⟨?_, ?_, ?_, fun stop hstop => ofTokens_eq o hstop ts⟩
  · intro b hfeed
    have hfits : Span.Fits fun s => s.isUnset → s ∈ Token.spansAll ts := by
      intro a b ha _ hunset
      rw [Span.isUnset_between b ha] at hunset
      cases hunset
    obtain ⟨n, hsound, rfl⟩ := exists_layered hfits (fun s hs _ => hs) hfeed
    exact ⟨hsound.disciplined, fun v hv => (hsound.closed v hv).fields⟩
  · intro mode entry text htext hread
    exact Token.isUnset_spansAll (Token.tokensIn_read htext hread)
  · intro stop nodes h n hn
    have hsound : ∀ n ∈ nodes, n.Sound (fun _ => True) 0 := by
      rcases h with h | h
      · obtain ⟨_, hfeed, hfinish⟩ := bind_eq_ok.mp h
        obtain ⟨b, hb, rfl⟩ := exists_layered Span.fits_true (fun _ _ => trivial) hfeed
        exact (Nesting.finish_layered Span.fits_true o trivial hb).1 nodes hfinish
      · obtain ⟨b, hfeed, hfinish⟩ := bind_eq_ok.mp h
        have hb := Nesting.feed_sound Span.fits_true Nesting.sound_empty (fun _ _ => trivial) hfeed
        exact hb.finish Span.fits_true trivial hfinish
    exact (Node.Sound.walkAll hsound _ hn).1

def openBranches : List Char := "\x7b% if a %\x7d<b>\x7b% else %\x7d<i>".toList

theorem Layers.disciplined_openBranches :
    byteLength openBranches < Span.limit ∧ 26 < Span.limit ∧
      ∃ ts, Token.read ⟨0, .strict⟩ .liquidHtml openBranches = .ok ts ∧
        (∃ b, feed ⟨.strict, true⟩ {} ts = .ok b ∧ b.stack.length = 3 ∧ b.closed.length = 3 ∧ b.Disciplined ∧
          ∀ v ∈ b.closed, ∀ s ∈ v.fields, s.isUnset = false) ∧
        ∃ nodes, ofTokens ⟨.strict, true⟩ 26 ts = .ok nodes ∧ Node.ofTokens ⟨.strict, true⟩ 26 ts = .ok nodes ∧
          ∀ n, .node n ∈ walkAll nodes → n.Regular := by
  have htext : byteLength openBranches < Span.limit := by decide +kernel
  have hlengths : (do
      let ts ← Token.read ⟨0, .strict⟩ .liquidHtml openBranches
      let b ← feed ⟨.strict, true⟩ {} ts
      return (b.stack.length, b.closed.length)).toOption = some (3, 3) := by decide +kernel
  obtain ⟨ts, hread, hlengths⟩ := bind_eq_ok.mp (toOption_eq_some.mp hlengths)
  obtain ⟨b, hb, hlengths⟩ := bind_eq_ok.mp hlengths
  obtain ⟨hlayers, hclosed⟩ := Prod.mk.inj (pure_eq_ok.mp hlengths)
  obtain ⟨nodes, hnodes⟩ : ∃ nodes, ofTokens ⟨.strict, true⟩ 26 ts = .ok nodes := by
    rw [ofTokens, hb, ok_bind, finish]
    split <;> exact ⟨_, rfl⟩
  obtain ⟨hfeed, hknown, hregular, hsame⟩ := disciplined_feed ⟨.strict, true⟩ ts
  have hlimit : 26 < Span.limit := by decide
  obtain ⟨hdisciplined, hunset⟩ := hfeed b hb
  refine ⟨htext, hlimit, ts, hread, ⟨b, hb, hlayers, hclosed, hdisciplined, ?_⟩, nodes, hnodes, ?_,
    hregular 26 nodes (.inl hnodes)⟩
  · intro v hv s hs
    cases hset : s.isUnset with
    | false => rfl
    | true => rw [hknown _ _ _ htext hread s (hunset v hv s hs hset)] at hset; cases hset
  · rw [← hsame 26 hlimit]
    exact hnodes

end LiquidTemplate
