import LiquidTemplate.Proofs.Geometry.Reading
import LiquidTemplate.Proofs.Nesting.Acceptance
import LiquidTemplate.Proofs.Nesting.Law
import LiquidTemplate.Proofs.Nesting.Soundness
import LiquidTemplate.Proofs.Origin.Elements

namespace LiquidTemplate

open Text

/-- Where the node was closed, if it is an element with an empty closing. -/
def Node.leftOpen? : Node → Option Nat
  | element _ _ _ _ closing => if closing.isEmpty then some closing.lo else none
  | _ => none

def LeavesLast (ok : Nat → Prop) (nodes : List Node) : Prop :=
  ∀ before n after offset, nodes = before ++ n :: after → n.leftOpen? = some offset → after = [] ∧ ok offset

namespace Node

/-- An element left open stands last in an element that was left open at the same offset, or in a branch
that ends there; if the tag is not conditional, another branch comes after that one. -/
def Recovers : Node → Prop
  | element _ attributes _ children closing =>
    (∀ n ∈ attributes, n.leftOpen? = none) ∧ LeavesLast (fun k => closing.isEmpty ∧ closing.lo = k) children
  | branched head first others _ =>
    ∀ before b after, first :: others = before ++ b :: after →
      LeavesLast (fun k => b.span.hi = k ∧ (TagName.isConditional head.name = false → after ≠ [])) b.children
  | n => ∀ m ∈ n.nested, m.leftOpen? = none

def joined : Node → List Node
  | branched .. => []
  | n => n.nested

/-- `Under e n`: the node `n` is in `e`, without a branch in between. -/
inductive Under (e : Node) : Node → Prop
  | joined {n : Node} : n ∈ e.joined → Under e n
  | step {m n : Node} : Under e m → n ∈ m.joined → Under e n

end Node

theorem leavesLast_of_none {ok : Nat → Prop} {nodes : List Node} (h : ∀ n ∈ nodes, n.leftOpen? = none) :
    LeavesLast ok nodes := by
  intro before n after offset heq hn
  have hmem : n ∈ nodes := by simp [heq]
  simp [h n hmem] at hn

theorem LeavesLast.none {nodes : List Node} (h : LeavesLast (fun _ => False) nodes) :
    ∀ n ∈ nodes, n.leftOpen? = none := by
  intro n hn
  obtain ⟨before, after, heq⟩ := List.append_of_mem hn
  cases hoffset : n.leftOpen? with
  | none => rfl
  | some offset => exact (h before n after offset heq hoffset).2.elim

theorem LeavesLast.mono {ok ok' : Nat → Prop} {nodes : List Node} (h : LeavesLast ok nodes)
    (hok : ∀ k, ok k → ok' k) : LeavesLast ok' nodes := by
  intro before n after offset heq hn
  obtain ⟨hafter, hoffset⟩ := h before n after offset heq hn
  exact ⟨hafter, hok offset hoffset⟩

theorem leavesLast_reverse {ok : Nat → Prop} {last : Option Node} {children : List Node}
    (hchildren : ∀ n ∈ children, n.leftOpen? = none) (hlast : ∀ n ∈ last, ∀ k, n.leftOpen? = some k → ok k) :
    LeavesLast ok (last.toList ++ children).reverse := by
  cases last with
  | none => exact leavesLast_of_none (by simpa using hchildren)
  | some n =>
      intro before m after offset heq hm
      rw [Option.toList_some, List.singleton_append, List.reverse_cons] at heq
      rcases snoc_eq_append_cons heq with ⟨rfl, _, rfl⟩ | ⟨init, rfl, hinit⟩
      · exact ⟨rfl, hlast m rfl offset hm⟩
      · have hmem : m ∈ children := by
          rw [← List.mem_reverse, hinit]
          simp
        simp [hchildren m hmem] at hm

theorem Span.isEmpty_point (offset : Nat) : (Span.point offset).isEmpty := by
  simp [isEmpty, length, point, between, lo, hi]

theorem Span.lo_point_lo (s : Span) : (Span.point s.lo).lo = s.lo := lo_between _ s.lo_lt

namespace Frame

def Recovers : Frame → Prop
  | element _ attributes _ children =>
    (∀ n ∈ attributes, n.leftOpen? = none) ∧ ∀ n ∈ children, n.leftOpen? = none
  | block head children => TagName.isBranching head.name = false ∧ ∀ n ∈ children, n.leftOpen? = none
  | branched _ closed _ children =>
    (∀ b ∈ closed, LeavesLast (fun k => b.span.hi = k) b.children) ∧ ∀ n ∈ children, n.leftOpen? = none

theorem Recovers.add {f : Frame} {n : Node} (h : f.Recovers) (hn : n.leftOpen? = none) :
    (f.add [n]).Recovers := by
  cases f with
  | element | block | branched => exact ⟨h.1, List.forall_mem_cons.mpr ⟨hn, h.2⟩⟩

theorem Recovers.leave {f : Frame} {last : Option Node} {closing : Closing} (h : f.Recovers) (hf : f.isElement)
    (hlast : ∀ n ∈ last, n.leftOpen? = some closing.span.lo) (hclosing : closing.span.isEmpty) :
    ((f.add last.toList).close closing).Recovers ∧
      ((f.add last.toList).close closing).leftOpen? = some closing.span.lo := by
  cases f with
  | element name attributes opening children =>
      refine ⟨⟨h.1, leavesLast_reverse h.2 ?_⟩, if_pos hclosing⟩
      intro n hn k hk
      rw [hlast n hn] at hk
      exact ⟨hclosing, Option.some.inj hk⟩
  | block | branched => cases hf

theorem Recovers.closeElement {f : Frame} {closing : Closing} (h : f.Recovers) (hf : f.isElement)
    (hclosing : closing.span.isEmpty = false) :
    (f.close closing).Recovers ∧ (f.close closing).leftOpen? = none := by
  cases f with
  | element name attributes opening children =>
      refine ⟨⟨h.1, leavesLast_of_none (by simpa using h.2)⟩, ?_⟩
      simp [close, Node.leftOpen?, hclosing]
  | block | branched => cases hf

theorem leavesLast_branch {current : BranchHead} {children : List Node} {last : Option Node} {s : Span}
    (hchildren : ∀ n ∈ children, n.leftOpen? = none) (hlast : ∀ n ∈ last, n.leftOpen? = some s.lo) :
    LeavesLast (fun k => (Branch.mk current (last.toList ++ children).reverse (.point s.lo)).span.hi = k)
      (last.toList ++ children).reverse := by
  apply leavesLast_reverse hchildren
  intro n hn k hk
  rw [hlast n hn] at hk
  cases hk
  exact Branch.hi_span_mk ..

theorem Recovers.closeTag {f : Frame} {last : Option Node} {closing : Closing} {name : String}
    (h : f.Recovers) (hf : f.tagName? = some name) (hlast : ∀ n ∈ last, n.leftOpen? = some closing.span.lo)
    (hcross : last = none ∨ TagName.isConditional name) :
    ((f.add last.toList).close closing).Recovers ∧ ((f.add last.toList).close closing).leftOpen? = none := by
  cases f with
  | element => cases hf
  | block head children =>
      cases hf
      refine ⟨?_, rfl⟩
      rcases hcross with rfl | hcross
      · intro n hn
        exact h.2 n (by simpa [add, close, Node.nested] using hn)
      · have hname := h.1
        rw [TagName.isBranching_of_isConditional hcross] at hname
        cases hname
  | branched head closed current children =>
      cases hf
      refine ⟨?_, rfl⟩
      intro before b after heq
      rw [gather_cons] at heq
      -- either the branch is the one that was open, or another comes after it
      rcases snoc_eq_append_cons heq with ⟨rfl, _, rfl⟩ | ⟨init, rfl, hinit⟩
      · rcases hcross with rfl | hcross
        · exact leavesLast_of_none (by simpa [Branch.children] using h.2)
        · exact (leavesLast_branch h.2 hlast).mono fun k hk => ⟨hk, by simp [hcross]⟩
      · have hmem : b ∈ closed := by
          rw [← List.mem_reverse, hinit]
          simp
        exact (h.1 b hmem).mono fun k hk => ⟨hk, by simp⟩

end Frame

def recoveryLaw : Law where
  node := Node.Recovers
  part n := n.leftOpen? = none
  frame := Frame.Recovers
  left offset n := n.leftOpen? = some (Span.point offset).lo
  item
    | .closeElement _ span => span.isEmpty = false
    | _ => True

theorem kept_recoveryLaw {o : Options} (ho : o.allowUnclosed = false) : recoveryLaw.Kept o := by
  constructor
  case simple =>
    intro n hn _ hparts
    cases n with
    | element | danglingClose | block | branched => cases hn
    | _ => exact ⟨hparts, rfl⟩
  case openElement => exact fun _ hattributes => ⟨hattributes, List.forall_mem_nil _⟩
  case openBlock => exact fun hname => ⟨hname, List.forall_mem_nil _⟩
  case openBranched => exact fun _ => ⟨List.forall_mem_nil _, List.forall_mem_nil _⟩
  case add => exact fun hf hn => Frame.Recovers.add hf hn
  case dangle => exact fun hf _ _ => ⟨List.forall_mem_nil _, Frame.Recovers.add hf rfl⟩
  case leave => exact fun hf helement hlast => Frame.Recovers.leave hf helement hlast (Span.isEmpty_point _)
  case turn =>
    intro tag closed current children name head last hf hlast
    obtain ⟨hclosed, hchildren⟩ := hf
    have hlast' : ∀ n ∈ last, n.leftOpen? = some head.span.lo := by
      intro n hn
      rw [← head.span.lo_point_lo]
      exact hlast n hn
    exact ⟨List.forall_mem_cons.mpr ⟨Frame.leavesLast_branch hchildren hlast', hclosed⟩, List.forall_mem_nil _⟩
  case closeElement => exact fun hf helement hspan => Frame.Recovers.closeElement hf helement hspan
  case closeTag =>
    intro f close last hf hname hlast hcross
    refine Frame.Recovers.closeTag hf hname ?_ hcross
    intro n hn
    rw [← close.span.lo_point_lo]
    exact hlast n hn
  case finish =>
    intro f stop last hallow
    rw [ho] at hallow
    cases hallow

def Node.isElement : Node → Bool
  | element .. => true
  | _ => false

def plainLaw : Law where
  node n := n.isElement = false
  part _ := True
  frame f := f.isElement = false
  left _ _ := True
  item
    | .openElement .. => False
    | _ => True

theorem kept_plainLaw (o : Options) : plainLaw.Kept o := by
  have hclose : ∀ {f : Frame} {nodes : List Node} {closing : Closing}, f.isElement = false →
      ((f.add nodes).close closing).isElement = false := by
    intro f nodes closing hf
    cases f with
    | element => cases hf
    | block | branched => rfl
  constructor
  case simple =>
    intro n hn _ _
    cases n with
    | element => cases hn
    | _ => exact ⟨rfl, trivial⟩
  case openElement => exact fun hitem _ => hitem.elim
  case openBlock => exact fun _ => rfl
  case openBranched => exact fun _ => rfl
  case add =>
    intro f n hf _
    cases f with
    | element => cases hf
    | block | branched => rfl
  case dangle =>
    intro f name span hf _ _
    cases f with
    | element => cases hf
    | block | branched => exact ⟨rfl, rfl⟩
  case leave =>
    intro f offset last hf helement
    cases hf.symm.trans helement
  case turn => exact fun _ _ => rfl
  case closeElement =>
    intro f name span hf helement
    cases hf.symm.trans helement
  case closeTag => exact fun hf _ _ _ => ⟨hclose hf, trivial⟩
  case finish => exact fun _ hf _ => ⟨hclose hf, trivial⟩

namespace Node

theorem leftOpen?_of_isElement {n : Node} (h : n.isElement = false) : n.leftOpen? = none := by
  cases n with
  | element => cases h
  | _ => rfl

theorem recovers_of_plain {n : Node} (h : n.All fun m => m.isElement = false) : n.Obeys recoveryLaw := by
  induction h with
  | @mk n hn hnested ih =>
      have hnone : ∀ m ∈ n.nested, m.leftOpen? = none := fun m hm => (ih m hm).part
      refine ⟨.mk ?_ fun m hm => (ih m hm).all, leftOpen?_of_isElement hn⟩
      cases n with
      | element => cases hn
      | branched head first others closing =>
          intro before b after heq
          apply leavesLast_of_none
          intro m hm
          exact hnone m (List.mem_flatMap.mpr ⟨b, by simp [heq], hm⟩)
      | _ => exact hnone

/-- Below a node that was not left open, nothing was left open in the same branch. -/
theorem Recovers.under {e : Node} (h : e.All Recovers) (he : e.leftOpen? = none) {n : Node} (hn : e.Under n) :
    n.leftOpen? = none := by
  have hstep : ∀ {m n : Node}, m.All Recovers ∧ m.leftOpen? = none → n ∈ m.joined →
      n.All Recovers ∧ n.leftOpen? = none := by
    rintro m n ⟨⟨hm, hnested⟩, hopen⟩ hn
    cases m with
    | element name attributes opening children closing =>
        refine ⟨hnested n hn, ?_⟩
        have hclosing : closing.isEmpty = false := by simpa [leftOpen?] using hopen
        rcases List.mem_append.mp hn with hn | hn
        · exact hm.1 n hn
        · exact (hm.2.mono (by simp [hclosing])).none n hn
    | branched => cases hn
    | _ => exact ⟨hnested n hn, hm n hn⟩
  have hbelow : n.All Recovers ∧ n.leftOpen? = none := by
    induction hn with
    | joined hn => exact hstep ⟨h, he⟩ hn
    | step _ hn ih => exact hstep ih hn
  exact hbelow.2

theorem Recovers.everywhere {n : Node} (h : n.All Recovers) :
    n.All fun e => e.Recovers ∧ (e.leftOpen? = none → ∀ m, e.Under m → m.leftOpen? = none) := by
  induction h with
  | mk hn hnested ih => exact .mk ⟨hn, fun he m hm => Recovers.under (.mk hn hnested) he hm⟩ ih

end Node

theorem Span.Row.isEmpty {text : List Char} {lo hi : Nat} {ss : List Span} (h : Span.Row text lo hi ss) :
    ∀ s ∈ ss, s.isEmpty = false := by
  induction ss generalizing lo with
  | nil => simp
  | cons s ss ih =>
      obtain ⟨_, hlt, hss⟩ := h
      refine List.forall_mem_cons.mpr ⟨?_, ih hss⟩
      rw [Span.isEmpty, beq_eq_false_iff_ne]
      exact Nat.sub_ne_zero_of_lt hlt

theorem Nesting.item_recoveryLaw {o : Options} {t : Token} {item : Item} (ht : t.span.isEmpty = false)
    (h : complete o t = .ok item) : recoveryLaw.item item := by
  rw [← (complete_span h).2] at ht
  cases item with
  | closeElement => exact ht
  | _ => trivial

theorem Nesting.item_plainLaw {o : Options} {t : Token} {item : Item} (ht : t.opensElement = false)
    (h : complete o t = .ok item) : plainLaw.item item := by
  cases t with
  | elementOpen => cases ht
  | elementClose | tagOpen | tagClose =>
      cases h
      trivial
  | tag tag =>
      unfold complete at h
      split at h
      · cases h
        trivial
      · cases h
        trivial
  | _ =>
      obtain ⟨n, rfl, _⟩ := complete_leaf rfl h
      trivial

/-- Where nothing may stay open at the end, an element that is left open ends with the branch around it:
it is the last node there, and so are the elements in it that are left open with it. -/
theorem Document.recovers_parse {mode : Mode} {entry : Entry} {source : String} {d : Document}
    (hsource : byteLength source.toList < Span.limit) (h : Document.parse ⟨mode, false⟩ entry source = .ok d) :
    ∀ n ∈ d.children, n.leftOpen? = none ∧
      n.All fun e => e.Recovers ∧ (e.leftOpen? = none → ∀ m, e.Under m → m.leftOpen? = none) := by
  unfold Document.parse at h
  obtain ⟨ts, hts, h⟩ := bind_eq_ok.mp h
  obtain ⟨children, hchildren, h⟩ := bind_eq_ok.mp h
  cases h
  have hspans := (tokensIn_iff.mp (Token.tokensIn_read hsource hts)).1.isEmpty
  have hinside := Token.nested_opensElement hsource hts
  have hobeys : ∀ n ∈ children, n.Obeys recoveryLaw := by
    refine Node.obeys_ofTokens (kept_recoveryLaw rfl) ?_ hchildren
    intro t ht item hitem
    refine Nesting.complete_obeys (kept_recoveryLaw rfl)
      (Nesting.item_recoveryLaw (hspans _ (List.mem_map_of_mem ht)) hitem) ?_ hitem
    intro o stop us nodes _ hus hnodes n hn
    have hplain := Node.obeys_of_all (fun _ => True) (fun o _ => kept_plainLaw o) trivial Nesting.item_plainLaw trivial
      (fun u hu => hinside t ht u (hus hu)) hnodes n hn
    exact Node.recovers_of_plain hplain.all
  intro n hn
  exact ⟨(hobeys n hn).part, Node.Recovers.everywhere (hobeys n hn).all⟩

def leftOpenTemplate : String :=
  "\x7b% for x in y %\x7d<p><b>\x7b% else %\x7d\x7b% if a %\x7d<i>\x7b% endif %\x7d\x7b% endfor %\x7d"

def Visit.leftOpen? : Visit → Option Nat
  | node n => n.leftOpen?
  | branch _ => none

theorem Document.recovers_leftOpenTemplate :
    byteLength leftOpenTemplate.toList < Span.limit ∧
      ∃ d, Document.parse ⟨.strict, false⟩ .liquidHtml leftOpenTemplate = .ok d ∧
        d.walk.filterMap Visit.leftOpen? = [22, 22, 45] ∧
        ∀ n ∈ d.children, n.leftOpen? = none ∧
          n.All fun e => e.Recovers ∧ (e.leftOpen? = none → ∀ m, e.Under m → m.leftOpen? = none) := by
  have hsource : byteLength leftOpenTemplate.toList < Span.limit := by decide +kernel
  have hopen : (Document.parse ⟨.strict, false⟩ .liquidHtml leftOpenTemplate).toOption.map
      (·.walk.filterMap Visit.leftOpen?) = some [22, 22, 45] := by decide +kernel
  cases h : Document.parse ⟨.strict, false⟩ .liquidHtml leftOpenTemplate with
  | error e =>
      rw [h] at hopen
      cases hopen
  | ok d =>
      rw [h] at hopen
      exact ⟨hsource, d, rfl, Option.some.inj hopen, Document.recovers_parse hsource h⟩

end LiquidTemplate
