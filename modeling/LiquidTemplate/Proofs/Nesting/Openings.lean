import Mathlib.Data.List.Induction
import LiquidTemplate.Proofs.Nesting.Acceptance

namespace LiquidTemplate

namespace Token

def opening? : Token → Option Unclosed
  | elementOpen name _ span => some ⟨.element, nameText name, span⟩
  | tagOpen t => some ⟨.tag, t.name, t.span⟩
  | tag t => if TagName.isBranch t.name then some ⟨.branch, t.name, t.span⟩ else none
  | _ => none

def closesOpening (name : List Piece) (u : Unclosed) : Bool :=
  u.container == .element && Text.sameCaseless u.name (nameText name)

def fromTag (opened : List Unclosed) : List Unclosed := opened.dropWhile (·.container != .tag)

/-- What is open after the token, innermost first.  The closing of an element closes the innermost
construct, if that is an element with the name.  A branch ends where the next one starts or its tag is
closed, and so does all that is left open in it. -/
def openAfter (opened : List Unclosed) : Token → List Unclosed
  | elementClose name _ =>
    match opened with
    | [] => []
    | u :: rest => if closesOpening name u then rest else u :: rest
  | tag t =>
    if TagName.isBranch t.name then ⟨.branch, t.name, t.span⟩ :: fromTag opened else opened
  | tagClose _ => (fromTag opened).tail
  | t => t.opening?.toList ++ opened

/-- What is open after the tokens, innermost first. -/
def openings (ts : List Token) : List Unclosed := ts.foldl openAfter []

variable {t : Token} {u : Unclosed}

theorem span_opening? (h : t.opening? = some u) : u.opening = t.span := by
  cases t with
  | elementOpen | tagOpen =>
      cases h
      rfl
  | tag t =>
      simp only [opening?] at h
      split at h
      · cases h
        rfl
      · cases h
  | _ => cases h

theorem mem_of_mem_fromTag {opened : List Unclosed} (h : u ∈ fromTag opened) : u ∈ opened :=
  (List.dropWhile_sublist _).subset h

/-- What is open after a token was opened by it or before it. -/
theorem mem_openAfter {opened : List Unclosed} (h : u ∈ openAfter opened t) :
    t.opening? = some u ∨ u ∈ opened := by
  cases t with
  | elementClose name span =>
      cases opened with
      | nil => cases h
      | cons v rest =>
          simp only [openAfter] at h
          split at h
          · exact .inr (List.mem_cons_of_mem v h)
          · exact .inr h
  | tag t =>
      simp only [openAfter] at h
      split at h
      · rename_i hname
        rcases List.mem_cons.mp h with rfl | h
        · exact .inl (if_pos hname)
        · exact .inr (mem_of_mem_fromTag h)
      · exact .inr h
  | tagClose close => exact .inr (mem_of_mem_fromTag (List.mem_of_mem_tail h))
  | elementOpen | tagOpen =>
      rcases List.mem_cons.mp h with rfl | h
      · exact .inl rfl
      · exact .inr h
  | _ => exact .inr h

theorem openAfter_leaf (ht : t.isLeaf) (opened : List Unclosed) : openAfter opened t = opened := by
  cases t with
  | elementOpen | elementClose | tagOpen | tagClose => cases ht
  | tag t =>
      have hname : TagName.isBranch t.name = false := by simpa [isLeaf] using ht
      simp [openAfter, hname]
  | _ => rfl

theorem openings_concat (ts : List Token) (t : Token) : openings (ts ++ [t]) = openAfter (openings ts) t := by
  simp [openings]

/-- What is open was opened by one of the tokens, and no token after that one closes it. -/
theorem opened_of_mem {ts : List Token} (h : u ∈ openings ts) :
    ∃ pre t post, ts = pre ++ t :: post ∧ t.opening? = some u ∧
      ∀ xs, xs <+: post → u ∈ openings (pre ++ t :: xs) := by
  induction ts using List.reverseRecOn with
  | nil => cases h
  | append_singleton ts last ih =>
      by_cases hold : u ∈ openings ts
      · obtain ⟨pre, t, post, rfl, ht, hopen⟩ := ih hold
        refine ⟨pre, t, post ++ [last], by simp, ht, ?_⟩
        intro xs hxs
        rcases List.prefix_concat_iff.mp hxs with rfl | hxs
        · simpa using h
        · exact hopen xs hxs
      · have hlast := h
        rw [openings_concat] at hlast
        refine ⟨ts, last, [], rfl, (mem_openAfter hlast).resolve_right hold, ?_⟩
        intro xs hxs
        rw [List.prefix_nil.mp hxs]
        exact h

end Token

namespace Frame

def openings : Frame → List Unclosed
  | element name _ opening _ => [⟨.element, nameText name, opening⟩]
  | block head _ => [⟨.tag, head.name, head.span⟩]
  | branched head _ current _ =>
    (current.name.map (⟨.branch, ·, current.span⟩)).toList ++ [⟨.tag, head.name, head.span⟩]

@[simp]
theorem openings_add (f : Frame) (nodes : List Node) : (f.add nodes).openings = f.openings := by
  cases f <;> rfl

theorem unclosed_mem (f : Frame) : f.unclosed ∈ f.openings := by
  cases f with
  | element | block => exact List.mem_singleton_self _
  | branched head closed current children =>
      rw [unclosed, openings]
      cases current.name with
      | none => exact List.mem_singleton_self _
      | some name => exact List.mem_cons_self

def tagOpening? : Frame → Option Unclosed
  | element .. => none
  | block head _ | branched head .. => some ⟨.tag, head.name, head.span⟩

theorem fromTag_element {e : Frame} (he : e.isElement) (opened : List Unclosed) :
    Token.fromTag (e.openings ++ opened) = Token.fromTag opened := by
  cases e with
  | element => rfl
  | block | branched => cases he

theorem fromTag_tag {f : Frame} {u : Unclosed} (hf : f.tagOpening? = some u) (opened : List Unclosed) :
    Token.fromTag (f.openings ++ opened) = u :: opened := by
  cases f with
  | element => cases hf
  | block =>
      cases hf
      rfl
  | branched head closed current children =>
      cases hf
      rw [openings]
      cases current.name <;> rfl

/-- The innermost tag is that of the first frame below the elements. -/
theorem fromTag_openings {es : List Frame} (hes : ∀ e ∈ es, e.isElement) {f : Frame} {u : Unclosed}
    (hf : f.tagOpening? = some u) (rest : List Frame) :
    Token.fromTag ((es ++ f :: rest).flatMap openings) = u :: rest.flatMap openings := by
  induction es with
  | nil => exact fromTag_tag hf _
  | cons e es ih =>
      obtain ⟨he, hes⟩ := List.forall_mem_cons.mp hes
      rw [List.cons_append, List.flatMap_cons, fromTag_element he]
      exact ih hes

end Frame

namespace Nesting

def openings (b : Nesting) : List Unclosed := b.stack.flatMap Frame.openings

@[simp]
theorem openings_add (b : Nesting) (nodes : List Node) : (b.add nodes).openings = b.openings := by
  obtain ⟨roots, stack⟩ := b
  cases stack <;> simp [add, openings]

variable {o : Options} {b b' : Nesting}

theorem openings_closeElement {mode : Mode} {name : List Piece} {span : Span}
    (h : b.closeElement mode name span = .ok b') :
    b'.openings = Token.openAfter b.openings (.elementClose name span) := by
  obtain ⟨roots, stack⟩ := b
  cases stack with
  | nil => cases h
  | cons f rest =>
      simp only [closeElement] at h
      by_cases htop : closesTop (nameText name) (f :: rest)
      · rw [if_pos htop] at h
        cases h
        rw [openings_add]
        cases f with
        | element opened attributes opening children => exact (if_pos htop).symm
        | block | branched => cases htop
      · rw [if_neg htop] at h
        split at h
        · cases h
          rw [openings_add]
          cases f with
          | element opened attributes opening children => exact (if_neg htop).symm
          | block => rfl
          | branched head closed current children =>
              simp only [openings, List.flatMap_cons, Frame.openings]
              cases current.name <;> rfl
        · cases h

theorem openings_openBranch {tag : Tag} (hname : TagName.isBranch tag.name)
    (h : b.openBranch tag.name tag.head = .ok b') : b'.openings = Token.openAfter b.openings (.tag tag) := by
  obtain ⟨pending, opened, closed, current, children, rest, hclose, rfl⟩ := openBranch_ok h
  obtain ⟨es, hes, hstack, _⟩ := Frame.closeElements_split tag.head.span.lo [] b.stack
  rw [hclose] at hstack
  have htag := Frame.fromTag_openings hes (f := .branched opened closed current children) rfl rest
  rw [← hstack] at htag
  rw [Token.openAfter, if_pos hname, openings, openings, htag]
  rfl

theorem openings_closeTag {close : TagClose} (h : b.closeTag close = .ok b') :
    b'.openings = Token.openAfter b.openings (.tagClose close) := by
  obtain ⟨pending, f, rest, hclose, hname, _, rfl⟩ := closeTag_ok h
  obtain ⟨es, hes, hstack, _⟩ := Frame.closeElements_split close.span.lo [] b.stack
  rw [hclose] at hstack
  obtain ⟨u, hu⟩ : ∃ u, f.tagOpening? = some u := by
    cases f with
    | element => cases hname
    | block | branched => exact ⟨_, rfl⟩
  have htag := Frame.fromTag_openings hes hu rest
  rw [← hstack] at htag
  rw [openings_add, Token.openAfter, openings, openings, htag, List.tail_cons]

/-- Taking a token changes what is open as the token says. -/
theorem openings_step {t : Token} {item : Item} (ht : complete o t = .ok item)
    (h : b.step o.mode item = .ok b') : b'.openings = Token.openAfter b.openings t := by
  by_cases hleaf : t.isLeaf
  · obtain ⟨node, rfl, _⟩ := complete_leaf hleaf ht
    cases h
    rw [openings_add, Token.openAfter_leaf hleaf]
  cases t with
  | elementOpen name attributes span =>
      obtain ⟨nodes, rfl⟩ := complete_elementOpen ht
      obtain ⟨_, rfl⟩ := openFrame_ok h
      rfl
  | elementClose name span =>
      cases ht
      exact openings_closeElement h
  | tagOpen tag =>
      cases ht
      rcases openTag_ok h with ⟨_, _, rfl⟩ | ⟨_, _, rfl⟩
      · rfl
      · rfl
  | tagClose close =>
      cases ht
      exact openings_closeTag h
  | tag tag =>
      have hname : TagName.isBranch tag.name := by simpa [Token.isLeaf] using hleaf
      rw [complete_branch o hname] at ht
      cases ht
      exact openings_openBranch hname h
  | _ => exact absurd rfl hleaf

theorem openings_feed {ts : List Token} (h : feed o b ts = .ok b') :
    b'.openings = ts.foldl Token.openAfter b.openings := by
  induction ts generalizing b with
  | nil =>
      cases h
      rfl
  | cons t ts ih =>
      rw [feed] at h
      obtain ⟨item, ht, h⟩ := bind_eq_ok.mp h
      obtain ⟨b₁, hstep, h⟩ := bind_eq_ok.mp h
      rw [List.foldl_cons, ← openings_step ht hstep]
      exact ih h

end Nesting

end LiquidTemplate
