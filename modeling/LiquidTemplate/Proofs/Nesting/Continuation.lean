import LiquidTemplate.Proofs.Nesting.Language

namespace LiquidTemplate

/-- An open construct as far as later tokens can tell. -/
inductive Level where
  | element (name : List Piece)
  | block (name : String)
  | branched (name : String)

namespace Level

def weight : Level → Nat
  | element _ => 1
  | block _ => 1
  | branched _ => 2

def depth : List Level → Nat
  | [] => 0
  | l :: rest => l.weight + depth rest

def room (ls : List Level) : Nat := maxDepth - depth ls

end Level

open Level

def Frame.level : Frame → Level
  | element name .. => .element name
  | block head _ => .block head.name
  | branched head .. => .branched head.name

/-- What an open branch still takes before it ends: closings without an opening only where nothing
else came before. -/
def restOfBranch (name : String) (leading : Bool) : Phrase :=
  if TagName.isConditional name && leading then .segment else .tail

mutual

/-- `Follows leading ls ts`: the tokens close all levels, innermost first. Only other closings stand
in the innermost branch so far if `leading` is set. -/
inductive Follows : Bool → List Level → List Token → Prop
  | done {leading : Bool} {ts : List Token} : Nests .balanced maxDepth ts → Follows leading [] ts
  | closeElement {leading : Bool} {name name' : List Piece} {span : Span} {ls : List Level}
      {inner ts : List Token} :
      Text.sameCaseless (nameText name) (nameText name') →
      Nests .balanced (room (.element name :: ls)) inner → Follows false ls ts →
      Follows leading (.element name :: ls) (inner ++ .elementClose name' span :: ts)
  | leaveElement {leading : Bool} {name : List Piece} {ls : List Level} {ts us : List Token} :
      Nests .tail (room (.element name :: ls)) ts → Breaks ls us →
      Follows leading (.element name :: ls) (ts ++ us)
  | closeBlock {leading : Bool} {close : TagClose} {ls : List Level} {inner ts : List Token} :
      Nests .balanced (room (.block close.name :: ls)) inner → Follows false ls ts →
      Follows leading (.block close.name :: ls) (inner ++ .tagClose close :: ts)
  | closeLoop {leading : Bool} {close : TagClose} {ls : List Level} {inner ts : List Token} :
      TagName.isConditional close.name = false →
      Nests .balanced (room (.branched close.name :: ls)) inner → Follows false ls ts →
      Follows leading (.branched close.name :: ls) (inner ++ .tagClose close :: ts)
  | endBranch {leading : Bool} {name : String} {ls : List Level} {ts us : List Token} :
      Nests (restOfBranch name leading) (room (.branched name :: ls)) ts →
      Breaks (.branched name :: ls) us → Follows leading (.branched name :: ls) (ts ++ us)

/-- `Breaks ls ts`: the tokens follow the levels, and the first one ends the innermost branch with
all elements that are open in it. -/
inductive Breaks : List Level → List Token → Prop
  | element {name : List Piece} {ls : List Level} {ts : List Token} :
      Breaks ls ts → Breaks (.element name :: ls) ts
  | branch {tag : Tag} {close : TagClose} {ls : List Level} {inner ts : List Token} :
      TagName.isBranch tag.name →
      Nests (.body (TagName.isConditional close.name)) (room (.branched close.name :: ls)) inner →
      Follows false ls ts →
      Breaks (.branched close.name :: ls) (.tag tag :: (inner ++ .tagClose close :: ts))
  | close {close : TagClose} {ls : List Level} {ts : List Token} :
      TagName.isConditional close.name → Follows false ls ts →
      Breaks (.branched close.name :: ls) (.tagClose close :: ts)

end

theorem Nests.restOfBranch {name : String} {leading : Bool} {d : Nat} {ts : List Token}
    (h : Nests .tail d ts) : Nests (restOfBranch name leading) d ts := by
  unfold LiquidTemplate.restOfBranch
  split
  · exact .plain h
  · exact h

theorem Nests.append_restOfBranch {name : String} {leading : Bool} {d : Nat} {xs ys : List Token}
    (hx : Nests .balanced d xs) (hy : Nests (LiquidTemplate.restOfBranch name false) d ys) :
    Nests (LiquidTemplate.restOfBranch name leading) d (xs ++ ys) := by
  have hy : Nests .tail d ys := by simpa [LiquidTemplate.restOfBranch] using hy
  exact (hx.append_tail hy).restOfBranch

theorem Breaks.follows {leading : Bool} {ls : List Level} {ts : List Token} (h : Breaks ls ts) :
    Follows leading ls ts := by
  cases ls with
  | nil => cases h
  | cons l ls =>
      cases l with
      | element name =>
          cases h with
          | element h => exact .leaveElement (.shut .nil) h
      | block name => cases h
      | branched name => exact .endBranch (Nests.restOfBranch (.shut .nil)) h

theorem Breaks.elements {es ls : List Level} {ts : List Token}
    (hes : ∀ e ∈ es, ∃ name, e = .element name) (h : Breaks ls ts) : Breaks (es ++ ls) ts := by
  induction es with
  | nil => exact h
  | cons e es ih =>
      obtain ⟨name, rfl⟩ := hes e (by simp)
      exact .element (ih fun x hx => hes x (by simp [hx]))

theorem Follows.prepend {leading : Bool} {ls : List Level} {xs ts : List Token}
    (hx : Nests .balanced (room ls) xs) (h : Follows false ls ts) : Follows leading ls (xs ++ ts) := by
  cases h with
  | done h => exact .done (hx.append h)
  | closeElement hname hinner h =>
      rw [← List.append_assoc]
      exact .closeElement hname (hx.append hinner) h
  | leaveElement htail h =>
      rw [← List.append_assoc]
      exact .leaveElement (hx.append_tail htail) h
  | closeBlock hinner h =>
      rw [← List.append_assoc]
      exact .closeBlock (hx.append hinner) h
  | closeLoop hname hinner h =>
      rw [← List.append_assoc]
      exact .closeLoop hname (hx.append hinner) h
  | endBranch hts h =>
      rw [← List.append_assoc]
      exact .endBranch (hx.append_restOfBranch hts) h

theorem Follows.openElement {leading : Bool} {name : List Piece} {attributes : List Token}
    {span : Span} {ls : List Level} {ts : List Token} (hdepth : depth ls < maxDepth)
    (h : Follows false (.element name :: ls) ts) :
    Follows leading ls (.elementOpen name attributes span :: ts) := by
  have hroom : room ls = room (.element name :: ls) + 1 := by simp [room, depth, weight]; omega
  cases h with
  | @closeElement _ _ name' span' _ inner ts hname hinner h =>
      have hitem : Nests .balanced (room ls)
          (.elementOpen name attributes span :: (inner ++ [.elementClose name' span'])) := by
        rw [hroom]
        exact .element hname hinner .nil
      simpa using (h.prepend hitem : Follows leading ls _)
  | @leaveElement _ _ _ ts us htail h =>
      have htail : Nests .tail (room ls) ([] ++ .elementOpen name attributes span :: ts) := by
        rw [hroom]
        exact .unclosed .nil htail
      cases h with
      | element h => exact .leaveElement htail h
      | branch htag hbody h => exact .endBranch htail.restOfBranch (.branch htag hbody h)
      | close hname h => exact .endBranch htail.restOfBranch (.close hname h)

/-- An open branch is followed by the rest of its tag's body, and then by the tag's closing. -/
theorem Follows.body {name : String} {ls : List Level} {ts : List Token}
    (h : Follows true (.branched name :: ls) ts) :
    ∃ inner close ts', ts = inner ++ .tagClose close :: ts' ∧ close.name = name ∧
      Nests (.body (TagName.isConditional name)) (room (.branched name :: ls)) inner ∧
      Follows false ls ts' := by
  cases h with
  | closeLoop hname hinner h => exact ⟨_, _, _, rfl, rfl, by rw [hname]; exact .lastTurn hinner, h⟩
  | @endBranch _ _ _ ts us hts h =>
      cases h with
      | @branch tag close _ inner ts' htag hbody h =>
          refine ⟨ts ++ .tag tag :: inner, close, ts', by simp, rfl, ?_, h⟩
          cases hc : TagName.isConditional close.name with
          | true =>
              rw [hc] at hbody
              exact .choice (by simpa [restOfBranch, hc] using hts) htag hbody
          | false =>
              rw [hc] at hbody
              exact .turn (by simpa [restOfBranch, hc] using hts) htag hbody
      | close hname h =>
          refine ⟨_, _, _, rfl, rfl, ?_, h⟩
          rw [hname]
          exact .lastChoice (by simpa [restOfBranch, hname] using hts)

theorem Follows.openTag {leading : Bool} {tag : Tag} {ls : List Level} {ts : List Token}
    (hname : TagName.isBranching tag.name = false) (hdepth : depth ls < maxDepth)
    (h : Follows false (.block tag.name :: ls) ts) : Follows leading ls (.tagOpen tag :: ts) := by
  have hroom : room ls = room (.block tag.name :: ls) + 1 := by simp [room, depth, weight]; omega
  generalize hn : tag.name = name at h hroom
  cases h with
  | @closeBlock _ close _ inner ts hinner h =>
      have hitem : Nests .balanced (room ls) (.tagOpen tag :: (inner ++ [.tagClose close])) := by
        rw [hroom]
        exact .block hname hn.symm hinner .nil
      simpa using (h.prepend hitem : Follows leading ls _)

theorem Follows.openBranchedTag {leading : Bool} {tag : Tag} {ls : List Level} {ts : List Token}
    (hname : TagName.isBranching tag.name) (hdepth : depth ls + 1 < maxDepth)
    (h : Follows true (.branched tag.name :: ls) ts) : Follows leading ls (.tagOpen tag :: ts) := by
  have hroom : room ls = room (.branched tag.name :: ls) + 2 := by simp [room, depth, weight]; omega
  obtain ⟨inner, close, ts, rfl, hclose, hbody, h⟩ := h.body
  have hitem : Nests .balanced (room ls) (.tagOpen tag :: (inner ++ [.tagClose close])) := by
    rw [hroom]
    exact .branched hname hclose hbody .nil
  simpa using (h.prepend hitem : Follows leading ls _)

/-- A branch tag ends the open branch, whatever elements are open in it. -/
theorem Follows.openBranch {leading : Bool} {tag : Tag} {es ls : List Level} {name : String}
    {ts : List Token} (htag : TagName.isBranch tag.name)
    (hes : ∀ e ∈ es, ∃ name, e = .element name) (h : Follows true (.branched name :: ls) ts) :
    Follows leading (es ++ .branched name :: ls) (.tag tag :: ts) := by
  obtain ⟨inner, close, ts, rfl, rfl, hbody, h⟩ := h.body
  exact (Breaks.elements hes (.branch htag hbody h)).follows

theorem Follows.dangling {name : String} {name' : List Piece} {span : Span} {ls : List Level}
    {ts : List Token} (hname : TagName.isConditional name)
    (h : Follows true (.branched name :: ls) ts) :
    Follows true (.branched name :: ls) (.elementClose name' span :: ts) := by
  cases h with
  | closeLoop hc => rw [hname] at hc; cases hc
  | @endBranch _ _ _ ts us hts h =>
      have hphrase : restOfBranch name true = .segment := by simp [restOfBranch, hname]
      rw [hphrase] at hts
      have hts : Nests (restOfBranch name true) (room (.branched name :: ls))
          (.elementClose name' span :: ts) := by
        rw [hphrase]
        exact .dangling hts
      exact .endBranch hts h

end LiquidTemplate
