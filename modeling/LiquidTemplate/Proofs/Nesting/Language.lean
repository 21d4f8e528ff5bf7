import LiquidTemplate.Nesting

namespace LiquidTemplate

def Token.isLeaf : Token → Bool
  | elementOpen .. => false
  | elementClose .. => false
  | tagOpen _ => false
  | tagClose _ => false
  | tag t => !TagName.isBranch t.name
  | _ => true

/-- The kinds of phrase in the language of nesting. -/
inductive Phrase where
  /-- Everything that is opened is closed. -/
  | balanced
  /-- Elements may be left open. -/
  | tail
  /-- As a tail, after any number of closings without an opening. -/
  | segment
  /-- What stands between the opening and the closing of a tag with branches. -/
  | body (conditional : Bool)
  deriving DecidableEq

/-- `Nests p d ts`: the tokens form a phrase of kind `p` in which at most `d` levels are open at
once. A tag with branches takes two levels, anything else one. -/
inductive Nests : Phrase → Nat → List Token → Prop
  | nil {d : Nat} : Nests .balanced d []
  | leaf {d : Nat} {t : Token} {ts : List Token} :
      t.isLeaf → Nests .balanced d ts → Nests .balanced d (t :: ts)
  | element {d : Nat} {name name' : List Piece} {attributes : List Token} {span span' : Span}
      {inner ts : List Token} :
      Text.sameCaseless (nameText name) (nameText name') → Nests .balanced d inner →
      Nests .balanced (d + 1) ts →
      Nests .balanced (d + 1)
        (.elementOpen name attributes span :: (inner ++ .elementClose name' span' :: ts))
  | block {d : Nat} {tag : Tag} {close : TagClose} {inner ts : List Token} :
      TagName.isBranching tag.name = false → close.name = tag.name → Nests .balanced d inner →
      Nests .balanced (d + 1) ts →
      Nests .balanced (d + 1) (.tagOpen tag :: (inner ++ .tagClose close :: ts))
  | branched {d : Nat} {tag : Tag} {close : TagClose} {inner ts : List Token} :
      TagName.isBranching tag.name → close.name = tag.name →
      Nests (.body (TagName.isConditional tag.name)) d inner → Nests .balanced (d + 2) ts →
      Nests .balanced (d + 2) (.tagOpen tag :: (inner ++ .tagClose close :: ts))
  | shut {d : Nat} {ts : List Token} : Nests .balanced d ts → Nests .tail d ts
  | unclosed {d : Nat} {name : List Piece} {attributes : List Token} {span : Span}
      {ts us : List Token} :
      Nests .balanced (d + 1) ts → Nests .tail d us →
      Nests .tail (d + 1) (ts ++ .elementOpen name attributes span :: us)
  | plain {d : Nat} {ts : List Token} : Nests .tail d ts → Nests .segment d ts
  | dangling {d : Nat} {name : List Piece} {span : Span} {ts : List Token} :
      Nests .segment d ts → Nests .segment d (.elementClose name span :: ts)
  | lastTurn {d : Nat} {ts : List Token} : Nests .balanced d ts → Nests (.body false) d ts
  | turn {d : Nat} {tag : Tag} {ts us : List Token} :
      Nests .tail d ts → TagName.isBranch tag.name → Nests (.body false) d us →
      Nests (.body false) d (ts ++ .tag tag :: us)
  | lastChoice {d : Nat} {ts : List Token} : Nests .segment d ts → Nests (.body true) d ts
  | choice {d : Nat} {tag : Tag} {ts us : List Token} :
      Nests .segment d ts → TagName.isBranch tag.name → Nests (.body true) d us →
      Nests (.body true) d (ts ++ .tag tag :: us)

namespace Nests

theorem append {d : Nat} {xs ys : List Token} (hx : Nests .balanced d xs)
    (hy : Nests .balanced d ys) : Nests .balanced d (xs ++ ys) := by
  generalize hp : Phrase.balanced = p at hx
  induction hx with
  | nil => exact hy
  | leaf ht _ ih => exact .leaf ht (ih hy hp)
  | element hname hinner _ _ ih => simpa using element hname hinner (ih hy hp)
  | block htag hclose hinner _ _ ih => simpa using block htag hclose hinner (ih hy hp)
  | branched htag hclose hinner _ _ ih => simpa using branched htag hclose hinner (ih hy hp)
  | _ => cases hp

theorem append_tail {d : Nat} {xs ys : List Token} (hx : Nests .balanced d xs)
    (hy : Nests .tail d ys) : Nests .tail d (xs ++ ys) := by
  cases hy with
  | shut hy => exact .shut (hx.append hy)
  | unclosed hy hz =>
      rw [← List.append_assoc]
      exact .unclosed (hx.append hy) hz

theorem mono {p : Phrase} {d e : Nat} {ts : List Token} (h : Nests p d ts) (hde : d ≤ e) :
    Nests p e ts := by
  induction h generalizing e with
  | nil => exact .nil
  | leaf ht _ ih => exact .leaf ht (ih hde)
  | element hname _ _ ihinner ih =>
      obtain ⟨e, rfl⟩ : ∃ n, e = n + 1 := ⟨e - 1, by omega⟩
      exact .element hname (ihinner (by omega)) (ih hde)
  | block htag hclose _ _ ihinner ih =>
      obtain ⟨e, rfl⟩ : ∃ n, e = n + 1 := ⟨e - 1, by omega⟩
      exact .block htag hclose (ihinner (by omega)) (ih hde)
  | branched htag hclose _ _ ihinner ih =>
      obtain ⟨e, rfl⟩ : ∃ n, e = n + 2 := ⟨e - 2, by omega⟩
      exact .branched htag hclose (ihinner (by omega)) (ih hde)
  | shut _ ih => exact .shut (ih hde)
  | unclosed _ _ ihts ihus =>
      obtain ⟨e, rfl⟩ : ∃ n, e = n + 1 := ⟨e - 1, by omega⟩
      exact .unclosed (ihts hde) (ihus (by omega))
  | plain _ ih => exact .plain (ih hde)
  | dangling _ ih => exact .dangling (ih hde)
  | lastTurn _ ih => exact .lastTurn (ih hde)
  | turn _ htag _ ihts ihus => exact .turn (ihts hde) htag (ihus hde)
  | lastChoice _ ih => exact .lastChoice (ih hde)
  | choice _ htag _ ihts ihus => exact .choice (ihts hde) htag (ihus hde)

end Nests

def crossedBranches : List Token :=
  [.tagOpen ⟨"if", .text "a", .between 6 7, {}, .between 0 10⟩,
   .elementOpen [.text ⟨"b", .between 11 12⟩] [] (.between 10 13),
   .tag ⟨"else", .text "", .point 20, {}, .between 13 23⟩,
   .elementClose [.text ⟨"b", .between 25 26⟩] (.between 23 27),
   .tagClose ⟨"if", {}, .between 27 38⟩]

end LiquidTemplate
