import Mathlib.Data.List.Forall2
import LiquidTemplate.Proofs.Geometry.Span
import LiquidTemplate.Proofs.Rule.Output

namespace LiquidTemplate

open Text
open Peg (Pair Grown)

def Placeholding (text : List Char) (part : String) : Prop :=
  placeholder ∈ part.toList ∧ part.toList <:+: text

structure Output.Alike (text : List Char) (o o' : Output) : Prop where
  trim : o.trim = o'.trim
  span : o.span = o'.span
  markup : o.markup = o'.markup ∨ ∃ part, o.markup = .raw part ∧ Placeholding text part

structure Tag.Alike (text : List Char) (t t' : Tag) : Prop where
  name : t.name = t'.name
  markupSpan : t.markupSpan = t'.markupSpan
  trim : t.trim = t'.trim
  span : t.span = t'.span
  markup : t.markup = t'.markup ∨ ∃ part, t.markup = .text part ∧ Placeholding text part

inductive Piece.Alike (text : List Char) : Piece → Piece → Prop
  | text (run : TextRun) : Alike text (.text run) (.text run)
  | output {o o' : Output} : o.Alike text o' → Alike text (.output o) (.output o')

/-- The same token, but for the markup of tags and outputs in it that is kept as text with the placeholder
in it.  Bodies of raw constructs are the same throughout. -/
inductive Token.Alike (text : List Char) : Token → Token → Prop
  | same (t : Token) : Alike text t t
  | rawElement (element : RawElement) {attributes attributes' : List Token} (body : List Token) :
      List.Forall₂ (Alike text) attributes attributes' →
      Alike text (.rawElement element attributes body) (.rawElement element attributes' body)
  | voidElement (name : TextRun) {attributes attributes' : List Token} (span : Span) :
      List.Forall₂ (Alike text) attributes attributes' →
      Alike text (.voidElement name attributes span) (.voidElement name attributes' span)
  | selfClosing {name name' : List Piece} {attributes attributes' : List Token} (span : Span) :
      List.Forall₂ (Piece.Alike text) name name' → List.Forall₂ (Alike text) attributes attributes' →
      Alike text (.selfClosing name attributes span) (.selfClosing name' attributes' span)
  | elementOpen {name name' : List Piece} {attributes attributes' : List Token} (span : Span) :
      List.Forall₂ (Piece.Alike text) name name' → List.Forall₂ (Alike text) attributes attributes' →
      Alike text (.elementOpen name attributes span) (.elementOpen name' attributes' span)
  | elementClose {name name' : List Piece} (span : Span) : List.Forall₂ (Piece.Alike text) name name' →
      Alike text (.elementClose name span) (.elementClose name' span)
  | valueAttribute (quotes : Quotes) {name name' : List Piece} {value value' : List Token}
      (valueSpan span : Span) :
      List.Forall₂ (Piece.Alike text) name name' → List.Forall₂ (Alike text) value value' →
      Alike text (.valueAttribute quotes name value valueSpan span)
        (.valueAttribute quotes name' value' valueSpan span)
  | bareAttribute {name name' : List Piece} (span : Span) : List.Forall₂ (Piece.Alike text) name name' →
      Alike text (.bareAttribute name span) (.bareAttribute name' span)
  | output {o o' : Output} : o.Alike text o' → Alike text (.output o) (.output o')
  | tagOpen {t t' : Tag} : t.Alike text t' → Alike text (.tagOpen t) (.tagOpen t')
  | tag {t t' : Tag} : t.Alike text t' → Alike text (.tag t) (.tag t')
  | statements (head : Statements) {body body' : List Token} : List.Forall₂ (Alike text) body body' →
      Alike text (.statements head body) (.statements head body')

section Equal

variable {text : List Char} (htext : placeholder ∉ text)

include htext

theorem not_placeholding (part : String) : ¬Placeholding text part :=
  fun ⟨hmem, hpart⟩ => htext (hpart.mem hmem)

theorem Output.Alike.eq {o o' : Output} (h : o.Alike text o') : o = o' := by
  obtain ⟨markup, trim, span⟩ := o
  obtain ⟨htrim, hspan, hmarkup⟩ := h
  rcases hmarkup with hmarkup | ⟨part, _, hpart⟩
  · cases htrim
    cases hspan
    cases hmarkup
    rfl
  · exact absurd hpart (not_placeholding htext part)

theorem Tag.Alike.eq {t t' : Tag} (h : t.Alike text t') : t = t' := by
  obtain ⟨name, markup, markupSpan, trim, span⟩ := t
  obtain ⟨hname, hmarkupSpan, htrim, hspan, hmarkup⟩ := h
  rcases hmarkup with hmarkup | ⟨part, _, hpart⟩
  · cases hname
    cases hmarkupSpan
    cases htrim
    cases hspan
    cases hmarkup
    rfl
  · exact absurd hpart (not_placeholding htext part)

theorem Piece.Alike.eq {p p' : Piece} (h : p.Alike text p') : p = p' := by
  cases h with
  | text => rfl
  | output h => rw [h.eq htext]

theorem eq_of_forall₂_pieceAlike {ps ps' : List Piece} (h : List.Forall₂ (Piece.Alike text) ps ps') :
    ps = ps' := by
  induction h with
  | nil => rfl
  | cons h _ ih => rw [h.eq htext, ih]

end Equal

mutual

/-- In a text without the placeholder, tokens are alike only if they are equal. -/
theorem Token.Alike.eq {text : List Char} (htext : placeholder ∉ text) :
    ∀ {t t' : Token}, t.Alike text t' → t = t'
  | _, _, .same _ => rfl
  | .rawElement .., _, .rawElement _ _ h => by rw [eq_of_forall₂_alike htext h]
  | .voidElement .., _, .voidElement _ _ h => by rw [eq_of_forall₂_alike htext h]
  | .selfClosing .., _, .selfClosing _ hname h => by
      rw [eq_of_forall₂_pieceAlike htext hname, eq_of_forall₂_alike htext h]
  | .elementOpen .., _, .elementOpen _ hname h => by
      rw [eq_of_forall₂_pieceAlike htext hname, eq_of_forall₂_alike htext h]
  | .elementClose .., _, .elementClose _ hname => by rw [eq_of_forall₂_pieceAlike htext hname]
  | .valueAttribute .., _, .valueAttribute _ _ _ hname h => by
      rw [eq_of_forall₂_pieceAlike htext hname, eq_of_forall₂_alike htext h]
  | .bareAttribute .., _, .bareAttribute _ hname => by rw [eq_of_forall₂_pieceAlike htext hname]
  | .output _, _, .output h => by rw [h.eq htext]
  | .tagOpen _, _, .tagOpen h => by rw [h.eq htext]
  | .tag _, _, .tag h => by rw [h.eq htext]
  | .statements .., _, .statements _ h => by rw [eq_of_forall₂_alike htext h]

theorem eq_of_forall₂_alike {text : List Char} (htext : placeholder ∉ text) :
    ∀ {ts ts' : List Token}, List.Forall₂ (Token.Alike text) ts ts' → ts = ts'
  | [], _, .nil => rfl
  | _ :: _, _, .cons h hs => by rw [h.eq htext, eq_of_forall₂_alike htext hs]

end

/-- The span of an output without markup, in a text that starts at the offset. -/
def Span.Hollow (text : List Char) (offset : Nat) (s : Span) : Prop :=
  ∃ n word, Sits text n word ∧ LiquidTemplate.Hollow word ∧
    s = .between (offset + n) (offset + n + byteLength word)

section Hollow

variable {text : List Char} {base : Nat}

theorem Text.Sits.eq {v w : List Char} {n : Nat} (hv : Sits text n v) (hw : Sits text n w)
    (hlength : byteLength v = byteLength w) : v = w := by
  obtain ⟨before, after, rfl, rfl⟩ := hv
  obtain ⟨before', after', heq, hbefore⟩ := hw
  have hslice := slice?_append before v after
  rw [heq, ← hbefore, hlength, slice?_append] at hslice
  exact (Option.some.inj hslice).symm

theorem Span.ofNat_add_inj {m n : Nat} (hm : m < limit) (hn : n < limit)
    (h : Int64.ofNat (base + m) = Int64.ofNat (base + n)) : m = n := by
  have hwords := congrArg (·.toBitVec.toNat) h
  simp only [Int64.toBitVec_ofNat', BitVec.toNat_ofNat] at hwords
  unfold limit at hm hn
  omega

variable {p : Pair Rule}

theorem hollow_span (h : Grown grammar text p) (hp : p.rule = .liquidDrop)
    (hno : ∀ q ∈ p.children, q.rule ≠ .dropMarkup) : (p.span base).Hollow text base := by
  obtain ⟨before, after, htext, hstart, hstop⟩ := h.text_eq
  refine ⟨p.start, p.text, ⟨before, after, htext, hstart⟩, (hollow_iff h hp).mpr hno, ?_⟩
  rw [Pair.span, hstop, Nat.add_assoc]

/-- The span of an output says where it is, even if it wraps around. -/
theorem not_marked_of_hollow_span (h : Grown grammar text p) (hp : p.rule = .liquidDrop)
    (htext : byteLength text < Span.limit) (hspan : (p.span base).Hollow text base) :
    ∀ q ∈ p.children, q.rule ≠ .dropMarkup := by
  obtain ⟨n, word, hword, hhollow, heq⟩ := hspan
  obtain ⟨before, after, htext', hstart, hstop⟩ := h.text_eq
  have hsits : Sits text p.start p.text := ⟨before, after, htext', hstart⟩
  have hle := hsits.boundary_end.le
  have hle' := hword.boundary_end.le
  rw [Pair.span, Span.between, Span.between, Span.mk.injEq, hstop, Nat.add_assoc] at heq
  obtain rfl := Span.ofNat_add_inj (by omega) (by omega) heq.1
  have hlength := Span.ofNat_add_inj (by omega) (by omega) heq.2
  rw [← hsits.eq hword (by omega)] at hhollow
  exact (hollow_iff h hp).mp hhollow

end Hollow

def Output.Structured (text : List Char) (offset : Nat) (o : Output) : Prop :=
  ∀ part, o.markup = .raw part → o.span.Hollow text offset

/-- The markup was read, if it has a grammar of its own. -/
def Tag.Structured (t : Tag) : Prop :=
  NamedTag.ofName? t.name ≠ none → ∀ part, t.markup ≠ .text part

def Piece.Structured (text : List Char) (offset : Nat) : Piece → Prop
  | .text _ => True
  | .output o => o.Structured text offset

mutual

/-- All markup in the token was read, but for the bodies of raw elements and of `style` tags, which may
hold anything. -/
def Token.Structured (text : List Char) (offset : Nat) : Token → Prop
  | .rawElement _ attributes _ => AllStructured text offset attributes
  | .voidElement _ attributes _ => AllStructured text offset attributes
  | .selfClosing name attributes _ | .elementOpen name attributes _ =>
    (∀ piece ∈ name, piece.Structured text offset) ∧ AllStructured text offset attributes
  | .elementClose name _ | .bareAttribute name _ => ∀ piece ∈ name, piece.Structured text offset
  | .valueAttribute _ name value _ _ =>
    (∀ piece ∈ name, piece.Structured text offset) ∧ AllStructured text offset value
  | .output o => o.Structured text offset
  | .tagOpen tag | .tag tag => tag.Structured
  | .statements _ body => AllStructured text offset body
  | .rawTag tag body => tag.name ≠ "style" → AllStructured text offset body
  | _ => True

def AllStructured (text : List Char) (offset : Nat) : List Token → Prop
  | [] => True
  | t :: ts => t.Structured text offset ∧ AllStructured text offset ts

end

theorem allStructured_iff {text : List Char} {offset : Nat} {ts : List Token} :
    AllStructured text offset ts ↔ ∀ t ∈ ts, t.Structured text offset := by
  induction ts with
  | nil => simp [AllStructured]
  | cons t ts ih => rw [AllStructured, ih, List.forall_mem_cons]

end LiquidTemplate
