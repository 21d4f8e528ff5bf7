import Mathlib.Tactic.ByContra
import LiquidTemplate.Proofs.Geometry.Pairs
import LiquidTemplate.Proofs.Rule.Tag

namespace LiquidTemplate

open Text
open Peg (Pair Grown)

namespace Peg

variable {ρ : Type} {lo hi : Nat} {ps : List (Pair ρ)} {p q : Pair ρ}

theorem Row.apart (h : Row lo hi ps) (hp : p ∈ ps) (hq : q ∈ ps) (hne : p ≠ q) :
    p.stop ≤ q.start ∨ q.stop ≤ p.start := by
  induction ps generalizing lo with
  | nil => cases hp
  | cons r ps ih =>
      obtain ⟨_, _, hrest⟩ := h
      rcases List.mem_cons.mp hp with rfl | hp'
      · rcases List.mem_cons.mp hq with rfl | hq'
        · exact absurd rfl hne
        · exact .inl (hrest.mem hq').1
      · rcases List.mem_cons.mp hq with rfl | hq'
        · exact .inr (hrest.mem hp').1
        · exact ih hrest hp' hq'

end Peg

variable {text : List Char} {p q name : Pair Rule}

theorem text_pos (h : Grown grammar text p) (hp : p.rule.solid) : 0 < text.length := by
  have hlt := grown_lt h hp
  have hle := h.stop_le
  cases text with
  | nil =>
      rw [byteLength_nil] at hle
      omega
  | cons => exact Nat.succ_pos _

/-- A part of a text that leaves out some of its bytes is shorter than it. -/
theorem length_lt (h : Grown grammar text p) (hlt : p.stop - p.start < byteLength text) :
    p.text.length < text.length := by
  obtain ⟨before, after, htext, _, hstop⟩ := h.text_eq
  have hlength := congrArg List.length htext
  rw [List.length_append, List.length_append] at hlength
  by_contra hge
  have hbefore : before = [] := List.eq_nil_of_length_eq_zero (by omega)
  have hafter : after = [] := List.eq_nil_of_length_eq_zero (by omega)
  subst hbefore hafter
  rw [List.nil_append, List.append_nil] at htext
  rw [htext] at hlt
  omega

/-- What stands beside a child that is not empty is shorter than the text. -/
theorem length_lt_of_beside (h : Grown grammar text p) (hname : name ∈ p.children)
    (hq : q ∈ p.children) (hne : name.rule ≠ q.rule) (hsolid : name.rule.solid) :
    q.text.length < text.length := by
  have hlt := grown_lt (h.children name hname) hsolid
  have hname' := h.row.mem hname
  have hq' := h.row.mem hq
  have hapart := h.row.apart hname hq fun heq => hne (congrArg Pair.rule heq)
  have hstop := h.stop_le
  apply length_lt (h.children q hq)
  omega

theorem rawTag_body_lt (h : Grown grammar text p) (hp : p.rule = .liquidRawTag) :
    ∃ opening body closing, p.children = [opening, body, closing] ∧ body.text.length < text.length := by
  obtain ⟨opening, body, closing, hchildren, ⟨hopening, _⟩, hbody, _⟩ := rawTag_children h hp
  have hmem : opening ∈ p.children := by simp [hchildren]
  refine ⟨opening, body, closing, hchildren, length_lt_of_beside h hmem (by simp [hchildren]) ?_ ?_⟩
  · rw [hopening, hbody]
    decide
  · rw [hopening]
    rfl

theorem rawElement_body_lt (h : Grown grammar text p) (hp : p.rule = .htmlRawTag) :
    ∃ name attributes body, p.children = name :: (attributes ++ [body]) ∧
      p.children.getLast? = some body ∧ body.text.length < text.length := by
  obtain ⟨name, attributes, body, hchildren, hlast, hname, hbody⟩ := rawElement_children h hp
  have hmem : name ∈ p.children := by simp [hchildren]
  refine ⟨name, attributes, body, hchildren, hlast,
    length_lt_of_beside h hmem (by simp [hchildren]) ?_ ?_⟩
  · rw [hname, hbody]
    decide
  · rw [hname]
    rfl

namespace Token

def Agree (text : List Char) (read read' : ReadText) : Prop :=
  ∀ (region : Region) (entry : Entry) (part : List Char), part.length < text.length →
    read region entry part = read' region entry part

section Readers

variable {read read' : ReadText} {region : Region} (hread : Agree text read read')

include hread

theorem tagOfParts_congr (build : Tag → Token) (name : String) {markup : List Char}
    (markupSpan : Span) (trim : Trim) (span : Span) (hmarkup : markup.length < text.length) :
    tagOfParts read region build name markup markupSpan trim span =
      tagOfParts read' region build name markup markupSpan trim span := by
  unfold tagOfParts
  rw [hread _ _ _ hmarkup]

theorem tagOfPair_congr (build : Tag → Token) (hp : Grown grammar text p) (hrule : p.rule ∈ Rule.markedRules) :
    tagOfPair read region build p = tagOfPair read' region build p := by
  obtain ⟨name, hname⟩ := find_name hp (List.mem_append_left _ hrule)
  have hisName := List.find?_some hname
  have hmem := List.mem_of_find?_eq_some hname
  obtain ⟨markup, markupSpan, hmarkup⟩ := exists_markupAt region.offset p name
  rw [tagOfPair_eq hp hrule hname hmarkup, tagOfPair_eq hp hrule hname hmarkup]
  apply tagOfParts_congr hread
  cases hmarkup with
  | found hm =>
      have hisMarkup := List.find?_some hm
      apply length_lt_of_beside hp hmem (List.mem_of_find?_eq_some hm)
      · intro heq
        rw [← heq, not_isTagMarkupRule _ hisName] at hisMarkup
        cases hisMarkup
      · exact solid_of_isTagNameRule _ hisName
  | missing => exact text_pos (hp.children name hmem) (solid_of_isTagNameRule _ hisName)

theorem rawTagBody_congr (name : String) {body : List Char} (start : Nat)
    (hbody : body.length < text.length) :
    rawTagBody read region name body start = rawTagBody read' region name body start := by
  unfold rawTagBody
  rw [hread _ _ _ hbody, hread _ _ _ hbody]

theorem rawTagOfPair_congr (hp : Grown grammar text p) (hrule : p.rule = .liquidRawTag) :
    rawTagOfPair read region p = rawTagOfPair read' region p := by
  obtain ⟨_, _, _, _, hchildren, _, _, _, _, heq⟩ := rawTagOfPair_eq hp hrule
  obtain ⟨_, _, _, hchildren', hlt⟩ := rawTag_body_lt hp hrule
  rw [hchildren] at hchildren'
  cases hchildren'
  rw [heq, heq, rawTagBody_congr hread _ _ hlt]

theorem liquidOfPair_congr (hp : Grown grammar text p) :
    liquidOfPair read region p = liquidOfPair read' region p := by
  unfold liquidOfPair
  split
  case h_2 hrule | h_3 hrule | h_4 hrule | h_5 hrule =>
    exact tagOfPair_congr hread _ hp (by simp [hrule, Rule.markedRules])
  case h_8 hrule => exact rawTagOfPair_congr hread hp hrule
  all_goals rfl

theorem valueOfPair_congr (hp : Grown grammar text p) :
    valueOfPair read region p = valueOfPair read' region p := by
  unfold valueOfPair
  rw [liquidOfPair_congr hread hp]

theorem attributeOfParts_congr (quotes : Quotes) (hp : Grown grammar text p)
    (hrule : p.rule ∈ [.attrDoubleQuoted, .attrSingleQuoted, .attrUnquoted]) :
    attributeOfParts read region quotes p = attributeOfParts read' region quotes p := by
  obtain ⟨name, value, hchildren, hname, hvalue⟩ := attribute_children hp hrule
  have hgrown := hp.children value (by simp [hchildren])
  rw [attributeOfParts_eq _ _ _ hchildren hname hvalue, attributeOfParts_eq _ _ _ hchildren hname hvalue,
    mapM_congr fun q hq => valueOfPair_congr hread (hgrown.children q hq)]

theorem attributeOfPair_congr (hp : Grown grammar text p) :
    attributeOfPair read region p = attributeOfPair read' region p := by
  unfold attributeOfPair
  split
  case h_1 hrule | h_2 hrule | h_3 hrule => exact attributeOfParts_congr hread _ hp (by simp [hrule])
  case h_4 => rfl
  case h_5 => exact liquidOfPair_congr hread hp

theorem attributes_congr {qs : List (Pair Rule)} (hp : Grown grammar text p) (hqs : ∀ q ∈ qs, q ∈ p.children) :
    qs.mapM (attributeOfPair read region) = qs.mapM (attributeOfPair read' region) :=
  mapM_congr fun q hq => attributeOfPair_congr hread (hp.children q (hqs q hq))

theorem elementOfPair_congr (build : List Piece → List Token → Span → Token) (hp : Grown grammar text p)
    (hrule : p.rule ∈ [.htmlSelfClosing, .htmlTagOpen, .htmlTagClose]) :
    elementOfPair read region build p = elementOfPair read' region build p := by
  obtain ⟨name, attributes, hchildren, _, _, heq⟩ := elementOfPair_eq hp hrule
  rw [heq, heq, attributes_congr hread hp fun q hq => by simp [hchildren, hq]]

theorem voidElementOfPair_congr (hp : Grown grammar text p) (hrule : p.rule = .htmlVoidElement) :
    voidElementOfPair read region p = voidElementOfPair read' region p := by
  obtain ⟨name, attributes, hchildren, _, _, heq⟩ := voidElementOfPair_eq hp hrule
  rw [heq, heq, attributes_congr hread hp fun q hq => by simp [hchildren, hq]]

theorem rawElementOfPair_congr (hp : Grown grammar text p) (hrule : p.rule = .htmlRawTag) :
    rawElementOfPair read region p = rawElementOfPair read' region p := by
  obtain ⟨name, attributes, body, hchildren, _, _, _, heq⟩ := rawElementOfPair_eq hp hrule
  obtain ⟨_, _, _, _, hlast, hlt⟩ := rawElement_body_lt hp hrule
  rw [hchildren, ← List.cons_append, List.getLast?_concat] at hlast
  cases hlast
  rw [heq, heq, attributes_congr hread hp fun q hq => by simp [hchildren, hq], hread _ _ _ hlt]

theorem ofPair_congr (hp : Grown grammar text p) :
    ofPair read region p = ofPair read' region p := by
  unfold ofPair
  simp only
  split
  case h_7 hrule => exact rawElementOfPair_congr hread hp hrule
  case h_8 hrule => exact voidElementOfPair_congr hread hp hrule
  case h_9 hrule | h_10 hrule | h_11 hrule => exact elementOfPair_congr hread _ hp (by simp [hrule])
  case h_15 => exact liquidOfPair_congr hread hp
  all_goals rfl

end Readers

/-- Once the depth exceeds the length of a text, how much larger it is makes no difference. -/
theorem readWithin_congr {depth depth' : Nat} {region : Region} {entry : Entry} (text : List Char)
    (h : text.length < depth) (h' : text.length < depth') :
    readWithin depth region entry text = readWithin depth' region entry text := by
  induction depth generalizing depth' region entry text with
  | zero => cases h
  | succ depth ih =>
      cases depth' with
      | zero => cases h'
      | succ depth' =>
          have hagree : Agree text (readWithin depth) (readWithin depth') := by
            intro region entry part hpart
            exact ih part (by omega) (by omega)
          rw [readWithin, readWithin]
          split
          · rfl
          · rename_i pairs hparse
            have hgrown := (Peg.Grammar.grown_parse hparse).1
            apply mapM_congr
            intro q hq
            obtain ⟨p, hp, hq⟩ := List.mem_flatMap.mp (List.mem_filter.mp hq).1
            exact ofPair_congr hagree ((hgrown p hp).children q hq)

/-- A text is read the same at any depth that exceeds its length. -/
theorem readWithin_eq_read {depth : Nat} {region : Region} {entry : Entry} {text : List Char}
    (h : text.length < depth) : readWithin depth region entry text = read region entry text :=
  readWithin_congr text h (Nat.lt_succ_self _)

end Token

end LiquidTemplate
