import LiquidTemplate.Proofs.Geometry.Reading
import LiquidTemplate.Proofs.Rule.Markup

namespace LiquidTemplate

open Text
open Peg (Pair Grown Trimmed)

namespace Token

def nested : Token → List Token
  | rawElement _ attributes body => attributes ++ body
  | voidElement _ attributes _ | selfClosing _ attributes _ | elementOpen _ attributes _ => attributes
  | valueAttribute _ _ value _ _ => value
  | statements _ body | rawTag _ body => body
  | _ => []

inductive All (P : Token → Prop) : Token → Prop
  | mk {t : Token} : P t → (∀ u ∈ t.nested, All P u) → All P t

theorem All.mono {P Q : Token → Prop} (hPQ : ∀ t, P t → Q t) {t : Token} (h : All P t) : All Q t := by
  induction h with
  | mk ht _ ih => exact .mk (hPQ _ ht) ih

/-- Where in the text a token was read: from a pair of a document, of an attribute or of the value of
one, or as the text of a verbatim body. -/
inductive Made (text : List Char) : Token → Prop
  | ofDocument {read region p t} : Seated text region.offset p → ofPair read region p = .ok t → Made text t
  | ofAttribute {read region p t} : Seated text region.offset p → attributeOfPair read region p = .ok t →
      Made text t
  | ofValue {read region p t} : Seated text region.offset p → valueOfPair read region p = .ok t → Made text t
  | ofVerbatim {body start t} : Sits text start body → t ∈ verbatim body start → Made text t

variable {text : List Char} {read : ReadText} {region : Region} {p : Pair Rule}

theorem MarkupAt.trimmed {offset : Nat} {name : Pair Rule} {markup : List Char} {s : Span}
    (hp : Grown grammar text p) (h : MarkupAt offset p name markup s) : Trimmed markupBlanks markup := by
  cases h with
  | found hm =>
      have hrule := List.find?_some hm
      exact trimmed_markup (hp.children _ (List.mem_of_find?_eq_some hm)) (by simp [Rule.isMarkup, hrule])
  | missing => exact Peg.trimmed_nil _

/-- The name and the markup of a tag stand in the tag, the markup without blanks around it. -/
theorem tagOfPair_ok (htext : byteLength text < Span.limit) {build : Tag → Token} {t : Token}
    (hp : Seated text region.offset p) (hrule : p.rule ∈ Rule.markedRules)
    (h : tagOfPair read region build p = .ok t) :
    ∃ name markup markupSpan, markupSpan.Inside text (p.span region.offset).lo (p.span region.offset).hi ∧
      markupSpan.Holds text markup ∧ Trimmed markupBlanks markup ∧
      TagRead read region build name markup markupSpan (trimOfPairs p.children) (p.span region.offset) t := by
  obtain ⟨_, _, hgrown⟩ := id hp
  obtain ⟨name, markup, markupSpan, hname, hmarkup, h⟩ := tagOfPair_parts hgrown hrule h
  obtain ⟨hinside, hholds⟩ := hmarkup.holds htext hp (List.mem_of_find?_eq_some hname)
  exact ⟨_, markup, markupSpan, hinside, hholds, hmarkup.trimmed hgrown, h⟩

def ReadsMade (text : List Char) (read : ReadText) : Prop :=
  ∀ (region : Region) (entry : Entry) (part : List Char) (ts : List Token),
    Sits text region.offset part → read region entry part = .ok ts → ∀ t ∈ ts, All (Made text) t

/-- The property holds of all that a token of a region in one of the modes can have in it: attributes, parts
of their values, texts of verbatim bodies, and the tokens of texts that are read again. Texts are read again
in the mode of the region, or tolerantly. -/
structure HoldsInside (text : List Char) (read : ReadText) (modes : Mode → Prop) (P : Token → Prop) :
    Prop where
  tolerant : modes .tolerant
  ofAttribute : ∀ {region p t}, modes region.mode → Seated text region.offset p →
    attributeOfPair read region p = .ok t → P t
  ofValue : ∀ {region p t}, modes region.mode → Seated text region.offset p →
    valueOfPair read region p = .ok t → P t
  ofVerbatim : ∀ {body start t}, Sits text start body → t ∈ verbatim body start → P t
  ofRead : ∀ {offset mode entry part ts}, modes mode → entry ≠ .liquidHtml → Sits text offset part →
    read ⟨offset, mode⟩ entry part = .ok ts → ∀ t ∈ ts, All P t

section Readers

variable (htext : byteLength text < Span.limit) {modes : Mode → Prop} {P : Token → Prop}
  (hinside : HoldsInside text read modes P)

include hinside

theorem all_verbatim {body : List Char} {start : Nat} (hbody : Sits text start body) :
    ∀ t ∈ verbatim body start, All P t := by
  intro t ht
  refine .mk (hinside.ofVerbatim hbody ht) ?_
  rw [mem_verbatim ht]
  simp [nested]

variable (hmode : modes region.mode)

include hmode

theorem all_rawTagBody {name : String} {body : List Char} {start : Nat} {ts : List Token}
    (hbody : Sits text start body) (h : rawTagBody read region name body start = .ok ts) : ∀ t ∈ ts, All P t := by
  rcases rawTagBody_ok h with ⟨_, h⟩ | ⟨_, h⟩ | ⟨_, rfl⟩
  · exact hinside.ofRead hmode (by decide) hbody h
  · exact hinside.ofRead hinside.tolerant (by decide) hbody h
  · exact all_verbatim hinside hbody

include htext

theorem nested_tagOfPair {build : Tag → Token} {t : Token} (hbuild : ∀ tag, (build tag).nested = [])
    (hp : Seated text region.offset p) (hrule : p.rule ∈ Rule.markedRules)
    (h : tagOfPair read region build p = .ok t) :
    ∀ u ∈ t.nested, All P u := by
  obtain ⟨_, _, _, _, hholds, _, h⟩ := tagOfPair_ok htext hp hrule h
  cases h with
  | unknown | known | unread => simp [hbuild]
  | statements _ hbody => exact hinside.ofRead hmode (by decide) hholds.1 hbody

theorem nested_liquidOfPair {t : Token} (hp : Seated text region.offset p)
    (h : liquidOfPair read region p = .ok t) : ∀ u ∈ t.nested, All P u := by
  obtain ⟨_, _, hgrown⟩ := id hp
  cases LiquidRead.of_pair hgrown h with
  | tagOpen hrule h =>
      exact nested_tagOfPair htext hinside hmode (fun _ => rfl) hp (Rule.mem_markedRules_of_open hrule) h
  | tag hrule h =>
      exact nested_tagOfPair htext hinside hmode (fun _ => rfl) hp (Rule.mem_markedRules_of_tag hrule) h
  | @rawTag _ body _ _ _ _ _ _ hchildren _ _ hts =>
      have hbody : Seated text region.offset body := hp.child (by simp [hchildren])
      exact all_rawTagBody hinside hmode (hbody.fills_span htext).1 hts
  | @comment body _ _ hchildren =>
      have hbody : Seated text region.offset body := hp.child (by simp [hchildren])
      exact all_verbatim hinside (hbody.fills_span htext).1
  | output | tagClose => simp [nested]

theorem nested_valueOfPair {t : Token} (hp : Seated text region.offset p)
    (h : valueOfPair read region p = .ok t) : ∀ u ∈ t.nested, All P u := by
  cases ValueRead.of_pair h with
  | text => simp [nested]
  | liquid h => exact nested_liquidOfPair htext hinside hmode hp h

theorem nested_attributeOfPair {t : Token} (hp : Seated text region.offset p)
    (h : attributeOfPair read region p = .ok t) : ∀ u ∈ t.nested, All P u := by
  obtain ⟨_, _, hgrown⟩ := id hp
  cases AttributeRead.of_pair hgrown h with
  | @value _ _ value _ _ _ _ hchildren _ hparts =>
      refine forall_mapM_ok ?_ hparts
      intro q hq u hu
      have hq : Seated text region.offset q := (hp.child (q := value) (by simp [hchildren])).child hq
      exact .mk (hinside.ofValue hmode hq hu) (nested_valueOfPair htext hinside hmode hq hu)
  | bare => simp [nested]
  | liquid h => exact nested_liquidOfPair htext hinside hmode hp h

theorem all_attributes {ps : List (Pair Rule)} {ts : List Token} (hps : ps ⊆ p.children)
    (hp : Seated text region.offset p) (h : ps.mapM (attributeOfPair read region) = .ok ts) :
    ∀ t ∈ ts, All P t := by
  refine forall_mapM_ok ?_ h
  intro q hq t ht
  have hq := hp.child (hps hq)
  exact .mk (hinside.ofAttribute hmode hq ht) (nested_attributeOfPair htext hinside hmode hq ht)

theorem nested_ofPair {t : Token} (hp : Seated text region.offset p) (h : ofPair read region p = .ok t) :
    ∀ u ∈ t.nested, All P u := by
  obtain ⟨_, _, hgrown⟩ := id hp
  cases PairRead.of_pair hgrown h with
  | rawElement _ hchildren hlast has hts =>
      have hbody := hp.child (List.mem_of_getLast? hlast)
      refine List.forall_mem_append.mpr ⟨all_attributes htext hinside hmode (dropLast_subset hchildren) hp has, ?_⟩
      exact hinside.ofRead hinside.tolerant (by decide) (hbody.fills_span htext).1 hts
  | voidElement _ hchildren has | selfClosing _ hchildren _ has | elementOpen _ hchildren _ has =>
      exact all_attributes htext hinside hmode (by simp [hchildren]) hp has
  | liquid h => exact nested_liquidOfPair htext hinside hmode hp h
  | text | frontmatter | doctype | comment | elementClose | docParam | docExample | docDescription =>
      simp [nested]

end Readers

/-- A token of a text is made of a part of the pair of the whole text. -/
theorem mem_readWithin {depth : Nat} {entry : Entry} {ts : List Token} {t : Token}
    (h : readWithin (depth + 1) region entry text = .ok ts) (ht : t ∈ ts) :
    ∃ p q, Grown grammar text p ∧ p.rule = entry.startRule ∧ q ∈ p.children ∧
      ofPair (readWithin depth) region q = .ok t := by
  rw [readWithin] at h
  split at h
  · cases h
  · rename_i pairs hparse
    obtain ⟨q, hq, ht⟩ := mem_mapM_ok h ht
    obtain ⟨p, hp, hq⟩ := List.mem_flatMap.mp (List.mem_filter.mp hq).1
    have hrule := Peg.Grammar.parse_rule hparse (by cases entry <;> decide) p hp
    exact ⟨p, q, (Peg.Grammar.grown_parse hparse).1 p hp, hrule, hq, ht⟩

/-- What holds of all tokens that the pairs of a text make, and of all that is read inside these, holds of
the tokens of the text at any depth. -/
theorem all_readWithin (htext : byteLength text < Span.limit) {depth : Nat} {P : Token → Prop}
    (hinside : HoldsInside text (readWithin depth) (fun _ => True) P) {entry : Entry} {part : List Char}
    (hpart : Sits text region.offset part)
    (hmade : ∀ p q t, Grown grammar part p → p.rule = entry.startRule → q ∈ p.children →
      ofPair (readWithin depth) region q = .ok t → P t)
    {ts : List Token} (h : readWithin (depth + 1) region entry part = .ok ts) : ∀ t ∈ ts, t.All P := by
  intro t ht
  obtain ⟨p, q, hp, hrule, hq, ht⟩ := mem_readWithin h ht
  have hseated : Seated text region.offset q := ⟨part, hpart, hp.children q hq⟩
  exact .mk (hmade p q t hp hrule hq ht) (nested_ofPair htext hinside trivial hseated ht)

theorem ReadsMade.holdsInside (h : ReadsMade text read) :
    HoldsInside text read (fun _ => True) (Made text) where
  tolerant := trivial
  ofAttribute _ := .ofAttribute
  ofValue _ := .ofValue
  ofVerbatim := .ofVerbatim
  ofRead _ _ hpart hts := h _ _ _ _ hpart hts

theorem readsMade_readWithin (htext : byteLength text < Span.limit) (depth : Nat) :
    ReadsMade text (readWithin depth) := by
  induction depth with
  | zero =>
      intro region entry part ts _ h
      cases h
  | succ depth ih =>
      intro region entry part ts hpart h
      refine all_readWithin htext ih.holdsInside hpart ?_ h
      intro p q t hp _ hq ht
      exact .ofDocument ⟨part, hpart, hp.children q hq⟩ ht

/-- Every token of a text, at any depth, was read in the text. -/
theorem all_made (htext : byteLength text < Span.limit) {mode : Mode} {entry : Entry} {ts : List Token}
    (h : Token.read ⟨0, mode⟩ entry text = .ok ts) : ∀ t ∈ ts, All (Made text) t :=
  readsMade_readWithin htext _ _ _ _ _ (Sits.self text) h

end Token

end LiquidTemplate
