import LiquidTemplate.Proofs.Origin.Reading
import LiquidTemplate.Proofs.Rule.Arrangement

namespace LiquidTemplate

open Text Rule
open Peg (Pair Grown)

namespace Token

def opensElement : Token → Bool
  | elementOpen .. => true
  | _ => false

variable {text : List Char} {read : ReadText} {region : Region} {p : Pair Rule} {t : Token}

theorem opensElement_liquidOfPair (hp : Grown grammar text p) (h : liquidOfPair read region p = .ok t) :
    t.opensElement = false := by
  cases LiquidRead.of_pair hp h with
  | tagOpen hrule h =>
      obtain ⟨_, _, _, _, _, h⟩ := tagOfPair_parts hp (mem_markedRules_of_open hrule) h
      cases h <;> rfl
  | tag hrule h =>
      obtain ⟨_, _, _, _, _, h⟩ := tagOfPair_parts hp (mem_markedRules_of_tag hrule) h
      cases h <;> rfl
  | output | tagClose | rawTag | comment => rfl

theorem opensElement_valueOfPair (hp : Grown grammar text p) (h : valueOfPair read region p = .ok t) :
    t.opensElement = false := by
  cases ValueRead.of_pair h with
  | text => rfl
  | liquid h => exact opensElement_liquidOfPair hp h

theorem opensElement_attributeOfPair (hp : Grown grammar text p) (h : attributeOfPair read region p = .ok t) :
    t.opensElement = false := by
  cases AttributeRead.of_pair hp h with
  | value | bare => rfl
  | liquid h => exact opensElement_liquidOfPair hp h

theorem opensElement_ofPair (hp : Grown grammar text p) (hrule : p.rule ≠ .htmlTagOpen)
    (h : ofPair read region p = .ok t) :
    t.opensElement = false := by
  cases PairRead.of_pair hp h with
  | elementOpen hopen => exact absurd hopen hrule
  | liquid h => exact opensElement_liquidOfPair hp h
  | _ => rfl

/-- Only Liquid in HTML has elements. -/
theorem ne_htmlTagOpen {entry : Entry} (hentry : entry ≠ .liquidHtml) (hp : Grown grammar text p)
    (hrule : p.rule = entry.startRule) : ∀ q ∈ p.children, q.rule ≠ .htmlTagOpen := by
  have hstart : p.rule ∈ [liquidDocument, liquidTagContents, liquidDocContents] := by
    rw [hrule]
    cases entry with
    | liquidHtml => exact absurd rfl hentry
    | liquid | statements | doc => decide
  have hallowed := children_within hp hstart
    (liquidParts ++ [.liquidTextNode, .statementComment, .statementClose, .statementOpen, .statementTag,
      .docParam, .docExample, .docDescription, .docText, .endOfInput]) (by decide)
  intro q hq heq
  have hmem := hallowed q hq
  rw [heq] at hmem
  exact absurd hmem (by decide)

theorem opensElement_verbatim {body : List Char} {start : Nat} (h : t ∈ verbatim body start) :
    t.opensElement = false := by
  rw [mem_verbatim h]
  rfl

/-- No element is opened inside a token: the texts that are read again have no elements. -/
theorem holdsInside_opensElement (htext : byteLength text < Span.limit) (depth : Nat) :
    HoldsInside text (readWithin depth) (fun _ => True) fun t => t.opensElement = false := by
  constructor
  case tolerant => trivial
  case ofAttribute => exact fun _ ⟨_, _, hp⟩ => opensElement_attributeOfPair hp
  case ofValue => exact fun _ ⟨_, _, hp⟩ => opensElement_valueOfPair hp
  case ofVerbatim => exact fun _ => opensElement_verbatim
  case ofRead =>
    intro offset mode entry part ts _ hentry hpart h
    cases depth with
    | zero => cases h
    | succ depth =>
        refine all_readWithin htext (holdsInside_opensElement htext depth) hpart ?_ h
        intro p q t hp hrule hq ht
        exact opensElement_ofPair (hp.children q hq) (ne_htmlTagOpen hentry hp hrule q hq) ht

theorem nested_opensElement (htext : byteLength text < Span.limit) {mode : Mode} {entry : Entry}
    {ts : List Token} (h : Token.read ⟨0, mode⟩ entry text = .ok ts) :
    ∀ t ∈ ts, ∀ u ∈ t.nested, u.All fun v => v.opensElement = false := by
  intro t ht
  obtain ⟨p, q, hp, _, hq, ht⟩ := mem_readWithin h ht
  have hseated : Seated text 0 q := ⟨text, Sits.self text, hp.children q hq⟩
  exact nested_ofPair htext (holdsInside_opensElement htext _) trivial hseated ht

end Token

end LiquidTemplate
