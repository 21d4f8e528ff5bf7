import LiquidTemplate.Document
import LiquidTemplate.Proofs.Embedding.Reading
import LiquidTemplate.Proofs.Nesting.Composition
import LiquidTemplate.Proofs.Shift.Building

namespace LiquidTemplate

open Text

def RawElement.ParsesAlone (text : List Char) (e : RawElement) (nodes : List Node) : Prop :=
  e.bodySpan.Holds text e.body.toList ∧
    ∃ d, Document.parseLiquid ⟨.tolerant, true⟩ e.body = .ok d ∧
      nodes = d.children.map (Node.shift e.bodySpan.lo)

def RawTag.ParsesAlone (text : List Char) (t : RawTag) (nodes : List Node) : Prop :=
  t.name = "style" →
    t.bodySpan.Holds text t.body.toList ∧
      ∃ d, Document.parseLiquid ⟨.tolerant, true⟩ t.body = .ok d ∧
        nodes = d.children.map (Node.shift t.bodySpan.lo)

def StatementsParseAlone (text : List Char) (mode : Mode) (trim : Trim) (span : Span)
    (body : List Node) : Prop :=
  ∃ markup start, LiquidMarkup text trim span markup start ∧
    ∃ d, Document.parse ⟨mode, false⟩ .statements (String.ofList markup) = .ok d ∧
      body = d.children.map (Node.shift start)

/-- If the tag is a `liquid` tag, its markup is kept as text, as it is no document of its own. -/
def TagHead.Unparsed (text : List Char) (mode : Mode) (head : TagHead) : Prop :=
  head.name = "liquid" → ∃ markup start, LiquidMarkup text head.trim head.span markup start ∧
    head.markup = .text (Token.trimmed markup) ∧
    ∃ e, Document.parse ⟨mode, false⟩ .statements (String.ofList markup) = .error e

namespace Node

def isAtom : Node → Bool
  | text _ | frontmatter .. | doctype .. | comment .. | danglingClose .. | bareAttribute .. | output _
  | docParam _ | docExample .. | docDescription .. => true
  | _ => false

/-- In the node, which was built in the mode, the nodes of every embedded text are those of a
document of its own, moved to where the text stands. -/
inductive Standalone (text : List Char) : Mode → Node → Prop
  | atom {mode n} : n.isAtom → Standalone text mode n
  | element {mode name attributes opening children closing} :
      (∀ n ∈ attributes, Standalone text mode n) → (∀ n ∈ children, Standalone text mode n) →
      Standalone text mode (element name attributes opening children closing)
  | rawElement {mode e kind attributes nodes} : e.ParsesAlone text nodes →
      (∀ n ∈ attributes, Standalone text mode n) → (∀ n ∈ nodes, Standalone text .tolerant n) →
      Standalone text mode (rawElement e kind attributes nodes)
  | voidElement {mode name attributes span} : (∀ n ∈ attributes, Standalone text mode n) →
      Standalone text mode (voidElement name attributes span)
  | selfClosing {mode name attributes span} : (∀ n ∈ attributes, Standalone text mode n) →
      Standalone text mode (selfClosing name attributes span)
  | valueAttribute {mode quotes name value valueSpan span} : (∀ n ∈ value, Standalone text mode n) →
      Standalone text mode (valueAttribute quotes name value valueSpan span)
  | tag {mode head} : head.Unparsed text mode → Standalone text mode (tag head)
  | block {mode head children closing} : (∀ n ∈ children, Standalone text mode n) →
      Standalone text mode (block head children closing)
  | branched {mode head first others closing} :
      (∀ b ∈ first :: others, ∀ n ∈ b.children, Standalone text mode n) →
      Standalone text mode (branched head first others closing)
  | statements {mode trim span body} : StatementsParseAlone text mode trim span body →
      (∀ n ∈ body, Standalone text mode n) → Standalone text mode (statements trim span body)
  | rawTag {mode tag kind nodes} : tag.ParsesAlone text nodes →
      (∀ n ∈ nodes, Standalone text .tolerant n) → Standalone text mode (rawTag tag kind nodes)

end Node

variable {text : List Char} {mode : Mode}

def standaloneTraits (text : List Char) (mode : Mode) : Traits where
  node := Node.Standalone text mode

theorem composes_standalone : Composes (standaloneTraits text mode) where
  element _ hattributes hchildren := .element hattributes hchildren
  danglingClose _ := .atom rfl
  block _ hchildren := .block hchildren
  branched _ hbranches := .branched fun b hb => (hbranches b hb).2
  firstBranch _ := trivial

/-- Tokens that were read alone are nested to the nodes of a document of its own. -/
theorem parse_of_readAlone (htext : byteLength text < Span.limit) {o : Options} {entry : Entry}
    {word : List Char} {s : Span} {ts : List Token} {nodes : List Node}
    (h : Token.ReadAlone text o.mode entry word s ts) (hnodes : Node.ofTokens o s.hi ts = .ok nodes) :
    ∃ d, Document.parse o entry (String.ofList word) = .ok d ∧
      nodes = d.children.map (Node.shift s.lo) := by
  obtain ⟨⟨hsits, hhi⟩, alone, hread, rfl⟩ := h
  have hend := hsits.boundary_end.le
  have htokens := Token.tokensIn_read (by omega) hread
  have hroom : byteLength word + s.lo < Span.limit := by omega
  have hshift := Node.ofTokens_shift hroom o hroom htokens
  rw [Nat.add_comm, hhi, hnodes] at hshift
  obtain ⟨children, hchildren, rfl⟩ := moved_eq_ok hshift.symm
  refine ⟨⟨children, String.ofList word, .between 0 (byteLength word)⟩, ?_, rfl⟩
  unfold Document.parse
  simp only [String.toList_ofList]
  exact bind_eq_ok.mpr ⟨alone, hread, bind_eq_ok.mpr ⟨children, hchildren, rfl⟩⟩

theorem unparsed_head {tag : Tag} (h : tag.Unread text mode) : tag.head.Unparsed text mode := by
  intro hname
  obtain ⟨markup, start, hmarkup, htext, e, he⟩ := h hname
  refine ⟨markup, start, hmarkup, ?_, e, ?_⟩
  · rw [Tag.head, htext]
    rfl
  · unfold Document.parse
    simp only [String.toList_ofList, he]
    rfl

namespace Nesting

theorem standalone_nested {o : Options} {stop : Nat} {ts : List Token} {b : Nesting}
    {nodes : List Node} (hfeed : feed o {} ts = .ok b) (hfinish : b.finish o stop = .ok nodes)
    (hts : ∀ t ∈ ts, ∀ {o : Options}, o.mode = mode → ∀ {item : Item}, complete o t = .ok item →
      item.Holds (standaloneTraits text mode)) (ho : o.mode = mode) :
    Node.ofTokens o stop ts = .ok nodes ∧ ∀ n ∈ nodes, Node.Standalone text mode n := by
  have hnodes : Node.ofTokens o stop ts = .ok nodes := bind_eq_ok.mpr ⟨b, hfeed, hfinish⟩
  refine ⟨hnodes, Node.holds_ofTokens composes_standalone ?_ hnodes⟩
  intro t ht item hitem
  exact hts t ht ho hitem

theorem complete_standalone (htext : byteLength text < Span.limit) {t : Token}
    (h : Token.Standalone text mode t) {o : Options} (ho : o.mode = mode) {item : Item}
    (hitem : complete o t = .ok item) : item.Holds (standaloneTraits text mode) := by
  induction h generalizing o item with
  | @atom mode t hatom =>
      cases t with
      | rawElement | voidElement | selfClosing | elementOpen | valueAttribute | tag | statements | rawTag =>
          cases hatom
      | elementClose | tagOpen | tagClose =>
          cases hitem
          trivial
      | _ =>
          cases hitem
          exact Node.Standalone.atom rfl
  | rawElement halone _ _ ihattributes ihbody =>
      simp only [complete, bind_eq_ok, pure_eq_ok] at hitem
      obtain ⟨b, hfeed, nodes, hfinish, b', hfeed', nodes', hfinish', rfl⟩ := hitem
      obtain ⟨_, hnodes⟩ := standalone_nested hfeed hfinish ihattributes ho
      obtain ⟨hof, hnodes'⟩ := standalone_nested hfeed' hfinish' ihbody rfl
      have hparse := parse_of_readAlone htext (o := Options.rawBody) halone hof
      rw [String.ofList_toList] at hparse
      exact Node.Standalone.rawElement ⟨halone.1, hparse⟩ hnodes hnodes'
  | voidElement _ ih =>
      simp only [complete, bind_eq_ok, pure_eq_ok] at hitem
      obtain ⟨b, hfeed, nodes, hfinish, rfl⟩ := hitem
      obtain ⟨_, hnodes⟩ := standalone_nested hfeed hfinish ih ho
      exact Node.Standalone.voidElement hnodes
  | selfClosing _ ih =>
      simp only [complete, bind_eq_ok, pure_eq_ok] at hitem
      obtain ⟨b, hfeed, nodes, hfinish, rfl⟩ := hitem
      obtain ⟨_, hnodes⟩ := standalone_nested hfeed hfinish ih ho
      exact Node.Standalone.selfClosing hnodes
  | elementOpen _ ih =>
      simp only [complete, bind_eq_ok, pure_eq_ok] at hitem
      obtain ⟨b, hfeed, nodes, hfinish, rfl⟩ := hitem
      obtain ⟨_, hnodes⟩ := standalone_nested hfeed hfinish ih ho
      exact ⟨trivial, hnodes⟩
  | valueAttribute _ ih =>
      simp only [complete, bind_eq_ok, pure_eq_ok] at hitem
      obtain ⟨b, hfeed, nodes, hfinish, rfl⟩ := hitem
      obtain ⟨_, hnodes⟩ := standalone_nested hfeed hfinish ih ho
      exact Node.Standalone.valueAttribute hnodes
  | tag hunread =>
      unfold complete at hitem
      split at hitem
      · cases hitem
        trivial
      · cases hitem
        exact Node.Standalone.tag (unparsed_head hunread)
  | statements halone _ ih =>
      subst ho
      obtain ⟨markup, hmarkup, halone⟩ := halone
      simp only [complete, bind_eq_ok, pure_eq_ok] at hitem
      obtain ⟨b, hfeed, nodes, hfinish, rfl⟩ := hitem
      obtain ⟨hof, hnodes⟩ := standalone_nested hfeed hfinish ih rfl
      have hparse := parse_of_readAlone htext (o := o.nested) halone hof
      exact Node.Standalone.statements ⟨markup, _, hmarkup, hparse⟩ hnodes
  | rawTag halone _ ih =>
      simp only [complete, bind_eq_ok, pure_eq_ok] at hitem
      obtain ⟨b, hfeed, nodes, hfinish, rfl⟩ := hitem
      obtain ⟨hof, hnodes⟩ := standalone_nested hfeed hfinish ih rfl
      refine Node.Standalone.rawTag ?_ hnodes
      intro hstyle
      have hparse := parse_of_readAlone htext (o := Options.rawBody) (halone hstyle) hof
      rw [String.ofList_toList] at hparse
      exact ⟨(halone hstyle).1, hparse⟩

end Nesting

end LiquidTemplate
