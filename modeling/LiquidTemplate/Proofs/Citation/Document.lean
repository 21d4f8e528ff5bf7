import LiquidTemplate.Document
import LiquidTemplate.Proofs.Citation.Reading
import LiquidTemplate.Proofs.Nesting.Composition

namespace LiquidTemplate

open Text

namespace Node

def nested : Node → List Node
  | element _ attributes _ children _ => attributes ++ children
  | rawElement _ _ attributes nodes => attributes ++ nodes
  | voidElement _ attributes _ | selfClosing _ attributes _ => attributes
  | valueAttribute _ _ value _ _ => value
  | block _ children _ => children
  | branched _ first others _ => (first :: others).flatMap Branch.children
  | statements _ _ body => body
  | rawTag _ _ nodes => nodes
  | _ => []

inductive All (P : Node → Prop) : Node → Prop
  | mk {n : Node} : P n → (∀ m ∈ n.nested, All P m) → All P n

/-- The texts of the node that have spans, those of nested nodes apart, are what the source has there;
what the markup of an output, a tag or a branch holds lies in the output, or in the opening of the
tag or the branch. -/
def Cites (source : String) : Node → Prop
  | text run => run.Cites source
  | element name _ _ _ _ | selfClosing name _ _ | danglingClose name _ | valueAttribute _ name _ _ _
  | bareAttribute name _ => ∀ piece ∈ name, piece.Cites source
  | rawElement e _ _ _ => e.name.Cites source ∧ e.bodySpan.slice source = e.body
  | voidElement name _ _ => name.Cites source
  | output o => o.Cites source
  | tag head | block head _ _ => head.markup.Cites source head.span
  | branched head first others _ =>
    head.markup.Cites source head.span ∧
      ∀ b ∈ first :: others, b.head.markup.Cites source b.head.span
  | rawTag t _ _ => t.bodySpan.slice source = t.body
  | _ => True

end Node

variable {source : String}

def citingTraits (source : String) : Traits where
  node := Node.All (Node.Cites source)
  name pieces := ∀ piece ∈ pieces, piece.Cites source
  markup m span := m.Cites source span

theorem composes_citing : Composes (citingTraits source) where
  element hname hattributes hchildren :=
    .mk hname (List.forall_mem_append.mpr ⟨hattributes, hchildren⟩)
  danglingClose hname := .mk hname (by simp [Node.nested])
  block hhead hchildren := .mk hhead hchildren
  branched hhead hbranches := by
    refine .mk ⟨hhead, fun b hb => (hbranches b hb).1⟩ ?_
    intro n hn
    obtain ⟨b, hb, hn⟩ := List.mem_flatMap.mp hn
    exact (hbranches b hb).2 n hn
  firstBranch _ := trivial

namespace Nesting

theorem citing_nested {o : Options} {stop : Nat} {ts : List Token} {b : Nesting} {nodes : List Node}
    (hfeed : feed o {} ts = .ok b) (hfinish : b.finish o stop = .ok nodes)
    (hts : ∀ t ∈ ts, ∀ {o : Options} {item : Item}, complete o t = .ok item →
      item.Holds (citingTraits source)) : ∀ n ∈ nodes, n.All (Node.Cites source) := by
  have hnodes : Node.ofTokens o stop ts = .ok nodes := bind_eq_ok.mpr ⟨b, hfeed, hfinish⟩
  exact Node.holds_ofTokens composes_citing (fun t ht item hitem => hts t ht hitem) hnodes

theorem complete_cites {t : Token} (h : t.All (Token.Cites source)) {o : Options} {item : Item}
    (hitem : complete o t = .ok item) : item.Holds (citingTraits source) := by
  induction h generalizing o item with
  | @mk t ht _ ih =>
      cases t with
      | rawElement e attributes body =>
          obtain ⟨ihattributes, ihbody⟩ := List.forall_mem_append.mp ih
          simp only [complete, bind_eq_ok, pure_eq_ok] at hitem
          obtain ⟨b, hfeed, nodes, hfinish, b', hfeed', nodes', hfinish', rfl⟩ := hitem
          have hnodes := citing_nested hfeed hfinish ihattributes
          have hnodes' := citing_nested hfeed' hfinish' ihbody
          exact Node.All.mk ht (List.forall_mem_append.mpr ⟨hnodes, hnodes'⟩)
      | voidElement | selfClosing | valueAttribute | statements | rawTag =>
          simp only [complete, bind_eq_ok, pure_eq_ok] at hitem
          obtain ⟨b, hfeed, nodes, hfinish, rfl⟩ := hitem
          exact Node.All.mk ht (citing_nested hfeed hfinish ih)
      | elementOpen name attributes span =>
          simp only [complete, bind_eq_ok, pure_eq_ok] at hitem
          obtain ⟨b, hfeed, nodes, hfinish, rfl⟩ := hitem
          exact ⟨ht, citing_nested hfeed hfinish ih⟩
      | elementClose =>
          cases hitem
          exact ht
      | tagOpen tag =>
          cases hitem
          exact Markup.cites_fold ht
      | tag tag =>
          unfold complete at hitem
          split at hitem
          · cases hitem
            exact Markup.cites_fold ht
          · cases hitem
            exact Node.All.mk (Markup.cites_fold ht) (by simp [Node.nested])
      | tagClose =>
          cases hitem
          trivial
      | _ =>
          cases hitem
          exact Node.All.mk ht (by simp [Node.nested])

end Nesting

/-- Every text in the tree of a parsed template, at any depth, is the template's text at its span:
runs of text, raw bodies, variables, which have no blanks around them, numbers, keywords, names and
strings. What markup holds lies in the output, tag or branch opening that has the markup. -/
theorem Document.cites_parse {o : Options} {entry : Entry} {source : String} {d : Document}
    (hsource : byteLength source.toList < Span.limit) (h : Document.parse o entry source = .ok d) :
    ∀ n ∈ d.children, n.All (Node.Cites source) := by
  unfold Document.parse at h
  obtain ⟨ts, hts, h⟩ := bind_eq_ok.mp h
  obtain ⟨children, hchildren, h⟩ := bind_eq_ok.mp h
  cases h
  have hmade := Token.all_made hsource hts
  apply Node.holds_ofTokens composes_citing _ hchildren
  intro t ht item hitem
  apply Nesting.complete_cites _ hitem
  exact (hmade t ht).mono fun _ h => h.cites hsource

def citedTemplate : String :=
  "\u00e9\x7b\x7b a.b['c'] | d: 1, e: \"f\" \x7d\x7d\x7b% if nil == (1..x) %\x7dg" ++
    "\x7b% elsif [y] %\x7d\x7b% render 'h' as i %\x7d\x7b% endif %\x7d\x7b% raw %\x7d j \x7b% endraw %\x7d" ++
    "<p k='\x7b\x7b l \x7d\x7d'></p>\x7b% liquid\n assign m = n \n%\x7d"

theorem Document.cites_citedTemplate :
    byteLength citedTemplate.toList < Span.limit ∧
      ∃ d, Document.parse ⟨.strict, false⟩ .liquidHtml citedTemplate = .ok d ∧
        d.children.map Node.kind =
          ["TextNode", "LiquidVariableOutput", "LiquidTag", "LiquidRawTag", "HtmlElement", "LiquidTag"] ∧
        ∀ n ∈ d.children, n.All (Node.Cites citedTemplate) := by
  have hsource : byteLength citedTemplate.toList < Span.limit := by decide +kernel
  have hkinds : (Document.parse ⟨.strict, false⟩ .liquidHtml citedTemplate).toOption.map
      (·.children.map Node.kind) =
      some ["TextNode", "LiquidVariableOutput", "LiquidTag", "LiquidRawTag", "HtmlElement",
        "LiquidTag"] := by decide +kernel
  cases h : Document.parse ⟨.strict, false⟩ .liquidHtml citedTemplate with
  | error e =>
      rw [h] at hkinds
      cases hkinds
  | ok d =>
      rw [h] at hkinds
      exact ⟨hsource, d, rfl, Option.some.inj hkinds, Document.cites_parse hsource h⟩

end LiquidTemplate
