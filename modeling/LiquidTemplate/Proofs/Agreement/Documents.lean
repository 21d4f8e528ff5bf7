import LiquidTemplate.Document
import LiquidTemplate.Proofs.Except
import LiquidTemplate.Proofs.Rule.Document

namespace LiquidTemplate

open Text
open Peg Rule

variable {text : List Char}

/-- A plain text without front matter matches both of the rules for documents or none, and then it is cut into
the same nodes. -/
theorem parse_documents (hplain : Plain text) (hfront : Frontless text) :
    (∃ p p', grammar.parse liquidHtmlDocument text = .ok [p] ∧ grammar.parse liquidDocument text = .ok [p'] ∧
      List.Forall₂ Retold p.children p'.children) ∨
    ((∃ e, grammar.parse liquidHtmlDocument text = .error e) ∧ ∃ e, grammar.parse liquidDocument text = .error e) := by
  have hretold : ∀ {o}, Gives grammar (Context.top.inside .compound) (grammar.body liquidHtmlDocument)
      (Grammar.initial text) o → _ := retold_document rfl Atomicity.noConfusion hplain hfront rfl
  have hliquid := Grammar.gives_parse Kind.noConfusion (parse_ne_fault (r := liquidDocument) rfl text)
  rcases Grammar.gives_parse Kind.noConfusion (parse_ne_fault (r := liquidHtmlDocument) rfl text) with
    ⟨t, ht, hparse⟩ | ⟨hnone, herror⟩
  · obtain ⟨o', ho', hsome⟩ := hretold ht
    cases hsome with
    | some _ hpairs =>
        rcases hliquid with ⟨t', ht', hparse'⟩ | ⟨hnone', _⟩
        · cases ho'.unique ht'
          exact .inl ⟨_, _, hparse, hparse', List.rel_reverse hpairs⟩
        · cases ho'.unique hnone'
  · obtain ⟨o', ho', hnone'⟩ := hretold hnone
    cases hnone' with
    | none =>
        rcases hliquid with ⟨t', ht', _⟩ | ⟨_, herror'⟩
        · cases ho'.unique ht'
        · exact .inr ⟨herror, herror'⟩

namespace Token

theorem ofPair_retold {p p' : Pair Rule} (h : Retold p p') (reader : ReadText) (region : Region) :
    (p'.rule != .endOfInput) = (p.rule != .endOfInput) ∧ ofPair reader region p' = ofPair reader region p := by
  rcases h with rfl | ⟨hrule, rfl⟩
  · exact ⟨rfl, rfl⟩
  · obtain ⟨rule, start, stop, text, children⟩ := p
    cases hrule
    exact ⟨rfl, rfl⟩

theorem mapM_retold {ps ps' : List (Pair Rule)} (h : List.Forall₂ Retold ps ps') (reader : ReadText)
    (region : Region) :
    (ps'.filter (·.rule != .endOfInput)).mapM (ofPair reader region) =
      (ps.filter (·.rule != .endOfInput)).mapM (ofPair reader region) := by
  induction h with
  | nil => rfl
  | @cons p p' ps ps' hp _ ih =>
      obtain ⟨hrule, hpair⟩ := ofPair_retold hp reader region
      rw [List.filter_cons, List.filter_cons, hrule]
      cases p.rule != .endOfInput with
      | false => exact ih
      | true =>
          simp only [if_true]
          rw [List.mapM_cons, List.mapM_cons, hpair, ih]

/-- Without HTML and front matter, it makes no difference whether there might be some. -/
theorem read_retold (hplain : Plain text) (hfront : Frontless text) (region : Region) :
    read region .liquid text = read region .liquidHtml text ∨
      ((∃ e, read region .liquid text = .error e) ∧ ∃ e, read region .liquidHtml text = .error e) := by
  simp only [read, readWithin, Entry.startRule]
  rcases parse_documents hplain hfront with ⟨p, p', hparse, hparse', hchildren⟩ | ⟨⟨e, he⟩, e', he'⟩
  · rw [hparse, hparse']
    simp only [List.flatMap_cons, List.flatMap_nil, List.append_nil]
    exact .inl (mapM_retold hchildren _ region)
  · rw [he, he']
    exact .inr ⟨⟨_, rfl⟩, _, rfl⟩

end Token

/-- Both ways to parse a template agree where there is neither HTML nor front matter. -/
theorem Document.parseLiquid_ok_iff {source : String} (hplain : Plain source.toList)
    (hfront : Frontless source.toList) :
    (∀ region ts, Token.read region .liquid source.toList = .ok ts ↔
      Token.read region .liquidHtml source.toList = .ok ts) ∧
    ∀ o d, parseLiquid o source = .ok d ↔ parseLiquidHtml o source = .ok d := by
  have htokens : ∀ region ts, Token.read region .liquid source.toList = .ok ts ↔
      Token.read region .liquidHtml source.toList = .ok ts := by
    intro region ts
    rcases Token.read_retold hplain hfront region with heq | ⟨⟨e, he⟩, e', he'⟩
    · rw [heq]
    · rw [he, he']
      constructor <;> intro h <;> cases h
  refine ⟨htokens, ?_⟩
  intro o d
  simp only [parseLiquid, parseLiquidHtml, parse, bind_eq_ok, htokens]

def plainTemplate : String :=
  "\n -- > \x7b\x7b- a \x7d\x7d/>\x7b% if b %\x7d c \x7b% endif -%\x7d\x7b% raw %\x7d\x7b\x7b\x7b% endraw %\x7d-->"

theorem Document.parseLiquid_plainTemplate :
    Plain plainTemplate.toList ∧ Frontless plainTemplate.toList ∧
      ∃ d, parseLiquid {} plainTemplate = .ok d ∧ parseLiquidHtml {} plainTemplate = .ok d ∧
        d.children.length = 6 := by
  have hplain : Plain plainTemplate.toList := by
    unfold Plain
    decide +kernel
  have hfront : Frontless plainTemplate.toList := by
    unfold Frontless
    decide +kernel
  have hlength : (parseLiquid {} plainTemplate).toOption.map (·.children.length) = some 6 := by decide +kernel
  obtain ⟨d, hd, hlength⟩ := Option.map_eq_some_iff.mp hlength
  have hparse := toOption_eq_some.mp hd
  exact ⟨hplain, hfront, d, hparse, ((parseLiquid_ok_iff hplain hfront).2 {} d).mp hparse, hlength⟩

end LiquidTemplate
