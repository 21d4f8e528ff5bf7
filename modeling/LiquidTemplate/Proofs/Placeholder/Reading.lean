import LiquidTemplate.Proofs.Origin.Reading
import LiquidTemplate.Proofs.Placeholder.Markup

namespace LiquidTemplate

open Text
open Peg (Pair Grown Trimmed)

def OutputMarkup.Complete : OutputMarkup → Prop
  | value v => v.Complete
  | raw _ => True

def Piece.Complete : Piece → Prop
  | text _ => True
  | output o => o.markup.Complete

namespace Token

def Complete : Token → Prop
  | output o => o.markup.Complete
  | tagOpen t | tag t => t.markup.Complete t.markupSpan
  | selfClosing name _ _ | elementOpen name _ _ | elementClose name _ | valueAttribute _ name _ _ _
  | bareAttribute name _ => ∀ piece ∈ name, piece.Complete
  | _ => True

def BodyComplete : Token → Prop
  | rawElement _ _ body => ∀ t ∈ body, t.All Complete
  | rawTag t body => t.name = "style" → ∀ u ∈ body, u.All Complete
  | _ => True

structure Guarded (mode : Mode) (t : Token) : Prop where
  markup : mode ≠ .completion → t.Complete
  body : t.BodyComplete

theorem All.leaf {P : Token → Prop} {t : Token} (ht : P t) (hleaf : t.nested = []) : All P t :=
  .mk ht (by simp [hleaf])

def ReadsGuarded (read : ReadText) : Prop :=
  ∀ (offset : Nat) (mode : Mode) (entry : Entry) (part : List Char) (ts : List Token),
    read ⟨offset, mode⟩ entry part = .ok ts → ∀ t ∈ ts, All (Guarded mode) t

variable {text : List Char} {p : Pair Rule} {read : ReadText} {region : Region} {t : Token}

theorem complete_outputMarkup {m : OutputMarkup} (hmode : region.mode ≠ .completion)
    (h : outputMarkup region p = .ok m) : m.Complete := by
  rcases outputMarkup_ok h with rfl | ⟨q, value, rest, v, hq, hparts, hv, rfl⟩
  · trivial
  · obtain ⟨hcomplete, hrule⟩ := Markup.completePair_matchRule hmode rfl hq
    obtain ⟨value, rest, hparts', hvalue, _⟩ := Markup.arranged_parts hcomplete.grown hrule rfl (by decide)
    rw [hparts] at hparts'
    cases hparts'
    have hmem : value ∈ Markup.parts q := by simp [hparts]
    exact Variable.complete_ofPair (hcomplete.part hmem) (List.mem_singleton.mp hvalue) hv

theorem complete_outputOfPair {o : Output} (hp : Grown grammar text p) (hrule : p.rule = .liquidDrop)
    (hmode : region.mode ≠ .completion) (h : outputOfPair region p = .ok o) : o.markup.Complete := by
  obtain ⟨m, rfl, ⟨_, _, hm⟩ | ⟨_, rfl⟩⟩ := outputOfPair_ok hp hrule h
  · exact complete_outputMarkup hmode hm
  · trivial

theorem complete_nameOfPair {name : List Piece} (hp : Grown grammar text p) (hmode : region.mode ≠ .completion)
    (h : nameOfPair region p = .ok name) : ∀ piece ∈ name, piece.Complete := by
  intro piece hpiece
  obtain ⟨q, hq, hpiece⟩ := mem_mapM_ok h hpiece
  rcases pieceOfPair_cases hpiece with ⟨hrule, o, ho, rfl⟩ | ⟨_, rfl⟩
  · exact complete_outputOfPair (hp.children q hq) hrule hmode ho
  · trivial

theorem all_verbatim_guarded {mode : Mode} {body : List Char} {start : Nat} :
    ∀ t ∈ verbatim body start, All (Guarded mode) t := by
  intro t ht
  rw [mem_verbatim ht]
  exact .leaf ⟨fun _ => trivial, trivial⟩ rfl

theorem MarkupAt.measures {offset : Nat} {name : Pair Rule} {markup : List Char} {s : Span}
    (hp : Grown grammar text p) (h : MarkupAt offset p name markup s) : s.Measures (String.ofList markup) := by
  cases h with
  | found hm => exact measures_span (hp.children _ (List.mem_of_find?_eq_some hm))
  | missing => simp [Span.Measures, Span.point, Span.between]

section Readers

variable (hread : ReadsGuarded read) (hp : Grown grammar text p)

include hread

theorem all_tolerant {offset : Nat} {mode : Mode} {entry : Entry} {part : List Char} {ts : List Token}
    (h : read ⟨offset, .tolerant⟩ entry part = .ok ts) :
    (∀ t ∈ ts, All Complete t) ∧ ∀ t ∈ ts, All (Guarded mode) t := by
  have hall := hread _ _ _ _ _ h
  constructor
  · intro t ht
    exact (hall t ht).mono fun u hu => hu.markup Mode.noConfusion
  · intro t ht
    exact (hall t ht).mono fun u hu => ⟨fun _ => hu.markup Mode.noConfusion, hu.body⟩

include hp

theorem guarded_tagOfPair {build : Tag → Token} (hbuild : build = .tagOpen ∨ build = .tag)
    (hrule : p.rule ∈ Rule.markedRules) (h : tagOfPair read region build p = .ok t) : All (Guarded region.mode) t := by
  have hleaf : ∀ tag : Tag, (region.mode ≠ .completion → tag.markup.Complete tag.markupSpan) →
      All (Guarded region.mode) (build tag) := by
    intro tag hcomplete
    rcases hbuild with rfl | rfl
    · exact .leaf ⟨hcomplete, trivial⟩ rfl
    · exact .leaf ⟨hcomplete, trivial⟩ rfl
  obtain ⟨name, markup, markupSpan, _, hmarkup, h⟩ := tagOfPair_parts hp hrule h
  cases h with
  | unknown | unread => exact hleaf _ fun _ => trivial
  | known _ hrule hm =>
      exact hleaf _ fun hmode => Markup.complete_read hmode (hmarkup.measures hp) (hmarkup.trimmed hp) hrule hm
  | statements _ hbody => exact .mk ⟨fun _ => trivial, trivial⟩ (hread _ _ _ _ _ hbody)

theorem guarded_liquidOfPair (h : liquidOfPair read region p = .ok t) : All (Guarded region.mode) t := by
  cases LiquidRead.of_pair hp h with
  | output hrule ho => exact .leaf ⟨fun hmode => complete_outputOfPair hp hrule hmode ho, trivial⟩ rfl
  | tagOpen hrule h => exact guarded_tagOfPair hread hp (.inl rfl) (Rule.mem_markedRules_of_open hrule) h
  | tag hrule h => exact guarded_tagOfPair hread hp (.inr rfl) (Rule.mem_markedRules_of_tag hrule) h
  | tagClose => exact .leaf ⟨fun _ => trivial, trivial⟩ rfl
  | rawTag _ _ _ _ hts =>
      rcases rawTagBody_ok hts with ⟨hname, hts⟩ | ⟨_, hts⟩ | ⟨hstyle, rfl⟩
      · refine .mk ⟨fun _ => trivial, ?_⟩ (hread _ _ _ _ _ hts)
        intro hstyle
        exact absurd (hname.symm.trans hstyle) (by decide)
      · obtain ⟨hbody, hnested⟩ := all_tolerant hread hts
        exact .mk ⟨fun _ => trivial, fun _ => hbody⟩ hnested
      · exact .mk ⟨fun _ => trivial, fun h => absurd h hstyle⟩ all_verbatim_guarded
  | comment =>
      have hname : "comment" ≠ "style" := by decide
      exact .mk ⟨fun _ => trivial, fun h => absurd h hname⟩ all_verbatim_guarded

theorem guarded_valueOfPair (h : valueOfPair read region p = .ok t) : All (Guarded region.mode) t := by
  cases ValueRead.of_pair h with
  | text => exact .leaf ⟨fun _ => trivial, trivial⟩ rfl
  | liquid h => exact guarded_liquidOfPair hread hp h

theorem guarded_attributeOfPair (h : attributeOfPair read region p = .ok t) : All (Guarded region.mode) t := by
  cases AttributeRead.of_pair hp h with
  | @value _ _ value _ _ _ _ hchildren hpieces hparts =>
      have hname := hp.children _ (by rw [hchildren]; exact List.mem_cons_self)
      refine .mk ⟨fun hmode => complete_nameOfPair hname hmode hpieces, trivial⟩ ?_
      refine forall_mapM_ok ?_ hparts
      intro q hq _
      exact guarded_valueOfPair hread ((hp.children value (by simp [hchildren])).children q hq)
  | bare _ hchildren hpieces =>
      have hname := hp.children _ (by rw [hchildren]; exact List.mem_cons_self)
      exact .leaf ⟨fun hmode => complete_nameOfPair hname hmode hpieces, trivial⟩ rfl
  | liquid h => exact guarded_liquidOfPair hread hp h

theorem guarded_attributes {ps : List (Pair Rule)} {ts : List Token} (hps : ps ⊆ p.children)
    (h : ps.mapM (attributeOfPair read region) = .ok ts) : ∀ t ∈ ts, All (Guarded region.mode) t := by
  refine forall_mapM_ok ?_ h
  intro q hq _
  exact guarded_attributeOfPair hread (hp.children q (hps hq))

theorem guarded_ofPair (h : ofPair read region p = .ok t) : All (Guarded region.mode) t := by
  cases PairRead.of_pair hp h with
  | rawElement _ hchildren _ has hts =>
      have hattributes := guarded_attributes hread hp (dropLast_subset hchildren) has
      obtain ⟨hbody, hnested⟩ := all_tolerant hread hts
      exact .mk ⟨fun _ => trivial, hbody⟩ (List.forall_mem_append.mpr ⟨hattributes, hnested⟩)
  | voidElement _ hchildren has =>
      exact .mk ⟨fun _ => trivial, trivial⟩ (guarded_attributes hread hp (by simp [hchildren]) has)
  | selfClosing _ hchildren hpieces has | elementOpen _ hchildren hpieces has =>
      have hname := hp.children _ (by rw [hchildren]; exact List.mem_cons_self)
      refine .mk ⟨fun hmode => complete_nameOfPair hname hmode hpieces, trivial⟩ ?_
      exact guarded_attributes hread hp (by simp [hchildren]) has
  | elementClose _ hchildren hpieces =>
      have hname := hp.children _ (by rw [hchildren]; exact List.mem_cons_self)
      exact .leaf ⟨fun hmode => complete_nameOfPair hname hmode hpieces, trivial⟩ rfl
  | liquid h => exact guarded_liquidOfPair hread hp h
  | text | frontmatter | doctype | comment | docParam | docExample | docDescription =>
      exact .leaf ⟨fun _ => trivial, trivial⟩ rfl

end Readers

/-- By induction on the number of texts that may stand inside each other. -/
theorem readsGuarded_readWithin (depth : Nat) : ReadsGuarded (readWithin depth) := by
  induction depth with
  | zero =>
      intro offset mode entry part ts h
      cases h
  | succ depth ih =>
      intro offset mode entry part ts h t ht
      obtain ⟨p, q, hp, _, hq, ht⟩ := mem_readWithin h ht
      exact guarded_ofPair ih (hp.children q hq) ht

/-- In what is read strictly or tolerantly, and in raw bodies whatever the mode, no name has the completion
placeholder in it, at any depth.  Markup that matches its rule, and has the placeholder in quoted strings
only, is read as the same value in all modes. -/
theorem names_complete (offset : Nat) (entry : Entry) (text : List Char) :
    (∀ mode ts, Token.read ⟨offset, mode⟩ entry text = .ok ts →
      (mode ≠ .completion → ∀ t ∈ ts, t.All Complete) ∧ ∀ t ∈ ts, t.All BodyComplete) ∧
    (∀ (tag : NamedTag) rule pairs, tag.markupRule? = some rule → grammar.parse rule text = .ok pairs →
      placeholder ∉ outsideQuotes none text → ∀ start, ∃ m : Markup.Flat, (∀ part, m ≠ .text part) ∧
        ∀ mode, Markup.read ⟨offset, mode⟩ start tag rule text = .ok m) ∧
    ∀ (p : Pair Rule) pairs, p.text = text → grammar.parse .markupVariable text = .ok pairs →
      placeholder ∉ outsideQuotes none text → ∃ v, ∀ mode, outputMarkup ⟨offset, mode⟩ p = .ok (.value v) := by
  refine ⟨?_, ?_, ?_⟩
  · intro mode ts h
    have hall := readsGuarded_readWithin _ _ _ _ _ _ h
    constructor
    · intro hmode t ht
      exact (hall t ht).mono fun u hu => hu.markup hmode
    · intro t ht
      exact (hall t ht).mono fun u hu => hu.body
  · intro tag rule pairs htag hparse hquoted start
    obtain ⟨p, hp, hrule, hmatch⟩ := Markup.matchRule_of_quoted (NamedTag.starts_markupRule htag)
      (NamedTag.inMarkup_markupRule htag) hparse hquoted
    obtain ⟨m, hm, hflat⟩ := Markup.exists_ofPair hp (hrule ▸ htag) start
    refine ⟨m, hflat, ?_⟩
    intro mode
    rw [Markup.read, hmatch]
    exact hm
  · intro p pairs htext hparse hquoted
    obtain ⟨markup, hmarkup, hrule, hmatch⟩ := Markup.matchRule_of_quoted rfl rfl hparse hquoted
    obtain ⟨value, rest, hparts, hvalue, _⟩ := Markup.arranged_parts hmarkup hrule rfl (by decide)
    have hmem : value ∈ Markup.parts markup := by simp [hparts]
    obtain ⟨v, hv⟩ : Succeeds (Variable.ofPair (p.span offset).lo value) :=
      Variable.succeeds_ofPair (Markup.grown_parts hmarkup value hmem) (List.mem_singleton.mp hvalue)
    refine ⟨v, ?_⟩
    intro mode
    rw [outputMarkup]
    refine bind_eq_ok.mpr ⟨some markup, htext ▸ hmatch _ _, ?_⟩
    simp only [hparts, List.getElem?_cons_zero, expect_some, ok_bind, hv]
    rfl

def heldTemplate : List Char :=
  "\x7b% liquid assign a = b['\u2588'].c %\x7d<svg>\x7b\x7b \u2588 \x7d\x7d</svg>".toList

def heldVariable : List Char := "a['\u2588'].b | c: d: \"\u2588\"".toList

theorem names_complete_heldTemplate :
    (∃ ts, Token.read ⟨7, .tolerant⟩ .liquidHtml heldTemplate = .ok ts ∧ ∀ t ∈ ts, t.All Complete) ∧
    (∃ ts, Token.read ⟨7, .completion⟩ .liquidHtml heldTemplate = .ok ts ∧ ∀ t ∈ ts, t.All BodyComplete) ∧
    placeholder ∉ outsideQuotes none heldVariable ∧ placeholder ∈ heldVariable ∧
    ∃ m : Markup.Flat, (∀ part, m ≠ .text part) ∧
      ∀ mode, Markup.read ⟨7, mode⟩ 11 .echo .markupVariable heldVariable = .ok m := by
  have hok : ∀ {α ε : Type} {x : Except ε α}, x.isOk → ∃ a, x = .ok a := by
    intro α ε x hx
    cases x with
    | error => cases hx
    | ok a => exact ⟨a, rfl⟩
  obtain ⟨ts, hts⟩ := hok (x := Token.read ⟨7, .tolerant⟩ .liquidHtml heldTemplate) (by decide +kernel)
  obtain ⟨ts', hts'⟩ := hok (x := Token.read ⟨7, .completion⟩ .liquidHtml heldTemplate) (by decide +kernel)
  obtain ⟨pairs, hparse⟩ := hok (x := grammar.parse .markupVariable heldVariable) (by decide +kernel)
  have hquoted : placeholder ∉ outsideQuotes none heldVariable := by decide +kernel
  refine ⟨⟨ts, hts, ?_⟩, ⟨ts', hts', ?_⟩, hquoted, by decide +kernel, ?_⟩
  · exact ((names_complete 7 .liquidHtml heldTemplate).1 _ ts hts).1 Mode.noConfusion
  · exact ((names_complete 7 .liquidHtml heldTemplate).1 _ ts' hts').2
  · exact (names_complete 7 .liquidHtml heldVariable).2.1 .echo _ pairs rfl hparse hquoted 11

end Token

end LiquidTemplate
