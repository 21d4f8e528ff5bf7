import LiquidTemplate.Proofs.Fallback.Markup
import LiquidTemplate.Proofs.Geometry.Markup
import LiquidTemplate.Proofs.Placeholder.Expression
import LiquidTemplate.Proofs.Rule.Markup

namespace LiquidTemplate

open Text
open Peg (Pair Grown Derives State Trimmed)

def Test.Complete : Test → Prop
  | comparison _ left right _ => left.Complete ∧ right.Complete
  | expression value => value.Complete

structure Loop.Complete (l : Loop) : Prop where
  name : Text.Complete l.name
  collection : l.collection.Complete
  arguments : ∀ a ∈ l.arguments, a.Complete

structure Render.Complete (r : Render) : Prop where
  snippet : r.snippet.Complete
  value : ∀ v ∈ r.value, v.value.Complete
  asName : ∀ a ∈ r.asName, Text.Complete a.name
  arguments : ∀ a ∈ r.arguments, a.Complete

/-- The names in the markup at the span are complete.  A variable that is named by the whole markup may be
named in quote marks, and then by any text. -/
def Markup.Complete (s : Span) : Markup.Flat → Prop
  | text _ => True
  | variableName name => s.Measures name → Text.Complete name
  | assign name value => Text.Complete name ∧ value.Complete
  | echo value => value.Complete
  | caseOf e | layout e | sectionName e => e.Complete
  | whenAny values => ∀ e ∈ values, e.Complete
  | condition clauses => ∀ c ∈ clauses, c.test.Complete
  | loop l => l.Complete
  | cycle group values => (∀ e ∈ group, e.Complete) ∧ ∀ e ∈ values, e.Complete
  | render r => r.Complete
  | paginate collection pageSize arguments =>
    collection.Complete ∧ pageSize.Complete ∧ ∀ a ∈ arguments, a.Complete
  | contentFor type arguments => type.Complete ∧ ∀ a ∈ arguments, a.Complete
  | form arguments => ∀ a ∈ arguments, a.Complete

theorem NamedTag.inMarkup_markupRule {tag : NamedTag} {rule : Rule} (h : tag.markupRule? = some rule) :
    rule.inMarkup := by
  cases tag <;> cases h <;> rfl

variable {text : List Char} {p : Pair Rule} {offset : Nat}

theorem Test.complete_ofPair {t : Test} (hp : CompletePair text p) (h : Test.ofPair offset p = .ok t) :
    t.Complete := by
  rcases Test.ofPair_ok h with ⟨_, _, _, _, _, e, e', hchildren, he, he', rfl⟩ | ⟨e, he, rfl⟩
  · exact ⟨Expression.complete_ofPair (hp.child (by simp [hchildren])) he,
      Expression.complete_ofPair (hp.child (by simp [hchildren])) he'⟩
  · exact Expression.complete_ofPair hp he

theorem Clause.complete_ofPairs {before : Option Connective} {ps : List (Pair Rule)} {clauses : List Clause}
    (hps : ∀ q ∈ ps, CompletePair text q) (h : Clause.ofPairs offset before ps = .ok clauses) :
    ∀ c ∈ clauses, c.test.Complete := by
  intro c hc
  obtain ⟨p, hp, q, hq, ht⟩ := Clause.test_ofPairs h c hc
  exact Test.complete_ofPair ((hps p hp).child hq) ht

namespace Markup

theorem complete_renderVariableOfPair {v : RenderVariable} (hp : CompletePair text p)
    (hrule : p.rule = .renderVariable) (h : renderVariableOfPair offset p = .ok v) : v.value.Complete := by
  obtain ⟨mode, value, m, hchildren, _, heq⟩ := renderVariableOfPair_eq hp.grown hrule
  rw [heq] at h
  obtain ⟨e, he, rfl⟩ := map_eq_ok.mp h
  exact Expression.complete_ofPair (hp.child (by simp [hchildren])) he

theorem complete_renderAliasOfPair {a : RenderAlias} (hp : CompletePair text p) (hrule : p.rule = .renderAlias)
    (h : renderAliasOfPair offset p = .ok a) : Text.Complete a.name := by
  obtain ⟨word, name, hchildren, hname, heq⟩ := renderAliasOfPair_eq hp.grown hrule
  rw [heq] at h
  cases h
  refine (hp.child (q := name) (by simp [hchildren])).name ?_
  rw [hname]
  rfl

/-- The markup that names a variable has nothing but the name in it. -/
theorem parts_markupVariableName {pairs : List (Pair Rule)} (htrim : Trimmed markupBlanks text)
    (h : grammar.parse .markupVariableName text = .ok pairs) :
    ∃ p name, pairs = [p] ∧ parts p = [name] ∧ name.rule ∈ [Rule.variableName, .string] ∧ name.text = text := by
  refine parts_single rfl rfl (by decide) ?_ htrim h
  intro s t h
  cases h with
  | first h =>
      obtain ⟨name, hname, hrule, _⟩ := h.takes_call (by decide) rfl
      exact ⟨name, hname, by simp [hrule]⟩
  | second _ h =>
      obtain ⟨name, hname, hrule, _⟩ := h.takes_call (by decide) rfl
      exact ⟨name, ⟨hname.rest_eq, hname.offset_eq, hname.pairs_eq⟩, by simp [hrule]⟩

/-- The markup is nothing but the name of a variable, if it is the markup of such a tag. -/
def NamesVariable (text : List Char) (p : Pair Rule) : Prop :=
  p.rule = .markupVariableName → ∃ name, parts p = [name] ∧ name.rule ∈ [Rule.variableName, .string] ∧
    name.text = text

theorem complete_nameOfPair {s : Span} (hs : s.Measures (String.ofList text)) (hp : CompletePair text p)
    (hrule : p.rule ∈ [Rule.variableName, .string]) (htext : p.text = text)
    (hmeasures : s.Measures (nameOfPair p)) : Text.Complete (nameOfPair p) := by
  simp only [List.mem_cons, List.not_mem_nil, or_false] at hrule
  rcases hrule with hrule | hrule
  · have hname : nameOfPair p = p.string := by simp [nameOfPair, hrule]
    rw [hname]
    exact hp.name (by rw [hrule]; rfl)
  · obtain ⟨body, hchildren, hquoted⟩ := string_text hp.grown hrule
    have hname : nameOfPair p = body.string := by simp [nameOfPair, hrule, hchildren]
    rw [hname] at hmeasures
    rw [← htext, hquoted] at hs
    exact absurd hmeasures (not_measures_quoted hs)

theorem complete_ofPair {tag : NamedTag} {m : Flat} {s : Span} (hs : s.Measures (String.ofList text))
    (hp : CompletePair text p) (hname : NamesVariable text p) (htag : tag.markupRule? = some p.rule)
    (h : Markup.ofPair offset tag p = .ok m) : m.Complete s := by
  obtain ⟨f, hshape, heq⟩ := exists_shape hp.grown htag
  have hparts : ∀ q ∈ parts p, CompletePair text q := fun q => hp.part
  rw [heq] at h
  cases hshape with
  | @assign name value hitems hrule hrule' =>
      obtain ⟨v, hv, rfl⟩ := map_eq_ok.mp h
      refine ⟨(hparts name (by simp [hitems])).name ?_, ?_⟩
      · rw [hrule]
        rfl
      · exact Variable.complete_ofPair (hparts value (by simp [hitems])) hrule' hv
  | @variableName _ name hrule hitems =>
      cases h
      obtain ⟨name', hitems', hrule, htext⟩ := hname hrule
      rw [hitems] at hitems'
      cases hitems'
      exact complete_nameOfPair hs (hparts name (by simp [hitems])) hrule htext
  | @caseOf value hitems | @layout value hitems | @sectionName _ value hitems =>
      obtain ⟨e, he, rfl⟩ := map_eq_ok.mp h
      exact Expression.complete_ofPair (hparts value (by simp [hitems])) he
  | @echo value hitems hrule =>
      obtain ⟨v, hv, rfl⟩ := map_eq_ok.mp h
      exact Variable.complete_ofPair (hparts value (by simp [hitems])) hrule hv
  | whenAny =>
      obtain ⟨es, hes, rfl⟩ := map_eq_ok.mp h
      exact forall_mapM_ok (fun q hq _ => Expression.complete_ofPair (hparts q (List.mem_filter.mp hq).1)) hes
  | condition =>
      obtain ⟨clauses, hclauses, rfl⟩ := map_eq_ok.mp h
      exact Clause.complete_ofPairs hparts hclauses
  | @loop _ name word collection reversed arguments hitems hrule =>
      simp only [bind_eq_ok, pure_eq_ok] at h
      obtain ⟨e, he, as, has, rfl⟩ := h
      constructor
      · refine (hparts name (by simp [hitems])).name ?_
        rw [hrule]
        rfl
      · exact Expression.complete_ofPair (hparts collection (by simp [hitems])) he
      · exact forall_mapM_ok (fun q hq _ => NamedArgument.complete_ofPair (hparts q (by simp [hitems, hq]))) has
  | @cycle values hitems =>
      obtain ⟨es, hes, rfl⟩ := map_eq_ok.mp h
      exact ⟨by simp, forall_mapM_ok (fun q hq _ => Expression.complete_ofPair (hparts q (hitems ▸ hq))) hes⟩
  | @grouped group value values hitems hchildren =>
      have hgroup : CompletePair text group := hparts group (by simp [hitems])
      simp only [bind_eq_ok, pure_eq_ok] at h
      obtain ⟨e, he, es, hes, rfl⟩ := h
      refine ⟨?_, forall_mapM_ok (fun q hq _ => Expression.complete_ofPair (hparts q (by simp [hitems, hq]))) hes⟩
      rintro e' ⟨⟩
      exact Expression.complete_ofPair (hgroup.child (by simp [hchildren])) he
  | @render _ snippet name value asName arguments hitems hchildren _ hvalue hasName =>
      have hsnippet : CompletePair text snippet := hparts snippet (by simp [hitems])
      simp only [bind_eq_ok, pure_eq_ok] at h
      obtain ⟨e, he, v?, hv?, a?, ha?, as, has, rfl⟩ := h
      constructor
      · exact Expression.complete_ofPair (hsnippet.child (by simp [hchildren])) he
      · intro v hv
        obtain ⟨q, hq, hv⟩ := mem_optionMapM_ok hv? hv
        exact complete_renderVariableOfPair (hparts q (by simp [hitems, Option.mem_toList.mpr hq])) (hvalue q hq) hv
      · intro a ha
        obtain ⟨q, hq, ha⟩ := mem_optionMapM_ok ha? ha
        exact complete_renderAliasOfPair (hparts q (by simp [hitems, Option.mem_toList.mpr hq])) (hasName q hq) ha
      · exact forall_mapM_ok (fun q hq _ => NamedArgument.complete_ofPair (hparts q (by simp [hitems, hq]))) has
  | @paginate collection word pageSize arguments hitems =>
      simp only [bind_eq_ok, pure_eq_ok] at h
      obtain ⟨e, he, e', he', as, has, rfl⟩ := h
      exact ⟨Expression.complete_ofPair (hparts collection (by simp [hitems])) he,
        Expression.complete_ofPair (hparts pageSize (by simp [hitems])) he',
        forall_mapM_ok (fun q hq _ => NamedArgument.complete_ofPair (hparts q (by simp [hitems, hq]))) has⟩
  | @contentFor type arguments hitems =>
      simp only [bind_eq_ok, pure_eq_ok] at h
      obtain ⟨e, he, as, has, rfl⟩ := h
      exact ⟨Expression.complete_ofPair (hparts type (by simp [hitems])) he,
        forall_mapM_ok (fun q hq _ => NamedArgument.complete_ofPair (hparts q (by simp [hitems, hq]))) has⟩
  | form =>
      obtain ⟨as, has, rfl⟩ := map_eq_ok.mp h
      exact forall_mapM_ok (fun q hq _ => Argument.complete_ofPair (hparts q hq)) has

theorem placeholderName?_eq_none :
    placeholderName? [p] = none ↔ ∀ q ∈ p.flatten, isNameRule q.rule → Text.Complete q.string := by
  simp [placeholderName?, List.find?_eq_none, mem_flattenAll, Text.Complete, Pair.string]

/-- A match that is kept has complete names, unless completions are asked for. -/
theorem completePair_matchRule {region : Region} {start : Nat} {rule : Rule} {markup : List Char}
    (hmode : region.mode ≠ .completion) (hrule : rule.starts)
    (h : matchRule region start rule markup = .ok (some p)) : CompletePair markup p ∧ p.rule = rule := by
  rcases parse_cases hrule markup with ⟨surprises, failure, hparse⟩ | ⟨q, hparse, hq, hgrown⟩
  · simp only [matchRule, hparse] at h
    split at h <;> cases h
  · simp only [matchRule, hparse, if_neg hmode] at h
    split at h
    · split at h <;> cases h
    · rename_i hnone
      cases h
      exact ⟨⟨hgrown, placeholderName?_eq_none.mp hnone⟩, hq⟩

theorem complete_read {region : Region} {start : Nat} {tag : NamedTag} {rule : Rule} {markup : List Char}
    {m : Flat} {s : Span} (hmode : region.mode ≠ .completion) (hs : s.Measures (String.ofList markup))
    (htrim : Trimmed markupBlanks markup) (htag : tag.markupRule? = some rule)
    (hread : Markup.read region start tag rule markup = .ok m) : m.Complete s := by
  unfold Markup.read at hread
  obtain ⟨p?, hp, h⟩ := bind_eq_ok.mp hread
  cases p? with
  | none =>
      cases h
      trivial
  | some p =>
      obtain ⟨hcomplete, hrule⟩ := completePair_matchRule hmode (NamedTag.starts_markupRule htag) hp
      subst hrule
      refine complete_ofPair hs hcomplete ?_ htag h
      intro hrule
      rw [hrule] at hp
      obtain ⟨pairs, hparse⟩ := parse_of_matchRule hp
      obtain ⟨p', name, heq, hname⟩ := parts_markupVariableName htrim hparse
      cases heq
      exact ⟨name, hname⟩

/-- A match of markup with the placeholder in quoted strings only is kept in all modes. -/
theorem matchRule_of_parse {rule : Rule} (hrule : rule.inMarkup) (hparse : grammar.parse rule text = .ok [p])
    (hquoted : placeholder ∉ outsideQuotes none text) (region : Region) (start : Nat) :
    matchRule region start rule text = .ok (some p) := by
  have hnames : placeholderName? [p] = none := by
    rw [placeholderName?_eq_none]
    intro q hq hname hmem
    rw [Pair.string, String.toList_ofList] at hmem
    exact hquoted (names_outsideQuotes hrule hparse p (by simp) q hq hname hmem)
  simp only [matchRule, hparse, hnames, ite_self]

theorem matchRule_of_quoted {rule : Rule} {pairs : List (Pair Rule)} (hstarts : rule.starts)
    (hrule : rule.inMarkup) (hparse : grammar.parse rule text = .ok pairs)
    (hquoted : placeholder ∉ outsideQuotes none text) :
    ∃ p, Grown grammar text p ∧ p.rule = rule ∧
      ∀ region start, matchRule region start rule text = .ok (some p) := by
  rcases parse_cases hstarts text with ⟨_, _, hfails⟩ | ⟨p, hp, hprule, hgrown⟩
  · rw [hparse] at hfails
    cases hfails
  · exact ⟨p, hgrown, hprule, matchRule_of_parse hrule hp hquoted⟩

end Markup

end LiquidTemplate
