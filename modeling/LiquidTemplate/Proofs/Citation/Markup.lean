import LiquidTemplate.Proofs.Citation.Expression
import LiquidTemplate.Proofs.Geometry.Markup
import LiquidTemplate.Proofs.Markup.Reader
import LiquidTemplate.Proofs.Rule.Markup

namespace LiquidTemplate

open Text
open Peg (Pair Grown Trimmed)

def Test.Cites (source : String) (owner : Span) : Test → Prop
  | comparison _ left right _ => left.Cites source owner ∧ right.Cites source owner
  | expression value => value.Cites source owner

def Condition.Cites (source : String) (owner : Span) : Condition → Prop
  | logical _ left right _ => left.Cites source owner ∧ right.Cites source owner
  | comparison _ left right _ => left.Cites source owner ∧ right.Cites source owner
  | expression value _ => value.Cites source owner

def Loop.Cites (source : String) (owner : Span) (l : Loop) : Prop :=
  l.collection.Cites source owner ∧ ∀ a ∈ l.arguments, a.Cites source owner

structure Render.Cites (source : String) (owner : Span) (r : Render) : Prop where
  snippet : r.snippet.Cites source owner
  value : ∀ v ∈ r.value, v.value.Cites source owner
  asName : ∀ a ∈ r.asName, a.span.Cites source owner a.name
  arguments : ∀ a ∈ r.arguments, a.Cites source owner

namespace Markup

/-- Every text in the markup that has a span is what the source has there, inside the owner's span;
the condition is judged apart. -/
def CitesWith {κ : Type} (Holds : κ → Prop) (source : String) (owner : Span) : Markup κ → Prop
  | text _ | variableName _ => True
  | assign _ value | echo value => value.Cites source owner
  | caseOf e | layout e | sectionName e => e.Cites source owner
  | whenAny values => ∀ e ∈ values, e.Cites source owner
  | condition c => Holds c
  | loop l => l.Cites source owner
  | cycle group values =>
    (∀ e ∈ group, e.Cites source owner) ∧ ∀ e ∈ values, e.Cites source owner
  | render r => r.Cites source owner
  | paginate collection pageSize arguments =>
    collection.Cites source owner ∧ pageSize.Cites source owner ∧
      ∀ a ∈ arguments, a.Cites source owner
  | contentFor type arguments => type.Cites source owner ∧ ∀ a ∈ arguments, a.Cites source owner
  | form arguments => ∀ a ∈ arguments, a.Cites source owner

def Flat.Cites (source : String) (owner : Span) : Flat → Prop :=
  CitesWith (fun clauses => ∀ c ∈ clauses, c.test.Cites source owner) source owner

def Folded.Cites (source : String) (owner : Span) : Folded → Prop :=
  CitesWith (Condition.Cites source owner) source owner

end Markup

variable {source : String} {text : List Char} {offset : Nat} {owner : Span} {p : Pair Rule}

theorem Condition.cites_ofTest {t : Test} (h : t.Cites source owner) :
    (Condition.ofTest t).Cites source owner := by
  cases t with
  | comparison => exact h
  | expression => exact h

theorem Condition.cites_ofClause {t : Test} {clauses : List Clause} (ht : t.Cites source owner)
    (hclauses : ∀ c ∈ clauses, c.test.Cites source owner) :
    (Condition.ofClause t clauses).Cites source owner := by
  induction clauses generalizing t with
  | nil => exact cites_ofTest ht
  | cons c clauses ih =>
      obtain ⟨hc, hrest⟩ := List.forall_mem_cons.mp hclauses
      exact ⟨cites_ofTest ht, ih hc hrest⟩

/-- A condition that is folded keeps its texts. -/
theorem Markup.cites_fold {m : Markup.Flat} (h : m.Cites source owner) : m.fold.Cites source owner := by
  cases m with
  | condition clauses =>
      cases clauses with
      | nil => trivial
      | cons c clauses =>
          obtain ⟨hc, hrest⟩ := List.forall_mem_cons.mp h
          exact Condition.cites_ofClause hc hrest
  | _ => exact h

structure Span.Owns (source : String) (s : Span) (start : Nat) (part : List Char) : Prop where
  sits : Sits source.toList start part
  lo_le : s.lo ≤ start
  le_hi : start + byteLength part ≤ s.hi

theorem Span.Owns.owned {start : Nat} {part : List Char} (h : owner.Owns source start part)
    (hp : Grown grammar part p) : Owned source.toList start owner p := by
  have hstop := hp.stop_le
  have hlo := h.lo_le
  have hhi := h.le_hi
  exact ⟨⟨part, h.sits, hp⟩, by omega, by omega⟩

namespace Markup

def VariableTrimmed (p : Pair Rule) : NamedTag → Prop
  | .assign => ∃ name value, parts p = [name, value] ∧ value.rule = .liquidVariable ∧
      trim value.text = value.text
  | .echo => ∃ value, parts p = [value] ∧ value.rule = .liquidVariable ∧ trim value.text = value.text
  | _ => True

theorem variableTrimmed_matchRule {region : Region} {start : Nat} {tag : NamedTag} {rule : Rule}
    {markup : List Char} (hrule : tag.markupRule? = some rule) (htrim : Trimmed markupBlanks markup)
    (h : matchRule region start rule markup = .ok (some p)) : VariableTrimmed p tag := by
  obtain ⟨pairs, hparse⟩ := parse_of_matchRule h
  cases tag with
  | assign =>
      cases hrule
      obtain ⟨p', name, value, hp, hparts⟩ := parts_markupAssign htrim hparse
      cases hp
      exact ⟨name, value, hparts⟩
  | echo =>
      cases hrule
      obtain ⟨p', value, hp, hparts⟩ := parts_markupVariable htrim hparse
      cases hp
      exact ⟨value, hparts⟩
  | _ => trivial

end Markup

section Readers

variable (hsource : byteLength source.toList < Span.limit)

include hsource

theorem Test.cites_ofPair {t : Test} (hp : Owned source.toList offset owner p)
    (h : Test.ofPair offset p = .ok t) : t.Cites source owner := by
  rcases Test.ofPair_ok h with ⟨_, _, _, _, _, e, e', hchildren, he, he', rfl⟩ | ⟨e, he, rfl⟩
  · exact ⟨Expression.cites_ofPair hsource (hp.child (by simp [hchildren])) he,
      Expression.cites_ofPair hsource (hp.child (by simp [hchildren])) he'⟩
  · exact Expression.cites_ofPair hsource hp he

theorem Clause.cites_ofPairs {before : Option Connective} {ps : List (Pair Rule)}
    {clauses : List Clause} (hps : ∀ q ∈ ps, Owned source.toList offset owner q)
    (h : Clause.ofPairs offset before ps = .ok clauses) :
    ∀ c ∈ clauses, c.test.Cites source owner := by
  intro c hc
  obtain ⟨p, hp, q, hq, ht⟩ := Clause.test_ofPairs h c hc
  exact Test.cites_ofPair hsource ((hps p hp).child hq) ht

namespace Markup

theorem cites_renderVariableOfPair {v : RenderVariable} (hp : Owned source.toList offset owner p)
    (hgrown : Grown grammar text p) (hrule : p.rule = .renderVariable) (h : renderVariableOfPair offset p = .ok v) :
    v.value.Cites source owner := by
  obtain ⟨mode, value, m, hchildren, _, heq⟩ := renderVariableOfPair_eq hgrown hrule
  rw [heq] at h
  obtain ⟨e, he, rfl⟩ := map_eq_ok.mp h
  exact Expression.cites_ofPair hsource (hp.child (by simp [hchildren])) he

theorem cites_renderAliasOfPair {a : RenderAlias} (hp : Owned source.toList offset owner p)
    (hgrown : Grown grammar text p) (hrule : p.rule = .renderAlias) (h : renderAliasOfPair offset p = .ok a) :
    a.span.Cites source owner a.name := by
  obtain ⟨word, name, hchildren, _, heq⟩ := renderAliasOfPair_eq hgrown hrule
  rw [heq] at h
  cases h
  have hname : Owned source.toList offset owner name := hp.child (by simp [hchildren])
  exact hname.cites hsource

theorem cites_ofPair {tag : NamedTag} {m : Flat} (hp : Owned source.toList offset owner p)
    (hgrown : Grown grammar text p) (htag : tag.markupRule? = some p.rule) (htrim : VariableTrimmed p tag)
    (h : Markup.ofPair offset tag p = .ok m) : m.Cites source owner := by
  obtain ⟨f, hshape, heq⟩ := exists_shape hgrown htag
  have hgrown := grown_parts hgrown
  have hparts : ∀ q ∈ parts p, Owned source.toList offset owner q :=
    fun q hq => hp.child (List.mem_filter.mp hq).1
  rw [heq] at h
  cases hshape with
  | @assign name value hitems =>
      obtain ⟨name', value', hitems', hrule, htrim⟩ := htrim
      rw [hitems] at hitems'
      cases hitems'
      obtain ⟨v, hv, rfl⟩ := map_eq_ok.mp h
      exact Variable.cites_ofPair hsource (hparts value (by simp [hitems])) hrule htrim hv
  | variableName =>
      cases h
      trivial
  | @caseOf value hitems | @layout value hitems | @sectionName _ value hitems =>
      obtain ⟨e, he, rfl⟩ := map_eq_ok.mp h
      exact Expression.cites_ofPair hsource (hparts value (by simp [hitems])) he
  | @echo value hitems =>
      obtain ⟨value', hitems', hrule, htrim⟩ := htrim
      rw [hitems] at hitems'
      cases hitems'
      obtain ⟨v, hv, rfl⟩ := map_eq_ok.mp h
      exact Variable.cites_ofPair hsource (hparts value (by simp [hitems])) hrule htrim hv
  | whenAny =>
      obtain ⟨es, hes, rfl⟩ := map_eq_ok.mp h
      exact forall_mapM_ok (fun q hq _ => Expression.cites_ofPair hsource (hparts q (List.mem_filter.mp hq).1)) hes
  | condition =>
      obtain ⟨clauses, hclauses, rfl⟩ := map_eq_ok.mp h
      exact Clause.cites_ofPairs hsource hparts hclauses
  | @loop _ name word collection reversed arguments hitems =>
      simp only [bind_eq_ok, pure_eq_ok] at h
      obtain ⟨e, he, as, has, rfl⟩ := h
      exact ⟨Expression.cites_ofPair hsource (hparts collection (by simp [hitems])) he,
        forall_mapM_ok (fun q hq _ => NamedArgument.cites_ofPair hsource (hparts q (by simp [hitems, hq]))) has⟩
  | @cycle values hitems =>
      obtain ⟨es, hes, rfl⟩ := map_eq_ok.mp h
      exact ⟨by simp, forall_mapM_ok (fun q hq _ => Expression.cites_ofPair hsource (hparts q (hitems ▸ hq))) hes⟩
  | @grouped group value values hitems hchildren =>
      have hgroup : Owned source.toList offset owner group := hparts group (by simp [hitems])
      simp only [bind_eq_ok, pure_eq_ok] at h
      obtain ⟨e, he, es, hes, rfl⟩ := h
      refine ⟨?_, forall_mapM_ok
        (fun q hq _ => Expression.cites_ofPair hsource (hparts q (by simp [hitems, hq]))) hes⟩
      rintro e' ⟨⟩
      exact Expression.cites_ofPair hsource (hgroup.child (by simp [hchildren])) he
  | @render _ snippet name value asName arguments hitems hchildren _ hvalue hasName =>
      have hsnippet : Owned source.toList offset owner snippet := hparts snippet (by simp [hitems])
      simp only [bind_eq_ok, pure_eq_ok] at h
      obtain ⟨e, he, v?, hv?, a?, ha?, as, has, rfl⟩ := h
      constructor
      · exact Expression.cites_ofPair hsource (hsnippet.child (by simp [hchildren])) he
      · intro v hv
        obtain ⟨q, hq, hv⟩ := mem_optionMapM_ok hv? hv
        have hmem : q ∈ parts p := by simp [hitems, Option.mem_toList.mpr hq]
        exact cites_renderVariableOfPair hsource (hparts q hmem) (hgrown q hmem) (hvalue q hq) hv
      · intro a ha
        obtain ⟨q, hq, ha⟩ := mem_optionMapM_ok ha? ha
        have hmem : q ∈ parts p := by simp [hitems, Option.mem_toList.mpr hq]
        exact cites_renderAliasOfPair hsource (hparts q hmem) (hgrown q hmem) (hasName q hq) ha
      · exact forall_mapM_ok (fun q hq _ => NamedArgument.cites_ofPair hsource (hparts q (by simp [hitems, hq]))) has
  | @paginate collection word pageSize arguments hitems =>
      simp only [bind_eq_ok, pure_eq_ok] at h
      obtain ⟨e, he, e', he', as, has, rfl⟩ := h
      exact ⟨Expression.cites_ofPair hsource (hparts collection (by simp [hitems])) he,
        Expression.cites_ofPair hsource (hparts pageSize (by simp [hitems])) he',
        forall_mapM_ok (fun q hq _ => NamedArgument.cites_ofPair hsource (hparts q (by simp [hitems, hq]))) has⟩
  | @contentFor type arguments hitems =>
      simp only [bind_eq_ok, pure_eq_ok] at h
      obtain ⟨e, he, as, has, rfl⟩ := h
      exact ⟨Expression.cites_ofPair hsource (hparts type (by simp [hitems])) he,
        forall_mapM_ok (fun q hq _ => NamedArgument.cites_ofPair hsource (hparts q (by simp [hitems, hq]))) has⟩
  | form =>
      obtain ⟨as, has, rfl⟩ := map_eq_ok.mp h
      exact forall_mapM_ok (fun q hq _ => Argument.cites_ofPair hsource (hparts q hq)) has

theorem cites_read {region : Region} {start : Nat} {tag : NamedTag} {rule : Rule} {markup : List Char}
    {m : Flat} (howner : owner.Owns source start markup) (htrim : Trimmed markupBlanks markup)
    (hrule : tag.markupRule? = some rule) (h : Markup.read region start tag rule markup = .ok m) :
    m.Cites source owner := by
  unfold Markup.read at h
  obtain ⟨p?, hp, h⟩ := bind_eq_ok.mp h
  cases p? with
  | none =>
      cases h
      trivial
  | some p =>
      exact cites_ofPair hsource (howner.owned (grown_matchRule hp)) (grown_matchRule hp)
        (rule_matchRule (NamedTag.branches_markupRule hrule) hp ▸ hrule) (variableTrimmed_matchRule hrule htrim hp) h

end Markup

end Readers

end LiquidTemplate
