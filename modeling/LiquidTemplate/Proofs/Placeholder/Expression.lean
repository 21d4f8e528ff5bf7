import LiquidTemplate.Proofs.Intact.Expression
import LiquidTemplate.Proofs.Placeholder.Quotes
import LiquidTemplate.Proofs.Rule.Expression

namespace LiquidTemplate

open Text
open Peg (Pair Grown)

def Text.Complete (word : String) : Prop := placeholder ∉ word.toList

def Span.Measures (s : Span) (word : String) : Prop := s.stop - s.start = Int64.ofNat (byteLength word.toList)

namespace Expression

mutual

/-- The names in the expression are complete: the roots of lookups, and the keys that are written without
quote marks. -/
def Complete : Expression → Prop
  | string value _ s => s.Measures value → Text.Complete value
  | number _ _ | literal _ _ => True
  | range first last _ => first.Complete ∧ last.Complete
  | lookup name keys _ => (∀ root ∈ name, Text.Complete root) ∧ AllComplete keys

def AllComplete : List Expression → Prop
  | [] => True
  | key :: keys => key.Complete ∧ AllComplete keys

end

end Expression

def NamedArgument.Complete (a : NamedArgument) : Prop := Text.Complete a.name ∧ a.value.Complete

def Argument.Complete : Argument → Prop
  | positional value => value.Complete
  | named a => a.Complete

def Filter.Complete (f : Filter) : Prop := Text.Complete f.name ∧ ∀ a ∈ f.arguments, a.Complete

def Variable.Complete (v : Variable) : Prop := v.expression.Complete ∧ ∀ f ∈ v.filters, f.Complete

structure CompletePair (text : List Char) (p : Pair Rule) : Prop where
  grown : Grown grammar text p
  names : ∀ q ∈ p.flatten, Markup.isNameRule q.rule → Text.Complete q.string

variable {text : List Char} {p q : Pair Rule} {offset : Nat}

namespace CompletePair

theorem child (h : CompletePair text p) (hq : q ∈ p.children) : CompletePair text q :=
  ⟨h.grown.children q hq, fun r hr => h.names r (mem_flatten.mpr (.inr ⟨q, hq, hr⟩))⟩

theorem part (h : CompletePair text p) (hq : q ∈ Markup.parts p) : CompletePair text q :=
  h.child (List.mem_filter.mp hq).1

theorem name (h : CompletePair text p) (hp : Markup.isNameRule p.rule) : Text.Complete p.string :=
  h.names p (mem_flatten.mpr (.inl rfl)) hp

end CompletePair

theorem Span.ofNat_sub_ofNat (start length : Nat) :
    Int64.ofNat (start + length) - Int64.ofNat start = Int64.ofNat length := by
  rw [Int64.ofNat_add, Int64.add_comm, Int64.add_sub_cancel]

theorem measures_span (h : Grown grammar text p) : (p.span offset).Measures p.string := by
  obtain ⟨_, _, _, _, hstop⟩ := h.text_eq
  rw [Span.Measures, Pair.span, Span.between, hstop, ← Nat.add_assoc, Span.ofNat_sub_ofNat, Pair.string,
    String.toList_ofList]

/-- A span with room for two quote marks is too long for what stands between them. -/
theorem not_measures_quoted {s : Span} {single : Bool} {body : List Char}
    (h : s.Measures (String.ofList (quoteMark single :: (body ++ [quoteMark single])))) :
    ¬s.Measures (String.ofList body) := by
  intro hbody
  have hmark : (quoteMark single).utf8Size = 1 := by cases single <;> rfl
  have hlength : byteLength (quoteMark single :: (body ++ [quoteMark single])) = byteLength body + 2 := by
    simp only [byteLength_append, hmark, byteLength]
    omega
  have heq := h.symm.trans hbody
  rw [String.toList_ofList, String.toList_ofList, hlength, Int64.ofNat_add, Int64.add_eq_left] at heq
  exact absurd heq (by decide)

/-- A string is shorter than its span, because of its quote marks. -/
theorem not_measures_string {body : Pair Rule} {rest : List (Pair Rule)} (h : Grown grammar text p)
    (hp : p.rule = .string) (hchildren : p.children = body :: rest) : ¬(p.span offset).Measures body.string := by
  obtain ⟨body', hchildren', htext⟩ := string_text h hp
  rw [hchildren] at hchildren'
  cases hchildren'
  have hmeasures : (p.span offset).Measures p.string := measures_span h
  rw [Pair.string, htext] at hmeasures
  exact not_measures_quoted hmeasures

namespace Expression

theorem complete_ofPair {e : Expression} (hp : CompletePair text p) (h : ofPair offset p = .ok e) :
    e.Complete := by
  revert hp
  refine ofPair_induct (P := fun p e => CompletePair text p → e.Complete)
    (Q := fun ps es => (∀ p ∈ ps, CompletePair text p) → AllComplete es)
    ?empty ?string ?number ?literal ?range ?named ?nameless ?noKey ?dotKey ?bracketKey h
  case empty =>
    intro start stop word hp
    obtain ⟨body, hchildren, _⟩ := string_text hp.grown rfl
    cases hchildren
  case string =>
    intro start stop word body rest hp
    rw [Complete]
    intro hmeasures
    exact absurd hmeasures (not_measures_string hp.grown rfl rfl)
  case number =>
    intro start stop word children _
    rw [Complete]
    trivial
  case literal =>
    intro start stop word children value _ _
    rw [Complete]
    trivial
  case range =>
    intro start stop word p q rest first last hfirst hlast hp
    rw [Complete]
    exact ⟨hfirst (hp.child (by simp)), hlast (hp.child (by simp))⟩
  case named =>
    intro start stop word start' stop' name children ps keys hkeys hp
    rw [Complete]
    refine ⟨?_, hkeys fun q hq => hp.child (by simp [hq])⟩
    rintro root ⟨⟩
    exact (hp.child (q := ⟨.identifier, start', stop', name, children⟩) (by simp)).name rfl
  case nameless =>
    intro start stop word ps keys _ hkeys hp
    rw [Complete]
    exact ⟨by simp, hkeys fun q hq => hp.child hq⟩
  case noKey =>
    intro _
    trivial
  case dotKey =>
    intro start stop name children ps keys hkeys hps
    obtain ⟨hp, hrest⟩ := List.forall_mem_cons.mp hps
    rw [AllComplete, Complete]
    exact ⟨fun _ => hp.name rfl, hkeys hrest⟩
  case bracketKey =>
    intro start stop word p children ps key keys hkey hkeys hps
    obtain ⟨hp, hrest⟩ := List.forall_mem_cons.mp hps
    rw [AllComplete]
    exact ⟨hkey (hp.child (by simp)), hkeys hrest⟩

end Expression

theorem NamedArgument.complete_ofPair {a : NamedArgument} (hp : CompletePair text p)
    (h : NamedArgument.ofPair offset p = .ok a) : a.Complete := by
  obtain ⟨name, value, rest, e, hrule, hchildren, he, rfl⟩ := ofPair_ok h
  obtain ⟨name', _, hchildren', hname, _⟩ := arranged_children hp.grown hrule rfl
  rw [hchildren] at hchildren'
  cases hchildren'
  refine ⟨(hp.child (q := name) (by simp [hchildren])).name ?_, ?_⟩
  · rw [List.mem_singleton.mp hname]
    rfl
  · exact Expression.complete_ofPair (hp.child (by simp [hchildren])) he

theorem Argument.complete_ofPair {a : Argument} (hp : CompletePair text p)
    (h : Argument.ofPair offset p = .ok a) : a.Complete := by
  unfold Argument.ofPair at h
  split at h
  · obtain ⟨a, ha, rfl⟩ := map_eq_ok.mp h
    exact NamedArgument.complete_ofPair hp ha
  · obtain ⟨e, he, rfl⟩ := map_eq_ok.mp h
    exact Expression.complete_ofPair hp he

theorem Filter.complete_ofPair {f : Filter} (hp : CompletePair text p) (hrule : p.rule = .filter)
    (h : Filter.ofPair offset p = .ok f) : f.Complete := by
  obtain ⟨name, arguments, hchildren, hname, _⟩ := arranged_children hp.grown hrule rfl
  unfold Filter.ofPair at h
  rw [hchildren] at h
  simp only [bind_eq_ok, pure_eq_ok] at h
  obtain ⟨as, has, rfl⟩ := h
  constructor
  · refine (hp.child (q := name) (by simp [hchildren])).name ?_
    rw [List.mem_singleton.mp hname]
    rfl
  · exact forall_mapM_ok (fun q hq _ => Argument.complete_ofPair (hp.child (by simp [hchildren, hq]))) has

theorem Variable.complete_ofPair {v : Variable} (hp : CompletePair text p) (hrule : p.rule = .liquidVariable)
    (h : Variable.ofPair offset p = .ok v) : v.Complete := by
  obtain ⟨value, filters, hchildren, _, hfilters⟩ := arranged_children hp.grown hrule rfl
  unfold Variable.ofPair at h
  rw [hchildren] at h
  simp only [bind_eq_ok, pure_eq_ok] at h
  obtain ⟨e, he, fs, hfs, rfl⟩ := h
  constructor
  · exact Expression.complete_ofPair (hp.child (by simp [hchildren])) he
  · refine forall_mapM_ok ?_ hfs
    intro q hq _
    exact Filter.complete_ofPair (hp.child (by simp [hchildren, hq])) (List.mem_singleton.mp (hfilters.all q hq))

end LiquidTemplate
