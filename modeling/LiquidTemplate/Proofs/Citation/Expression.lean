import LiquidTemplate.Proofs.Geometry.Pairs
import LiquidTemplate.Proofs.Rule.Expression

namespace LiquidTemplate

open Text
open Peg (Pair Grown)

namespace Span

structure Cites (s : Span) (source : String) (owner : Span) (word : String) : Prop where
  inside : s.Inside source.toList owner.lo owner.hi
  slice_eq : s.slice source = word

structure Begins (s : Span) (source : String) (owner : Span) (word : String) : Prop where
  inside : s.Inside source.toList owner.lo owner.hi
  slice_eq : ∃ rest, s.slice source = word ++ rest

end Span

def quoted (single : Bool) (value : String) : String :=
  String.ofList (quoteMark single :: (value.toList ++ [quoteMark single]))

namespace Expression

def Dotted (source : String) (owner : Span) : Expression → Prop
  | string value single s =>
    single = false ∧ s.Cites source owner value ∧
      ∃ n, s.lo = n + 1 ∧ Sits source.toList n ('.' :: value.toList)
  | _ => False

mutual

/-- Every text in the expression is what the source has at the text's span, inside the owner's:
strings with their quote marks, names after dots without. -/
def Cites (source : String) (owner : Span) : Expression → Prop
  | string value single s => s.Cites source owner (quoted single value)
  | number digits s => s.Cites source owner digits
  | literal l s => s.Cites source owner l.keyword
  | range first last s =>
    s.Inside source.toList owner.lo owner.hi ∧ first.Cites source owner ∧ last.Cites source owner
  | lookup name keys s => s.Begins source owner (name.getD "[") ∧ KeysCite source owner keys

def KeysCite (source : String) (owner : Span) : List Expression → Prop
  | [] => True
  | key :: keys =>
    (key.Dotted source owner ∨ key.Cites source owner) ∧ KeysCite source owner keys

end

end Expression

def NamedArgument.Cites (source : String) (owner : Span) (a : NamedArgument) : Prop :=
  a.span.Begins source owner a.name ∧ a.value.Cites source owner

def Argument.Cites (source : String) (owner : Span) : Argument → Prop
  | positional value => value.Cites source owner
  | named a => a.Cites source owner

def Filter.Cites (source : String) (owner : Span) (f : Filter) : Prop :=
  f.span.Begins source owner "|" ∧ ∀ a ∈ f.arguments, a.Cites source owner

structure Variable.Cites (source : String) (owner : Span) (v : Variable) : Prop where
  source_eq : v.span.Cites source owner v.source
  trim_eq : trim v.source.toList = v.source.toList
  expression : v.expression.Cites source owner
  filters : ∀ f ∈ v.filters, f.Cites source owner

structure Owned (text : List Char) (offset : Nat) (owner : Span) (p : Pair Rule) : Prop where
  seated : Seated text offset p
  lo_le : owner.lo ≤ offset + p.start
  le_hi : offset + p.stop ≤ owner.hi

namespace Owned

variable {source : String} {offset : Nat} {owner : Span} {p q : Pair Rule}

theorem child {text : List Char} (h : Owned text offset owner p) (hq : q ∈ p.children) :
    Owned text offset owner q := by
  obtain ⟨hlo, _, hhi⟩ := h.seated.row.mem hq
  have := h.lo_le
  have := h.le_hi
  exact ⟨h.seated.child hq, by omega, by omega⟩

variable (hsource : byteLength source.toList < Span.limit)

include hsource

theorem inside (h : Owned source.toList offset owner p) : (p.span offset).Inside source.toList owner.lo owner.hi := by
  have hlo := h.seated.lo_span hsource
  have hhi := h.seated.hi_span hsource
  exact (h.seated.inside_span hsource).weaken (by rw [hlo]; exact h.lo_le) (by rw [hhi]; exact h.le_hi)

theorem cites (h : Owned source.toList offset owner p) : (p.span offset).Cites source owner p.string :=
  ⟨h.inside hsource, (h.seated.fills_span hsource).slice_eq⟩

theorem begins {word : List Char} (h : Owned source.toList offset owner p) (hword : word <+: p.text) :
    (p.span offset).Begins source owner (String.ofList word) := by
  obtain ⟨rest, hrest⟩ := hword
  refine ⟨h.inside hsource, String.ofList rest, ?_⟩
  rw [(h.cites hsource).slice_eq, Pair.string, ← hrest, String.ofList_append]

end Owned

theorem Literal.keyword_of_ofKeyword? {word : String} {l : Literal} (h : Literal.ofKeyword? word = some l) :
    l.keyword = word := by
  unfold Literal.ofKeyword? at h
  split at h <;> cases h <;> rfl

variable {source : String} {offset : Nat} {owner : Span} {p : Pair Rule}

theorem Owned.lookup {text : List Char} (h : Owned text offset owner p) (hp : p.rule = .variableLookup) :
    ∃ first keys, p.children = first :: keys ∧ first.text <+: p.text ∧
      (first.rule = .identifier ∨ first.rule = .bracketLookup ∧ ['['] <+: first.text) ∧
      ∀ q ∈ keys, AfterDot text offset q := by
  obtain ⟨part, hpart, hgrown⟩ := h.seated
  obtain ⟨first, keys, hchildren, hfirst, hrule, hdots⟩ := variableLookup_children hgrown hp
  refine ⟨first, keys, hchildren, hfirst, ?_, fun q hq => (hdots q hq).sits hpart⟩
  rcases hrule with hrule | hrule
  · exact .inl hrule
  · exact .inr ⟨hrule, bracketLookup_text (hgrown.children first (by simp [hchildren])) hrule⟩

namespace Expression

theorem cites_ofPair (hsource : byteLength source.toList < Span.limit) {e : Expression}
    (hp : Owned source.toList offset owner p) (h : ofPair offset p = .ok e) : e.Cites source owner := by
  revert hp
  refine ofPair_induct (P := fun p e => Owned source.toList offset owner p → e.Cites source owner)
    (Q := fun ps es => (∀ p ∈ ps, Owned source.toList offset owner p) →
      (∀ p ∈ ps, AfterDot source.toList offset p) → KeysCite source owner es)
    ?empty ?string ?number ?literal ?range ?named ?nameless ?noKey ?dotKey ?bracketKey h
  case empty =>
    intro start stop word hp
    obtain ⟨_, _, hgrown⟩ := hp.seated
    obtain ⟨body, hchildren, _⟩ := string_text hgrown rfl
    cases hchildren
  case string =>
    intro start stop word body rest hp
    obtain ⟨_, _, hgrown⟩ := hp.seated
    obtain ⟨body, hchildren, htext⟩ := string_text hgrown rfl
    cases hchildren
    have hcites := hp.cites hsource
    simp only [Pair.string] at htext hcites
    rw [Cites, quoted, Pair.string, String.toList_ofList, ← htext]
    exact hcites
  case number =>
    intro start stop word children hp
    rw [Cites]
    exact hp.cites hsource
  case literal =>
    intro start stop word children value hvalue hp
    rw [Cites, Literal.keyword_of_ofKeyword? hvalue]
    exact hp.cites hsource
  case range =>
    intro start stop word p q rest first last hfirst hlast hp
    rw [Cites]
    exact ⟨hp.inside hsource, hfirst (hp.child (by simp)), hlast (hp.child (by simp))⟩
  case named =>
    intro start stop word start' stop' name children ps keys hkeys hp
    obtain ⟨first, rest, hchildren, hfirst, _, hdots⟩ := hp.lookup rfl
    cases hchildren
    rw [Cites]
    exact ⟨hp.begins hsource hfirst, hkeys (fun q hq => hp.child (by simp [hq])) hdots⟩
  case nameless =>
    intro start stop word ps keys hname hkeys hp
    obtain ⟨first, rest, hchildren, hfirst, hrule, hdots⟩ := hp.lookup rfl
    -- Without a name, the lookup starts with a key in brackets.
    obtain ⟨hrule, hbracket⟩ : first.rule = .bracketLookup ∧ ['['] <+: first.text := by
      rcases hrule with hrule | hrule
      · obtain ⟨r, start', stop', name, children⟩ := first
        cases hrule
        exact absurd hchildren (hname start' stop' name children rest)
      · exact hrule
    have hdots' : ∀ q ∈ ps, AfterDot source.toList offset q := by
      intro q hq
      rw [show ps = first :: rest from hchildren] at hq
      rcases List.mem_cons.mp hq with rfl | hq
      · intro hq
        rw [hrule] at hq
        cases hq
      · exact hdots q hq
    rw [Cites]
    exact ⟨hp.begins hsource (hbracket.trans hfirst), hkeys (fun q hq => hp.child hq) hdots'⟩
  case noKey =>
    intro _ _
    trivial
  case dotKey =>
    intro start stop name children ps keys hkeys hps hdots
    obtain ⟨hp, hrest⟩ := List.forall_mem_cons.mp hps
    obtain ⟨hdot, hdots⟩ := List.forall_mem_cons.mp hdots
    obtain ⟨n, hn, hsits⟩ := hdot rfl
    rw [KeysCite]
    refine ⟨.inl ⟨rfl, hp.cites hsource, n, ?_, ?_⟩, hkeys hrest hdots⟩
    · rw [← hn]
      exact hp.seated.lo_span hsource
    · rw [String.toList_ofList]
      exact hsits
  case bracketKey =>
    intro start stop word p children ps key keys hkey hkeys hps hdots
    obtain ⟨hp, hrest⟩ := List.forall_mem_cons.mp hps
    rw [KeysCite]
    exact ⟨.inr (hkey (hp.child (by simp))), hkeys hrest (List.forall_mem_cons.mp hdots).2⟩

end Expression

theorem NamedArgument.cites_ofPair (hsource : byteLength source.toList < Span.limit) {a : NamedArgument}
    (hp : Owned source.toList offset owner p) (h : NamedArgument.ofPair offset p = .ok a) :
    a.Cites source owner := by
  obtain ⟨name, value, rest, e, hrule, hchildren, he, rfl⟩ := ofPair_ok h
  obtain ⟨_, _, hgrown⟩ := hp.seated
  obtain ⟨name', rest', hchildren', hname⟩ := namedArgument_text hgrown hrule
  rw [hchildren] at hchildren'
  cases hchildren'
  exact ⟨hp.begins hsource hname, Expression.cites_ofPair hsource (hp.child (by simp [hchildren])) he⟩

theorem Argument.cites_ofPair (hsource : byteLength source.toList < Span.limit) {a : Argument}
    (hp : Owned source.toList offset owner p) (h : Argument.ofPair offset p = .ok a) :
    a.Cites source owner := by
  unfold Argument.ofPair at h
  split at h
  · obtain ⟨a, ha, rfl⟩ := map_eq_ok.mp h
    exact NamedArgument.cites_ofPair hsource hp ha
  · obtain ⟨e, he, rfl⟩ := map_eq_ok.mp h
    exact Expression.cites_ofPair hsource hp he

theorem Filter.cites_ofPair (hsource : byteLength source.toList < Span.limit) {f : Filter}
    (hp : Owned source.toList offset owner p) (hrule : p.rule = .filter)
    (h : Filter.ofPair offset p = .ok f) : f.Cites source owner := by
  unfold Filter.ofPair at h
  split at h
  · rename_i name arguments hchildren
    simp only [bind_eq_ok, pure_eq_ok] at h
    obtain ⟨as, has, rfl⟩ := h
    obtain ⟨_, _, hgrown⟩ := hp.seated
    refine ⟨hp.begins hsource (filter_text hgrown hrule), forall_mapM_ok ?_ has⟩
    intro q hq _
    exact Argument.cites_ofPair hsource (hp.child (by simp [hchildren, hq]))
  · cases h

theorem Variable.cites_ofPair (hsource : byteLength source.toList < Span.limit) {v : Variable}
    (hp : Owned source.toList offset owner p) (hrule : p.rule = .liquidVariable)
    (htrim : trim p.text = p.text) (h : Variable.ofPair offset p = .ok v) : v.Cites source owner := by
  obtain ⟨_, _, hgrown⟩ := hp.seated
  obtain ⟨value, filters, hchildren, hfilters⟩ := liquidVariable_children hgrown hrule
  unfold Variable.ofPair at h
  rw [hchildren] at h
  simp only [bind_eq_ok, pure_eq_ok] at h
  obtain ⟨e, he, fs, hfs, rfl⟩ := h
  constructor
  · exact hp.cites hsource
  · simpa [Pair.string] using htrim
  · exact Expression.cites_ofPair hsource (hp.child (by simp [hchildren])) he
  · refine forall_mapM_ok ?_ hfs
    intro q hq _
    exact Filter.cites_ofPair hsource (hp.child (by simp [hchildren, hq])) (hfilters q hq)

end LiquidTemplate
