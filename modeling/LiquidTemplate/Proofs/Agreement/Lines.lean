import LiquidTemplate.Proofs.Embedding.Depth
import LiquidTemplate.Proofs.Except
import LiquidTemplate.Proofs.Rule.Twins
import LiquidTemplate.Proofs.Shift.Reading

namespace LiquidTemplate

open Text
open Peg Rule

/-- Both results are errors, or both are values and related. -/
inductive Tally {ε α β : Type} (R : α → β → Prop) : Except ε α → Except ε β → Prop
  | error (e e' : ε) : Tally R (.error e) (.error e')
  | ok {a : α} {b : β} : R a b → Tally R (.ok a) (.ok b)

namespace Tally

variable {ε α β α' β' : Type} {R : α → β → Prop} {x : Except ε α} {y : Except ε β}

theorem refl (x : Except ε α) : Tally Eq x x := by
  cases x with
  | error e => exact .error e e
  | ok a => exact .ok rfl

theorem map {S : α' → β' → Prop} {f : α → α'} {g : β → β'} (h : Tally R x y) (hfg : ∀ a b, R a b → S (f a) (g b)) :
    Tally S (f <$> x) (g <$> y) := by
  cases h with
  | error e e' => exact .error e e'
  | ok h => exact .ok (hfg _ _ h)

theorem bind {y : Except ε α} (h : Tally Eq x y) (f : α → Except ε β) : Tally Eq (x >>= f) (y >>= f) := by
  cases h with
  | error e e' => exact .error e e'
  | ok h =>
      cases h
      exact .refl _

theorem succeeds_iff (h : Tally R x y) : Succeeds x ↔ Succeeds y := by
  cases h with
  | error e e' => constructor <;> rintro ⟨a, ⟨⟩⟩
  | ok _ => exact ⟨fun _ => succeeds_ok _, fun _ => succeeds_ok _⟩

theorem related {a : α} {b : β} (h : Tally R x y) (hx : x = .ok a) (hy : y = .ok b) : R a b := by
  subst hx hy
  cases h with
  | ok h => exact h

end Tally

/-- Where a region starts makes a difference to what is reported only. -/
theorem Markup.tally_read (k k' : Nat) (mode : Mode) (start : Nat) (named : NamedTag) (rule : Rule)
    (markup : List Char) :
    Tally Eq (Markup.read ⟨k, mode⟩ start named rule markup) (Markup.read ⟨k', mode⟩ start named rule markup) := by
  refine Tally.bind ?_ _
  unfold matchRule
  split
  · split
    · exact .error _ _
    · exact .refl _
  · exact .refl _

namespace Token

/-- A tag or the closing of one, and the same with another span as a whole. -/
inductive Respanned : Token → Token → Prop
  | tagOpen (tag : Tag) (span : Span) : Respanned (.tagOpen tag) (.tagOpen { tag with span := span })
  | tag (tag : Tag) (span : Span) : Respanned (.tag tag) (.tag { tag with span := span })
  | statements (head : Statements) (body : List Token) (span : Span) :
      Respanned (.statements head body) (.statements { head with span := span } body)
  | tagClose (close : TagClose) (span : Span) : Respanned (.tagClose close) (.tagClose { close with span := span })

variable {k k' : Nat} {mode : Mode} {build : Tag → Token} {p p' : Pair Rule}

theorem tally_tagOfParts (hbuild : ∀ tag span, Respanned (build tag) (build { tag with span := span }))
    (read : ReadText) (name : String) (markup : List Char) (markupSpan : Span) (trim : Trim) (span span' : Span) :
    Tally Respanned (tagOfParts read ⟨k, mode⟩ build name markup markupSpan trim span)
      (tagOfParts read ⟨k', mode⟩ build name markup markupSpan trim span') := by
  unfold tagOfParts
  cases NamedTag.ofName? name with
  | none => exact .ok (hbuild _ _)
  | some named =>
      simp only
      cases named.markupRule? with
      | some rule =>
          refine (Markup.tally_read k k' mode _ named rule markup).map ?_
          rintro m _ rfl
          exact hbuild _ _
      | none =>
          cases read ⟨markupSpan.lo, mode⟩ .statements markup with
          | ok body => exact .ok (.statements _ _ _)
          | error e =>
              by_cases hmode : mode = .strict
              · simp only [hmode, if_true]
                exact .error e e
              · simp only [hmode, if_false]
                exact .ok (hbuild _ _)

section Parts

variable {ps ps' : List (Pair Rule)} (h : List.Forall₂ Tracks ps ps')

theorem span_tracks (h : Tracks p p') (k : Nat) : p'.span k = p.span (k + byteLength tagBegin) := by
  rw [Pair.span, Pair.span, h.start_eq, h.stop_eq]
  congr 1 <;> omega

include h

theorem find?_tracks {f : Rule → Bool} (hf : ∀ {p p'}, Tracks p p' → f p'.rule = f p.rule) :
    Option.Rel Tracks (ps.find? (f ·.rule)) (ps'.find? (f ·.rule)) := by
  induction h with
  | nil => exact .none
  | @cons p p' ps ps' hp _ ih =>
      rw [List.find?_cons, List.find?_cons, hf hp]
      cases f p.rule with
      | true => exact .some hp
      | false => exact ih

theorem trimOfPairs_tracks : trimOfPairs ps' = trimOfPairs ps := by
  have hstrip : ∀ {p : Pair Rule}, isTagNameRule p.rule ∨ isTagMarkupRule p.rule →
      p.rule ≠ .stripStart ∧ p.rule ≠ .stripEnd :=
    fun hpart => hpart.elim (not_strip_of_isTagNameRule _) (not_strip_of_isTagMarkupRule _)
  induction h with
  | nil => rfl
  | @cons p p' ps ps' hp _ ih =>
      have hpart' : isTagNameRule p'.rule ∨ isTagMarkupRule p'.rule := by
        rw [hp.name_eq, hp.markup_eq]
        exact hp.part
      simp only [trimOfPairs, Trim.mk.injEq] at ih
      simp only [trimOfPairs, List.any_cons, beq_false_of_ne (hstrip hp.part).1, beq_false_of_ne (hstrip hp.part).2,
        beq_false_of_ne (hstrip hpart').1, beq_false_of_ne (hstrip hpart').2, Bool.false_or, ih]

end Parts

section Pairs

variable {text text' : List Char} (hp : Grown grammar text p) (hp' : Grown grammar text' p')
  (hps : List.Forall₂ Tracks p.children p'.children)

include hp hp' hps

theorem tally_tagOfPair (hbuild : ∀ tag span, Respanned (build tag) (build { tag with span := span }))
    (hrule : p.rule ∈ markedRules) (hrule' : p'.rule ∈ markedRules) (read : ReadText) :
    Tally Respanned (tagOfPair read ⟨k + byteLength tagBegin, mode⟩ build p) (tagOfPair read ⟨k, mode⟩ build p') := by
  obtain ⟨name, hname⟩ := find_name hp (List.mem_append_left _ hrule)
  obtain ⟨name', hname'⟩ := find_name hp' (List.mem_append_left _ hrule')
  have hsame := find?_tracks hps Tracks.name_eq
  obtain hsame := Option.rel_some_some.mp (hname ▸ hname' ▸ hsame)
  have hmarkup := find?_tracks hps Tracks.markup_eq
  generalize hfound : p.children.find? (isTagMarkupRule ·.rule) = markup,
    hfound' : p'.children.find? (isTagMarkupRule ·.rule) = markup' at hmarkup
  cases hmarkup with
  | none =>
      rw [tagOfPair_eq hp hrule hname (.missing hfound), tagOfPair_eq hp' hrule' hname' (.missing hfound'),
        Pair.string, Pair.string, hsame.text_eq, span_tracks hsame, trimOfPairs_tracks hps]
      exact tally_tagOfParts hbuild read _ _ _ _ _ _
  | some hmarkup =>
      rw [tagOfPair_eq hp hrule hname (.found hfound), tagOfPair_eq hp' hrule' hname' (.found hfound'),
        Pair.string, Pair.string, hsame.text_eq, hmarkup.text_eq, span_tracks hmarkup, trimOfPairs_tracks hps]
      exact tally_tagOfParts hbuild read _ _ _ _ _ _

theorem tally_tagCloseOfPair (hrule : p.rule = .statementClose) (hrule' : p'.rule = .liquidTagClose) :
    Tally Respanned (tagCloseOfPair (k + byteLength tagBegin) p) (tagCloseOfPair k p') := by
  obtain ⟨name, hname, heq⟩ := tagCloseOfPair_eq hp (.inr hrule)
  obtain ⟨name', hname', heq'⟩ := tagCloseOfPair_eq hp' (.inl hrule')
  have hsame := find?_tracks hps Tracks.name_eq
  obtain hsame := Option.rel_some_some.mp (hname ▸ hname' ▸ hsame)
  rw [heq, heq', Pair.string, Pair.string, hsame.text_eq, trimOfPairs_tracks hps]
  exact .ok (.tagClose _ _)

theorem tally_ofPair (hrules : (p.rule, p'.rule) ∈ statementTwins) (read : ReadText) :
    Tally Respanned (ofPair read ⟨k + byteLength tagBegin, mode⟩ p) (ofPair read ⟨k, mode⟩ p') := by
  simp only [statementTwins, List.mem_cons, Prod.mk.injEq, List.not_mem_nil, or_false] at hrules
  rcases hrules with ⟨hrule, hrule'⟩ | ⟨hrule, hrule'⟩ | ⟨hrule, hrule'⟩
  all_goals simp only [ofPair, liquidOfPair, hrule, hrule']
  · exact tally_tagCloseOfPair hp hp' hps hrule hrule'
  · exact tally_tagOfPair hp hp' hps .tagOpen (mem_markedRules_of_open (.inr hrule))
      (mem_markedRules_of_open (.inl hrule')) read
  · exact tally_tagOfPair hp hp' hps .tag (mem_markedRules_of_tag (.inr hrule))
      (mem_markedRules_of_tag (.inl hrule')) read

end Pairs

theorem grown_oneNode {r : Rule} {text : List Char} (h : OneNode r text p) :
    Grown grammar text p := by
  obtain ⟨whole, _, hparse, hchildren, _⟩ := h
  exact ((Peg.Grammar.grown_parse hparse).1 whole (by simp)).children p (by simp [hchildren])

theorem read_oneNode (entry : Entry) {text : List Char} (h : OneNode entry.startRule text p)
    (hp : p.rule ≠ .endOfInput) (region : Region) :
    read region entry text = (fun t => [t]) <$> ofPair read region p := by
  have hgrown := grown_oneNode h
  obtain ⟨whole, q, hparse, hchildren, hq⟩ := h
  have hread : Agree text (readWithin text.length) read := fun _ _ _ hpart => readWithin_eq_read hpart
  have hnodes : (([whole].flatMap (·.children)).filter (·.rule != .endOfInput)) = [p] := by
    simp [hchildren, hp, hq]
  rw [read, readWithin, hparse]
  simp only [hnodes]
  rw [← ofPair_congr hread hgrown]
  simp [List.mapM_cons]

/-- What a line gives further to the right by the start of a tag is what the tag around it gives. -/
theorem tally_read_line {text : List Char} (h : Line text) (k : Nat) (mode : Mode) :
    Tally (fun ts ts' => ∃ t t', ts = [t] ∧ ts' = [t'] ∧ Respanned t t')
      (read ⟨k + byteLength tagBegin, mode⟩ .statements text)
      (read ⟨k, mode⟩ .liquid (tagBegin ++ text ++ tagEnd)) := by
  rcases parse_line h with ⟨p, p', hp, hp', hrules, hps⟩ | ⟨⟨e, he⟩, e', he'⟩
  · have hrule : p.rule ≠ .endOfInput ∧ p'.rule ≠ .endOfInput := by
      simp only [statementTwins, List.mem_cons, Prod.mk.injEq, List.not_mem_nil, or_false] at hrules
      rcases hrules with ⟨hrule, hrule'⟩ | ⟨hrule, hrule'⟩ | ⟨hrule, hrule'⟩ <;> simp [hrule, hrule']
    rw [read_oneNode .statements hp hrule.1, read_oneNode .liquid hp' hrule.2]
    exact (tally_ofPair (grown_oneNode hp) (grown_oneNode hp') hps hrules read).map fun t t' ht => ⟨t, t', rfl, rfl, ht⟩
  · simp only [read, readWithin, Entry.startRule, he, he']
    exact .error _ _

/-- A line of a `liquid` tag means the same as the tag written out: it is read if and only if the tag is, as one tag
or the closing of one, and the tag has the same name, the same markup and the same trimming, three bytes further. -/
theorem read_line {text : List Char} {k : Nat} (htext : Line text)
    (hk : k + byteLength (tagBegin ++ text ++ tagEnd) < Span.limit) (mode : Mode) :
    (Succeeds (read ⟨k, mode⟩ .statements text) ↔
      Succeeds (read ⟨k, mode⟩ .liquid (tagBegin ++ text ++ tagEnd))) ∧
    ∀ ts ts', read ⟨k, mode⟩ .statements text = .ok ts →
      read ⟨k, mode⟩ .liquid (tagBegin ++ text ++ tagEnd) = .ok ts' →
      ∃ t t', ts = [t] ∧ ts' = [t'] ∧ (t.shift 3).Respanned t' := by
  have htally := tally_read_line htext k mode
  have hlength : byteLength tagBegin = 3 := rfl
  rw [byteLength_append, byteLength_append, hlength] at hk
  have hmoves : read ⟨k + 3, mode⟩ .statements text =
      moved 3 (List.map (shift 3)) (read ⟨k, mode⟩ .statements text) :=
    moves_readWithin 3 (text.length + 1) k mode .statements text (by omega)
  rw [hlength, hmoves] at htally
  constructor
  · rw [← htally.succeeds_iff]
    cases read ⟨k, mode⟩ .statements text with
    | error e => constructor <;> rintro ⟨_, ⟨⟩⟩
    | ok ts => exact ⟨fun _ => succeeds_ok _, fun _ => succeeds_ok _⟩
  · intro ts ts' hts hts'
    rw [hts, moved_ok] at htally
    obtain ⟨t, t', heq, rfl, ht⟩ := htally.related rfl hts'
    obtain ⟨t, rfl, rfl⟩ := List.map_eq_singleton_iff.mp heq
    exact ⟨t, t', rfl, rfl, ht⟩

def dashedLine : List Char := "\t if-a- a | b:- '%- \x7d' - ".toList

theorem read_line_dashedLine :
    Line dashedLine ∧ 7 + byteLength (tagBegin ++ dashedLine ++ tagEnd) < Span.limit ∧
      ∃ t t', read ⟨7, .tolerant⟩ .statements dashedLine = .ok [t] ∧
        read ⟨7, .tolerant⟩ .liquid (tagBegin ++ dashedLine ++ tagEnd) = .ok [t'] ∧ (t.shift 3).Respanned t' := by
  have hletters : dashedLine.all (· ∉ ['\n', '\r', '\x0c']) := by decide +kernel
  have hinline : Inline dashedLine :=
    ⟨fun x hx => of_decide_eq_true (List.all_eq_true.mp hletters x hx), by decide +kernel⟩
  have hline : Line dashedLine := ⟨hinline, ⟨'i', by decide +kernel, by decide⟩, by decide +kernel⟩
  have hlength : 7 + byteLength (tagBegin ++ dashedLine ++ tagEnd) < Span.limit := by decide +kernel
  obtain ⟨hsucceeds, hsame⟩ := read_line hline hlength .tolerant
  have hread : (read ⟨7, .tolerant⟩ .statements dashedLine).toOption.map List.length = some 1 := by decide +kernel
  obtain ⟨ts, hts, _⟩ := Option.map_eq_some_iff.mp hread
  have hts := toOption_eq_some.mp hts
  obtain ⟨ts', hts'⟩ := hsucceeds.mp ⟨ts, hts⟩
  obtain ⟨t, t', rfl, rfl, ht⟩ := hsame ts ts' hts hts'
  exact ⟨hline, hlength, t, t', hts, hts', ht⟩

end Token

end LiquidTemplate
