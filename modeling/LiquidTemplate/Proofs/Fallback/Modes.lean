import LiquidTemplate.Proofs.Fallback.Reading

namespace LiquidTemplate

open Text
open Peg (Pair)

namespace Token

/-- Strict reading is tolerant reading that keeps no markup as text.  What is read strictly is read the
same when completions are asked for.  The span of an output tells where it is in the text, since no text
in memory has `Span.limit` bytes. -/
theorem read_strict_iff {text : List Char} (htext : byteLength text < Span.limit) (entry : Entry) (offset : Nat)
    (ts : List Token) :
    (read ⟨offset, .strict⟩ entry text = .ok ts ↔
      read ⟨offset, .tolerant⟩ entry text = .ok ts ∧ ∀ t ∈ ts, t.Structured text offset) ∧
    (read ⟨offset, .strict⟩ entry text = .ok ts → read ⟨offset, .completion⟩ entry text = .ok ts) :=
  have h := lenient_read text entry offset
  ⟨h.strict_iff htext ts, h.completion⟩

def plainOutputs : List Char := "\x7b\x7b-  \x7d\x7d\x7b\x7b a \x7d\x7d".toList

def blankOutputs : List Char := "\x7b\x7b-  \x7d\x7d\x7b\x7b \u00a0 \x7d\x7d".toList

/-- Both outputs of the second template are kept as an empty text; only for one of them was there no markup. -/
theorem read_strict_blankOutputs :
    (byteLength plainOutputs < Span.limit ∧
      ∃ ts, read ⟨7, .strict⟩ .liquidHtml plainOutputs = .ok ts ∧
        (read ⟨7, .tolerant⟩ .liquidHtml plainOutputs = .ok ts ∧ ∀ t ∈ ts, t.Structured plainOutputs 7) ∧
        read ⟨7, .completion⟩ .liquidHtml plainOutputs = .ok ts) ∧
    byteLength blankOutputs < Span.limit ∧
      ∃ ts, read ⟨7, .tolerant⟩ .liquidHtml blankOutputs = .ok ts ∧
        ts.map Token.span = [.between 7 14, .between 14 22] ∧ ¬∀ t ∈ ts, t.Structured blankOutputs 7 := by
  have hplain : byteLength plainOutputs < Span.limit := by decide +kernel
  have hblank : byteLength blankOutputs < Span.limit := by decide +kernel
  refine ⟨⟨hplain, ?_⟩, hblank, ?_⟩
  · have hok : (read ⟨7, .strict⟩ .liquidHtml plainOutputs).isOk := by decide +kernel
    cases h : read ⟨7, .strict⟩ .liquidHtml plainOutputs with
    | error e =>
        rw [h] at hok
        cases hok
    | ok ts =>
        obtain ⟨htolerant, hcompletion⟩ := read_strict_iff hplain .liquidHtml 7 ts
        exact ⟨ts, rfl, htolerant.mp h, hcompletion h⟩
  · have hstrict : (read ⟨7, .strict⟩ .liquidHtml blankOutputs).isOk = false := by decide +kernel
    have hspans : (read ⟨7, .tolerant⟩ .liquidHtml blankOutputs).toOption.map (List.map Token.span) =
        some [.between 7 14, .between 14 22] := by decide +kernel
    cases h : read ⟨7, .tolerant⟩ .liquidHtml blankOutputs with
    | error e =>
        rw [h] at hspans
        cases hspans
    | ok ts =>
        rw [h] at hspans
        refine ⟨ts, rfl, Option.some.inj hspans, fun hstructured => ?_⟩
        rw [(read_strict_iff hblank .liquidHtml 7 ts).1.mpr ⟨h, hstructured⟩] at hstrict
        cases hstrict

/-- Tolerantly and when completions are asked for, the same texts are read, with the same errors for the
others, and to tokens that are alike; without the placeholder they are the same. -/
theorem read_tolerant_completion (text : List Char) (entry : Entry) (offset : Nat) :
    ((∃ ts ts', read ⟨offset, .tolerant⟩ entry text = .ok ts ∧ read ⟨offset, .completion⟩ entry text = .ok ts' ∧
        List.Forall₂ (Token.Alike text) ts ts') ∨
      ∃ e, read ⟨offset, .tolerant⟩ entry text = .error e ∧ read ⟨offset, .completion⟩ entry text = .error e) ∧
    (placeholder ∉ text → read ⟨offset, .tolerant⟩ entry text = read ⟨offset, .completion⟩ entry text) := by
  have h := (lenient_read text entry offset).tolerant_completion
  refine ⟨h, fun htext => ?_⟩
  rcases h with ⟨ts, ts', hts, hts', halike⟩ | ⟨e, he, he'⟩
  · obtain rfl := eq_of_forall₂_alike htext halike
    exact hts.trans hts'.symm
  · exact he.trans he'.symm

def unfinishedOutput : List Char := "<a b=\"\x7b\x7b c\u2588 \x7d\x7d\">\x7b% if %\x7d".toList

def holdsValue : Token → Bool
  | elementOpen _ [valueAttribute _ _ [output ⟨.value _, _, _⟩] _ _] _ => true
  | _ => false

theorem read_tolerant_unfinishedOutput :
    (∃ ts ts', read ⟨0, .tolerant⟩ .liquidHtml unfinishedOutput = .ok ts ∧
      read ⟨0, .completion⟩ .liquidHtml unfinishedOutput = .ok ts' ∧
      List.Forall₂ (Token.Alike unfinishedOutput) ts ts' ∧ ts.map holdsValue = [false, false] ∧
      ts'.map holdsValue = [true, false]) ∧
    placeholder ∉ plainOutputs ∧
      read ⟨0, .tolerant⟩ .liquidHtml plainOutputs = read ⟨0, .completion⟩ .liquidHtml plainOutputs := by
  have hplain : placeholder ∉ plainOutputs := by decide +kernel
  refine ⟨?_, hplain, (read_tolerant_completion plainOutputs .liquidHtml 0).2 hplain⟩
  have htolerant : (read ⟨0, .tolerant⟩ .liquidHtml unfinishedOutput).toOption.map (List.map holdsValue) =
      some [false, false] := by decide +kernel
  have hcompletion : (read ⟨0, .completion⟩ .liquidHtml unfinishedOutput).toOption.map (List.map holdsValue) =
      some [true, false] := by decide +kernel
  rcases (read_tolerant_completion unfinishedOutput .liquidHtml 0).1 with
    ⟨ts, ts', hts, hts', halike⟩ | ⟨e, he, _⟩
  · rw [hts] at htolerant
    rw [hts'] at hcompletion
    exact ⟨ts, ts', hts, hts', halike, Option.some.inj htolerant, Option.some.inj hcompletion⟩
  · rw [he] at htolerant
    cases htolerant

/-- Whatever the mode, an error says that the text is not as it should be written.  The grammar gives an answer on
every text, and every pair has its parts at their places: the readers take them there, so that none of them misses
a part or meets one that it does not expect. -/
theorem read_syntactic :
    (∀ region entry text e, read region entry text = .error e →
      e.Syntactic ∧ ∃ report, e.message = "SyntaxError: " ++ report) ∧
    ∀ rule text pairs, grammar.parse rule text = .ok pairs → ∀ p ∈ Pair.flattenAll pairs,
      ((grammar.kind p.rule).branches → Peg.Arranged p.rule.places p.children) ∧
      (∀ tag offset, NamedTag.markupRule? tag = some p.rule → Succeeds (Markup.ofPair offset tag p)) ∧
      ∀ region e, p.rule ∈ Rule.plainRules ++ Rule.liquidRules → ofPair read region p = .error e → e.Syntactic := by
  constructor
  · intro region entry text e he
    have hsyntactic := syntactic_read region entry text e he
    refine ⟨hsyntactic, ?_⟩
    obtain ⟨span, rfl | ⟨surprises, rfl⟩⟩ := hsyntactic
    · exact ⟨"unexpected completion placeholder '\u2588'", rfl⟩
    · exact ⟨Rule.report surprises, rfl⟩
  · intro rule text pairs hparse p hp
    have hgrown := Peg.Grown.flattenAll (Peg.Grammar.grown_parse hparse).1 hp
    refine ⟨arranged_children hgrown rfl, ?_, ?_⟩
    · intro tag offset htag
      exact Markup.succeeds_ofPair hgrown htag
    · intro region e hrule he
      exact syntactic_ofPair hgrown hrule region e he

def fullLoop : List Char := "a in b reversed, limit: 2".toList

theorem read_syntactic_unfinishedOutput :
    (∃ e, read ⟨0, .strict⟩ .liquidHtml unfinishedOutput = .error e ∧
      e.Syntactic ∧ ∃ report, e.message = "SyntaxError: " ++ report) ∧
    ∃ p, grammar.parse .markupFor fullLoop = .ok [p] ∧ p.children.map (·.rule) =
        [.variableName, .kwIn, .variableLookup, .reversed, .namedArgument, .endOfInput] ∧
      Peg.Arranged Rule.markupFor.places p.children ∧ Succeeds (Markup.ofPair 0 .forTag p) := by
  constructor
  · have hstrict : (read ⟨0, .strict⟩ .liquidHtml unfinishedOutput).isOk = false := by decide +kernel
    cases h : read ⟨0, .strict⟩ .liquidHtml unfinishedOutput with
    | error e => exact ⟨e, rfl, read_syntactic.1 _ _ _ e h⟩
    | ok ts =>
        rw [h] at hstrict
        cases hstrict
  · have hrules : (grammar.parse .markupFor fullLoop).toOption.map
        (List.map fun p => (p.rule, p.children.map (·.rule))) =
        some [(.markupFor, [.variableName, .kwIn, .variableLookup, .reversed, .namedArgument, .endOfInput])] := by
      decide +kernel
    cases hparse : grammar.parse .markupFor fullLoop with
    | error mismatch =>
        rw [hparse] at hrules
        cases hrules
    | ok pairs =>
        rw [hparse] at hrules
        obtain ⟨p, rfl, hp⟩ := List.map_eq_singleton_iff.mp (Option.some.inj hrules)
        obtain ⟨hrule, hchildren⟩ := Prod.mk.inj hp
        have hmem : p ∈ Pair.flattenAll [p] := by
          cases p
          simp [Pair.flattenAll, Pair.flatten]
        obtain ⟨harranged, hread, _⟩ := read_syntactic.2 _ _ _ hparse p hmem
        rw [hrule] at harranged hread
        exact ⟨p, rfl, hchildren, harranged rfl, hread .forTag 0 rfl⟩

end Token

end LiquidTemplate
