import LiquidTemplate.Proofs.Geometry.Reading
import LiquidTemplate.Proofs.Peg.Tiling
import LiquidTemplate.Proofs.Rule.Tag

namespace LiquidTemplate

open Text
open Peg (Pair Grown Tiled Sweeps)

namespace Rule

/-- The rules that consume blanks only, apart from what leaves a pair. -/
def sweeps (r : Rule) : Bool :=
  r.kind != .silent || [space, htmlNode, liquidNode, liquidStatement, docNode].contains r

theorem sweeps_grammar : Sweeps grammar spaceLetters sweeps := by
  intro r
  cases r <;> decide

theorem sweeps_startRule (entry : Entry) :
    (grammar.body entry.startRule).sweeps spaceLetters sweeps := by
  cases entry <;> decide

end Rule

/-- Every entry rule is for a whole text. -/
theorem Entry.startRule_whole (entry : Entry) : grammar.kind entry.startRule = .compound ∧
    ∃ a, grammar.body entry.startRule = .seq a (.call .endOfInput) := by
  cases entry <;> exact ⟨rfl, _, rfl⟩

def weave : List (List Char) → List (List Char) → List Char
  | gap :: gaps, word :: words => gap ++ (word ++ weave gaps words)
  | gaps, [] => gaps.flatten
  | [], words => words.flatten

theorem Peg.Tiled.weave_eq {ρ : Type} {xs : List Char} {n : Nat} {w : List Char} {ps : List (Pair ρ)}
    (h : Tiled xs n w ps) :
    ∃ gaps : List (List Char), gaps.length = ps.length + 1 ∧ (∀ gap ∈ gaps, ∀ x ∈ gap, x ∈ xs) ∧
      w = weave gaps (ps.map Pair.text) := by
  induction ps generalizing n w with
  | nil => exact ⟨[w], rfl, by simpa [Tiled] using h, by simp [weave]⟩
  | cons p ps ih =>
      obtain ⟨gap, rest, rfl, hgap, _, _, hrest⟩ := h
      obtain ⟨gaps, hlength, hgaps, rfl⟩ := ih hrest
      exact ⟨gap :: gaps, by simp [hlength], List.forall_mem_cons.mpr ⟨hgap, hgaps⟩, rfl⟩

theorem endOfInput_text {text : List Char} {p : Pair Rule} (h : Grown grammar text p)
    (hp : p.rule = .endOfInput) : p.text = [] := by
  cases h with
  | @mk c s t r _ _ _ _ h _ =>
      subst hp
      change Peg.Derives grammar _ .finish s t at h
      cases h
      exact (Peg.State.Takes.idle s.attempts).consumed_eq

namespace Token

variable {text : List Char} {mode : Mode} {entry : Entry} {ts : List Token}

/-- The tokens of a text have the spans of pairs that leave out only blanks of the text. -/
theorem tiled_read (htext : byteLength text < Span.limit) (h : Token.read ⟨0, mode⟩ entry text = .ok ts) :
    ∃ ps, (∀ p ∈ ps, Seated text 0 p) ∧ Tiled spaceLetters 0 text ps ∧
      ts.map Token.span = ps.map (·.span 0) := by
  unfold Token.read readWithin at h
  split at h
  · cases h
  · rename_i pairs hparse
    obtain ⟨hkind, a, hbody⟩ := entry.startRule_whole
    obtain ⟨p, rfl, hrule, hgrown, hstart, rfl⟩ :=
      Peg.Grammar.parse_whole hparse (by rw [hkind]; rfl) hbody rfl
    have htiled : Tiled spaceLetters 0 p.text p.children := by
      rw [← hstart]
      refine hgrown.tiled Rule.sweeps_grammar ?_ ?_
      · rw [hrule, hkind]
      · rw [hrule]
        exact Rule.sweeps_startRule entry
    rw [List.flatMap_singleton] at h
    have hseated : ∀ q ∈ p.children.filter (·.rule != .endOfInput), Seated p.text 0 q := by
      intro q hq
      exact ⟨p.text, Sits.self _, hgrown.children q (List.mem_filter.mp hq).1⟩
    refine ⟨p.children.filter (·.rule != .endOfInput), hseated, htiled.filter ?_, ?_⟩
    · intro q hq hend
      exact endOfInput_text (hgrown.children q hq) (by simpa using hend)
    · refine map_mapM_ok ?_ h
      intro q hq t ht
      have hq' : Seated p.text (Region.mk 0 mode).offset q := hseated q hq
      exact (from_ofPair htext (readsIn_readWithin htext _) hq' ht).span_eq

structure Covers (source : String) (ts : List Token) : Prop where
  /-- The tokens are in order, none is empty, and none reaches into the next. -/
  row : Span.Row source.toList 0 (byteLength source.toList) (ts.map Token.span)
  /-- A character outside all tokens is a blank. -/
  blank : ∀ before x after, source.toList = before ++ x :: after →
    (∀ t ∈ ts, byteLength before < t.span.lo ∨ t.span.hi ≤ byteLength before) → x ∈ spaceLetters
  /-- The texts of the tokens, with blanks between them, are the text again. -/
  text : ∃ gaps : List (List Char), gaps.length = ts.length + 1 ∧
    (∀ gap ∈ gaps, ∀ x ∈ gap, x ∈ spaceLetters) ∧
    source.toList = weave gaps (ts.map fun t => (t.span.slice source).toList)

/-- No text but blanks is lost in reading. -/
theorem covers_read {source : String} (hsource : byteLength source.toList < Span.limit)
    (h : Token.read ⟨0, mode⟩ entry source.toList = .ok ts) : Covers source ts := by
  obtain ⟨ps, hseated, htiled, hspans⟩ := tiled_read hsource h
  constructor
  · exact (tokensIn_iff.mp (tokensIn_read hsource h)).1
  · intro before x after heq houtside
    rw [heq] at htiled
    rcases htiled.mem_or_inside with hx | ⟨p, hp, hlo, hhi⟩
    · exact hx
    · have hmem : p.span 0 ∈ ts.map Token.span := by
        rw [hspans]
        exact List.mem_map_of_mem hp
      obtain ⟨t, ht, hspan⟩ := List.mem_map.mp hmem
      have hplo := (hseated p hp).lo_span hsource
      have hphi := (hseated p hp).hi_span hsource
      have hout := houtside t ht
      rw [hspan] at hout
      omega
  · obtain ⟨gaps, hlength, hgaps, hweave⟩ := htiled.weave_eq
    have hcount := congrArg List.length hspans
    rw [List.length_map, List.length_map] at hcount
    refine ⟨gaps, by omega, hgaps, ?_⟩
    have hslices : ts.map (fun t => (t.span.slice source).toList) = ps.map Pair.text := by
      rw [← Function.comp_def (fun s : Span => (s.slice source).toList) Token.span, ← List.map_map, hspans,
        List.map_map]
      apply List.map_congr_left
      intro p hp
      rw [Function.comp_apply, ((hseated p hp).fills_span hsource).slice_eq, String.toList_ofList]
    rw [hslices]
    exact hweave

def spacedTemplate : String :=
  "\n---\na: 1\n---\r\n <a\tb>\x0c\u00e9 c \x7b\x7b d \x7d\x7d\t</a> "

theorem covers_spacedTemplate :
    byteLength spacedTemplate.toList < Span.limit ∧
      ∃ ts, Token.read ⟨0, .strict⟩ .liquidHtml spacedTemplate.toList = .ok ts ∧ ts.length = 5 ∧
        Covers spacedTemplate ts := by
  have hsource : byteLength spacedTemplate.toList < Span.limit := by decide +kernel
  have hlength : (Token.read ⟨0, .strict⟩ .liquidHtml spacedTemplate.toList).toOption.map List.length =
      some 5 := by decide +kernel
  cases h : Token.read ⟨0, .strict⟩ .liquidHtml spacedTemplate.toList with
  | error e =>
      rw [h] at hlength
      cases hlength
  | ok ts =>
      rw [h] at hlength
      exact ⟨hsource, ts, rfl, Option.some.inj hlength, covers_read hsource h⟩

end Token

end LiquidTemplate
