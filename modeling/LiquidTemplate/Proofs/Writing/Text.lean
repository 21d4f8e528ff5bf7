import LiquidTemplate.Proofs.Embedding.Reading
import LiquidTemplate.Proofs.Fallback.Tokens
import LiquidTemplate.Proofs.Geometry.Coverage
import LiquidTemplate.Proofs.Origin.Dash
import LiquidTemplate.Proofs.Rule.Arrangement
import LiquidTemplate.Proofs.Rule.Text

namespace LiquidTemplate

open Text
open Peg (Pair Grown Tiled)

/-- A result comes from an argument, and the results after it from the arguments after that. -/
theorem mapM_append_cons_ok {ε α β : Type} {f : α → Except ε β} {xs : List α} {us vs : List β} {y : β}
    (h : xs.mapM f = .ok (us ++ y :: vs)) :
    ∃ as x bs, xs = as ++ x :: bs ∧ f x = .ok y ∧ bs.mapM f = .ok vs := by
  induction us generalizing xs with
  | nil =>
      cases xs with
      | nil => cases h
      | cons x xs =>
          obtain ⟨z, zs, hz, hzs, heq⟩ := mapM_cons_ok h
          cases heq
          exact ⟨[], x, xs, rfl, hz, hzs⟩
  | cons u us ih =>
      cases xs with
      | nil => cases h
      | cons w xs =>
          obtain ⟨z, zs, _, hzs, heq⟩ := mapM_cons_ok h
          cases heq
          obtain ⟨as, x, bs, rfl, hx, hbs⟩ := ih hzs
          exact ⟨w :: as, x, bs, rfl, hx, hbs⟩

theorem Peg.Tiled.split {ρ : Type} {xs : List Char} {n : Nat} {w : List Char} {ps qs : List (Pair ρ)} {p : Pair ρ}
    (h : Tiled xs n w (ps ++ p :: qs)) :
    ∃ before rest, w = before ++ (p.text ++ rest) ∧ p.start = n + byteLength before ∧ Tiled xs p.stop rest qs := by
  induction ps generalizing n w with
  | nil =>
      obtain ⟨gap, rest, rfl, _, hstart, _, hrest⟩ := h
      exact ⟨gap, rest, rfl, hstart, hrest⟩
  | cons q ps ih =>
      obtain ⟨gap, rest, rfl, _, hstart, hstop, hrest⟩ := h
      obtain ⟨before, rest', rfl, hp, hrest'⟩ := ih hrest
      refine ⟨gap ++ (q.text ++ before), rest', by simp, ?_, hrest'⟩
      rw [hp, hstop, hstart]
      simp only [byteLength_append]
      omega

/-- A text is cut in one way at an offset. -/
theorem Text.append_inj_byteLength {v w v' w' : List Char} (h : v ++ w = v' ++ w')
    (hlength : byteLength v = byteLength v') : v = v' ∧ w = w' := by
  have hv : Sits (v ++ w) 0 v := ⟨[], w, rfl, rfl⟩
  have hv' : Sits (v ++ w) 0 v' := ⟨[], w', h, rfl⟩
  cases hv.eq hv' hlength
  exact ⟨rfl, List.append_cancel_left h⟩

namespace Token

/-- The texts among the tokens of a text that starts at the offset: no two are side by side, and each one is
as long as it can be. -/
structure TextRuns (html : Bool) (text : List Char) (offset : Nat) (ts : List Token) : Prop where
  apart : ∀ before a b after, ts ≠ before ++ .text a :: .text b :: after
  maximal : ∀ run, .text run ∈ ts → ∃ before follow, text = before ++ (run.value.toList ++ follow) ∧
    run.span = .between (offset + byteLength before) (offset + byteLength (before ++ run.value.toList)) ∧
    Maximal html run.value.toList follow

variable {text : List Char} {read : ReadText} {region : Region} {p : Pair Rule} {t : Token} {run : TextRun}

theorem isLiquid_liquidOfPair (hp : Grown grammar text p) (h : liquidOfPair read region p = .ok t) :
    t.isLiquid := by
  cases LiquidRead.of_pair hp h with
  | tagOpen hrule h =>
      obtain ⟨_, _, _, _, _, h⟩ := tagOfPair_parts hp (Rule.mem_markedRules_of_open hrule) h
      cases h <;> rfl
  | tag hrule h =>
      obtain ⟨_, _, _, _, _, h⟩ := tagOfPair_parts hp (Rule.mem_markedRules_of_tag hrule) h
      cases h <;> rfl
  | output | tagClose | rawTag | comment => rfl

theorem textRule_ofPair (hp : Grown grammar text p) (h : ofPair read region p = .ok (.text run)) :
    p.rule ∈ [.textNode, .liquidTextNode, .docText] ∧ run = runOfPair region.offset p := by
  cases PairRead.of_pair hp h with
  | text hrule => exact ⟨hrule, rfl⟩
  | liquid h => cases isLiquid_liquidOfPair hp h

def documentEntry : Bool → Entry
  | true => .liquidHtml
  | false => .liquid

/-- In a document the only rule for text is that of its entry. -/
theorem textRule_document {html : Bool} (hp : Grown grammar text p) (hrule : p.rule = (documentEntry html).startRule)
    {q : Pair Rule} (hq : q ∈ p.children) (h : ofPair read region q = .ok (.text run)) :
    q.rule = (textRules html).1 := by
  have hwithin : ∀ r ∈ [Rule.textNode, .liquidTextNode, .docText],
      r ∈ ((documentEntry html).startRule.places.flatMap (·.rules)) → r = (textRules html).1 := by
    cases html <;> decide
  apply hwithin q.rule (textRule_ofPair (hp.children q hq) h).1
  refine children_within hp (List.mem_singleton.mpr hrule) _ ?_ q hq
  cases html <;> decide

/-- The tokens of a text are read from pairs that leave out only blanks of it. -/
theorem tiled_readWithin {depth : Nat} {entry : Entry} {ts : List Token}
    (h : readWithin (depth + 1) region entry text = .ok ts) :
    ∃ p ps, grammar.parse entry.startRule text = .ok [p] ∧ p.rule = entry.startRule ∧
      ps = p.children.filter (·.rule != .endOfInput) ∧ Tiled spaceLetters 0 text ps ∧
      ps.mapM (ofPair (readWithin depth) region) = .ok ts := by
  rw [readWithin] at h
  split at h
  · cases h
  · rename_i pairs hparse
    obtain ⟨hkind, a, hbody⟩ := entry.startRule_whole
    obtain ⟨p, rfl, hrule, hgrown, hstart, rfl⟩ :=
      Peg.Grammar.parse_whole hparse (by rw [hkind]; rfl) hbody rfl
    have htiled : Tiled spaceLetters p.start p.text p.children := by
      apply hgrown.tiled Rule.sweeps_grammar
      · rw [hrule, hkind]
      · rw [hrule]
        exact Rule.sweeps_startRule entry
    rw [List.flatMap_singleton] at h
    rw [hstart] at htiled
    refine ⟨p, _, hparse, hrule, rfl, htiled.filter ?_, h⟩
    intro q hq hend
    exact endOfInput_text (hgrown.children q hq) (by simpa using hend)

theorem textRuns_readWithin {depth : Nat} {html : Bool} {ts : List Token}
    (h : readWithin (depth + 1) region (documentEntry html) text = .ok ts) :
    TextRuns html text region.offset ts := by
  obtain ⟨p, ps, hparse, hrule, hps, htiled, h⟩ := tiled_readWithin h
  have hps : ps ⊆ p.children := hps ▸ List.filter_subset_self _
  have hgrown := (Peg.Grammar.grown_parse hparse).1 p (by simp)
  have hmaximal : ∀ {q run}, q ∈ ps → ofPair (readWithin depth) region q = .ok (.text run) →
      ∃ before follow, text = before ++ (q.text ++ follow) ∧ byteLength before = q.start ∧
        Maximal html q.text follow := by
    intro q run hq ht
    exact maximal_text (hgrown.children q (hps hq)) (textRule_document hgrown hrule (hps hq) ht)
  constructor
  · rintro before a b after rfl
    obtain ⟨as, q, bs, rfl, ha, hbs⟩ := mapM_append_cons_ok h
    cases bs with
    | nil => cases hbs
    | cons q' bs =>
        obtain ⟨_, _, hb, _, heq⟩ := mapM_cons_ok hbs
        cases heq
        -- the second text would start where the first one has its stop
        obtain ⟨left, rest, htext, hstart, gap, rest', rfl, hgap, hstart', _⟩ := htiled.split
        obtain ⟨left₁, follow, htext₁, hleft₁, hfirst⟩ := hmaximal (by simp) ha
        obtain ⟨left₂, follow', htext₂, hleft₂, hsecond⟩ := hmaximal (by simp) hb
        obtain ⟨_, _, _, _, hstop⟩ := (hgrown.children q (hps (by simp))).text_eq
        have htext' : text = left ++ q.text ++ gap ++ (q'.text ++ rest') := by simp [htext]
        obtain ⟨_, hfollow⟩ := append_inj_byteLength (htext₁.symm.trans htext) (by omega)
        obtain ⟨_, hfollow'⟩ := append_inj_byteLength (htext₂.symm.trans htext') (by
          simp only [byteLength_append]
          omega)
        rw [List.append_cancel_left hfollow'] at hsecond
        exact hfirst.not_followed (List.append_cancel_left hfollow) hgap hsecond
  · intro run hrun
    obtain ⟨q, hq, ht⟩ := mem_mapM_ok h hrun
    obtain ⟨before, follow, htext, hstart, hruns⟩ := hmaximal hq ht
    obtain ⟨_, rfl⟩ := textRule_ofPair (hgrown.children q (hps hq)) ht
    obtain ⟨_, _, _, _, hstop⟩ := (hgrown.children q (hps hq)).text_eq
    refine ⟨before, follow, ?_, ?_, ?_⟩
    · simpa [runOfPair, Pair.string] using htext
    · simp only [runOfPair, Pair.string, String.toList_ofList, Pair.span, byteLength_append, hstart, hstop]
    · simpa [runOfPair, Pair.string] using hruns

/-- The tokens of a text that is moved have its texts where it is moved to. -/
theorem TextRuns.shift {html : Bool} {ts : List Token} {k : Nat} (h : TextRuns html text 0 ts)
    (hk : byteLength text < Span.limit) : TextRuns html text k (ts.map (Token.shift k)) := by
  have htext : ∀ {t a}, Token.shift k t = .text a → ∃ run, t = .text run ∧ a = run.shift k := by
    intro t a ht
    cases t with
    | text run => exact ⟨run, rfl, (Token.text.inj ht).symm⟩
    | _ => simp only [Token.shift] at ht; cases ht
  constructor
  · intro before a b after heq
    obtain ⟨us, vs, rfl, _, hvs⟩ := List.map_eq_append_iff.mp heq
    obtain ⟨t, ts, rfl, ht, hts⟩ := List.map_eq_cons_iff.mp hvs
    obtain ⟨t', ts', rfl, ht', _⟩ := List.map_eq_cons_iff.mp hts
    obtain ⟨run, rfl, _⟩ := htext ht
    obtain ⟨run', rfl, _⟩ := htext ht'
    exact h.apart us run run' ts' rfl
  · intro a ha
    obtain ⟨t, ht, heq⟩ := List.mem_map.mp ha
    obtain ⟨run, rfl, rfl⟩ := htext heq
    obtain ⟨before, follow, rfl, hspan, hmaximal⟩ := h.maximal run ht
    refine ⟨before, follow, rfl, ?_, hmaximal⟩
    simp only [byteLength_append] at hk hspan
    simp only [TextRun.shift, hspan, byteLength_append]
    rw [Span.shift_between (by omega) (by omega)]
    simp only [Nat.zero_add, Nat.add_comm]

def liquidBody? : Token → Option (Span × List Token)
  | rawElement e _ body => some (e.bodySpan, body)
  | rawTag t body => if t.name = "style" then some (t.bodySpan, body) else none
  | _ => none

theorem textRuns_of_readAlone {source : String} (hsource : byteLength source.toList < Span.limit) {word : List Char}
    {s : Span} {mode : Mode} {ts : List Token} (h : ReadAlone source.toList mode .liquid word s ts) :
    TextRuns false (s.slice source).toList s.lo ts := by
  obtain ⟨hholds, alone, halone, rfl⟩ := h
  rw [hholds.slice_eq, String.toList_ofList]
  have halone : readWithin (word.length + 1) ⟨0, mode⟩ (documentEntry false) word = .ok alone := halone
  have hruns : TextRuns false word 0 alone := textRuns_readWithin halone
  have hend := hholds.1.boundary_end.le
  apply hruns.shift
  omega

/-- In a text that is read, the texts in all bodies that are read as Liquid are as long as they can be. -/
theorem Standalone.textRuns {source : String} (hsource : byteLength source.toList < Span.limit) {mode : Mode}
    (h : Standalone source.toList mode t) : t.All fun u => ∀ s inner, u.liquidBody? = some (s, inner) →
      TextRuns false (s.slice source).toList s.lo inner := by
  induction h with
  | @atom mode t hatom =>
      constructor
      · intro s inner hbody
        cases t with
        | rawElement | rawTag => cases hatom
        | _ => cases hbody
      · intro u hu
        cases t with
        | rawElement | voidElement | selfClosing | elementOpen | valueAttribute | statements | rawTag => cases hatom
        | _ => cases hu
  | rawElement hbody _ _ ihattributes ihbody =>
      constructor
      · rintro s inner ⟨⟩
        exact textRuns_of_readAlone hsource hbody
      · intro u hu
        rcases List.mem_append.mp hu with hu | hu
        · exact ihattributes u hu
        · exact ihbody u hu
  | voidElement _ ih | selfClosing _ ih | elementOpen _ ih | valueAttribute _ ih | statements _ _ ih =>
      constructor
      · rintro s inner ⟨⟩
      · exact ih
  | tag =>
      constructor
      · rintro s inner ⟨⟩
      · rintro u ⟨⟩
  | @rawTag mode tag body hbody _ ih =>
      constructor
      · intro s inner hinner
        simp only [liquidBody?, Option.ite_none_right_eq_some, Option.some.injEq, Prod.mk.injEq] at hinner
        obtain ⟨hname, rfl, rfl⟩ := hinner
        exact textRuns_of_readAlone hsource (hbody hname)
      · exact ih

/-- The texts of a document, and those in the bodies that are read as Liquid, are as long as they can be and
never side by side. -/
theorem textRuns_read {source : String} {mode : Mode} {html : Bool} {ts : List Token}
    (hsource : byteLength source.toList < Span.limit)
    (h : Token.read ⟨0, mode⟩ (documentEntry html) source.toList = .ok ts) :
    TextRuns html source.toList 0 ts ∧ ∀ t ∈ ts, t.All fun u => ∀ s inner, u.liquidBody? = some (s, inner) →
      TextRuns false (s.slice source).toList s.lo inner := by
  constructor
  · exact textRuns_readWithin h
  · intro t ht
    exact (standalone_read hsource h t ht).textRuns hsource

def mixedText : String := " 1 < 2 \x7b d\t<\x7b\x7b x \x7d\x7d></ b ><script> a < b \x7b% y %\x7d\x0c</script> e "

theorem textRuns_mixedText :
    byteLength mixedText.toList < Span.limit ∧
      ∃ ts, Token.read ⟨0, .strict⟩ (documentEntry true) mixedText.toList = .ok ts ∧
        ts.map Token.span = [.between 1 10, .between 11 20, .between 20 26, .between 26 58, .between 59 60] ∧
        (TextRuns true mixedText.toList 0 ts ∧
          ∀ t ∈ ts, t.All fun u => ∀ s inner, u.liquidBody? = some (s, inner) →
            TextRuns false (s.slice mixedText).toList s.lo inner) := by
  have hsource : byteLength mixedText.toList < Span.limit := by decide +kernel
  have hspans : (Token.read ⟨0, .strict⟩ (documentEntry true) mixedText.toList).toOption.map (List.map Token.span) =
      some [.between 1 10, .between 11 20, .between 20 26, .between 26 58, .between 59 60] := by decide +kernel
  cases h : Token.read ⟨0, .strict⟩ (documentEntry true) mixedText.toList with
  | error e =>
      rw [h] at hspans
      cases hspans
  | ok ts =>
      rw [h] at hspans
      exact ⟨hsource, ts, rfl, Option.some.inj hspans, textRuns_read hsource h⟩

end Token

end LiquidTemplate
