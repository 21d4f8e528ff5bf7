import LiquidTemplate.Token.Reader
import LiquidTemplate.Proofs.Fallback.Outcomes
import LiquidTemplate.Proofs.Fallback.Tokens
import LiquidTemplate.Proofs.Intact.Markup
import LiquidTemplate.Proofs.Rule.Totality

namespace LiquidTemplate

open Text
open Peg (Pair Grown)

variable {α : Type}

namespace Text

theorem trim_within (w : List Char) : trim w <:+: w := by
  have hstart : trimStart w <:+: w := (List.dropWhile_suffix _).isInfix
  have hend : trimEnd (trimStart w) <+: trimStart w := by
    rw [← List.reverse_suffix, trimEnd, List.reverse_reverse]
    exact List.dropWhile_suffix _
  exact hend.isInfix.trans hstart

theorem mem_dropWhile {f : Char → Bool} {x : Char} {w : List Char} (hx : x ∈ w) (hf : f x = false) :
    x ∈ w.dropWhile f := by
  induction w with
  | nil => cases hx
  | cons y w ih =>
      rw [List.dropWhile_cons]
      split
      · rename_i hy
        rcases List.mem_cons.mp hx with rfl | hx
        · rw [hf] at hy
          cases hy
        · exact ih hx
      · exact hx

theorem mem_trim {x : Char} {w : List Char} (hx : x ∈ w) (hblank : isBlank x = false) : x ∈ trim w := by
  have hstart : x ∈ (trimStart w).reverse := List.mem_reverse.mpr (mem_dropWhile hx hblank)
  exact List.mem_reverse.mpr (mem_dropWhile hstart hblank)

end Text

theorem placeholding_trimmed {text markup : List Char} (hmarkup : markup <:+: text)
    (h : placeholder ∈ markup) : Placeholding text (Token.trimmed markup) := by
  rw [Placeholding, Token.trimmed, String.toList_ofList]
  exact ⟨mem_trim h (by decide), (trim_within markup).trans hmarkup⟩

def Rule.starts (r : Rule) : Bool := (grammar.kind r).branches && r.needs == 0

theorem Entry.starts_startRule (entry : Entry) : entry.startRule.starts := by
  cases entry <;> decide

theorem NamedTag.starts_markupRule {tag : NamedTag} {rule : Rule} (h : tag.markupRule? = some rule) :
    rule.starts := by
  cases tag <;> cases h <;> decide

/-- A rule that starts a match gives one pair, or an error about the text. -/
theorem parse_cases {rule : Rule} (hrule : rule.starts) (text : List Char) :
    (∃ surprises offset, grammar.parse rule text = .error (.unmatched offset surprises)) ∨
      ∃ p, grammar.parse rule text = .ok [p] ∧ p.rule = rule ∧ Grown grammar text p := by
  obtain ⟨hbranches, hneeds⟩ := (Bool.and_eq_true _ _).mp hrule
  cases hparse : grammar.parse rule text with
  | error mismatch =>
      cases mismatch with
      | unmatched offset surprises => exact .inl ⟨surprises, offset, rfl⟩
      | fault f => exact absurd hparse (parse_ne_fault (by simpa using hneeds) text f)
  | ok pairs =>
      obtain ⟨p, _, rfl, hp, _⟩ := Peg.Grammar.parse_ok hparse hbranches
      exact .inr ⟨p, rfl, hp, (Peg.Grammar.grown_parse hparse).1 p (by simp)⟩

namespace Markup

theorem mem_of_placeholderName? {markup : List Char} {p name : Pair Rule} (hp : Grown grammar markup p)
    (h : placeholderName? [p] = some name) : placeholder ∈ markup := by
  have hname := List.find?_some h
  rw [Bool.and_eq_true, List.contains_iff_mem] at hname
  obtain ⟨before, after, htext, _⟩ :=
    (Grown.flattenAll (by simpa using hp) (List.mem_of_find?_eq_some h)).text_eq
  rw [htext]
  simp [hname.2]

/-- What the three modes find where a markup should match a rule: no match, a match with the placeholder
in a name, or another match. -/
inductive Matches (rule : Rule) (markup : List Char) : Except Error (Option (Pair Rule)) →
    Except Error (Option (Pair Rule)) → Except Error (Option (Pair Rule)) → Prop
  | unmatched {e : Error} : e.Syntactic → Matches rule markup (.error e) (.ok none) (.ok none)
  | named {e : Error} {p : Pair Rule} : e.Syntactic → placeholder ∈ markup → Grown grammar markup p →
      p.rule = rule → Matches rule markup (.error e) (.ok none) (.ok (some p))
  | matched {p : Pair Rule} : Grown grammar markup p → p.rule = rule →
      Matches rule markup (.ok (some p)) (.ok (some p)) (.ok (some p))

theorem matches_matchRule (rule : Rule) (hrule : rule.starts) (offset start : Nat) (markup : List Char) :
    Matches rule markup (matchRule ⟨offset, .strict⟩ start rule markup)
      (matchRule ⟨offset, .tolerant⟩ start rule markup)
      (matchRule ⟨offset, .completion⟩ start rule markup) := by
  rcases parse_cases hrule markup with ⟨surprises, failure, hparse⟩ | ⟨p, hparse, hp, hgrown⟩
  · simp only [matchRule, hparse]
    exact .unmatched ⟨_, .inr ⟨surprises, rfl⟩⟩
  · cases hname : placeholderName? [p] with
    | some name =>
        simp only [matchRule, hparse, hname]
        exact .named ⟨_, .inl rfl⟩ (mem_of_placeholderName? hgrown hname) hgrown hp
    | none =>
        simp only [matchRule, hparse, hname, ite_self]
        exact .matched hgrown hp

theorem Matches.outcomes {room : Prop} {alike : α → α → Prop} {structured : α → Prop} {rule : Rule}
    {markup : List Char} {x y z : Except Error (Option (Pair Rule))} {f : Option (Pair Rule) → Except Error α}
    (h : Matches rule markup x y z) (kept : α)
    (hsome : ∀ p, Grown grammar markup p → p.rule = rule → ∃ a, f (some p) = .ok a ∧ structured a)
    (hnone : f none = .ok kept) (hkept : ¬structured kept) (hrefl : ∀ a, alike a a)
    (hplaceholder : placeholder ∈ markup → ∀ a, alike kept a) :
    Outcomes room alike structured (x >>= f) (y >>= f) (z >>= f) := by
  cases h with
  | unmatched he =>
      change Outcomes room alike structured (.error _) (f none) (f none)
      rw [hnone]
      exact .kept he (hrefl kept) fun _ => hkept
  | named he hmem hp hrule =>
      obtain ⟨a, ha, _⟩ := hsome _ hp hrule
      change Outcomes room alike structured (.error _) (f none) (f (some _))
      rw [hnone, ha]
      exact .kept he (hplaceholder hmem a) fun _ => hkept
  | matched hp hrule =>
      obtain ⟨a, ha, hstructured⟩ := hsome _ hp hrule
      change Outcomes room alike structured (f (some _)) (f (some _)) (f (some _))
      rw [ha]
      exact .read (hrefl a) hstructured

/-- Markup that is read is not kept as text. -/
theorem Shape.ne_text {p : Pair Rule} {tag : NamedTag} {f : Nat → Except Error Flat} {offset : Nat} {m : Flat}
    (h : Shape p tag f) (hm : f offset = .ok m) (part : String) : m ≠ .text part := by
  rintro rfl
  cases h <;> simp [bind_eq_ok, map_eq_ok] at hm

theorem exists_ofPair {part : List Char} {p : Pair Rule} {tag : NamedTag} (hp : Grown grammar part p)
    (htag : tag.markupRule? = some p.rule) (offset : Nat) :
    ∃ m, ofPair offset tag p = .ok m ∧ ∀ part, m ≠ .text part := by
  obtain ⟨m, hm⟩ : Succeeds (ofPair offset tag p) := succeeds_ofPair hp htag
  obtain ⟨f, hshape, heq⟩ := exists_shape hp htag
  exact ⟨m, hm, hshape.ne_text ((heq offset).symm.trans hm)⟩

variable {room : Prop} {text : List Char}

theorem lenient_read {tag : NamedTag} {rule : Rule} {markup : List Char} (htag : tag.markupRule? = some rule)
    (hmarkup : markup <:+: text) (offset start : Nat) :
    Lenient room (fun m m' => m = m' ∨ ∃ part, m = .text part ∧ Placeholding text part)
      (fun m => ∀ part, m ≠ .text part) fun mode => read ⟨offset, mode⟩ start tag rule markup := by
  have hmatches := matches_matchRule rule (NamedTag.starts_markupRule htag) offset start markup
  refine hmatches.outcomes (.text (Token.trimmed markup)) ?_ rfl (fun h => h _ rfl)
    (fun _ => .inl rfl) fun hmem _ => .inr ⟨_, rfl, placeholding_trimmed hmarkup hmem⟩
  intro p hp hrule
  exact exists_ofPair hp (hrule ▸ htag) start

end Markup

theorem Token.lenient_outputMarkup {room : Prop} {text : List Char} {p : Pair Rule} (hp : p.text <:+: text)
    (offset : Nat) :
    Lenient room (fun m m' => m = m' ∨ ∃ part, m = .raw part ∧ Placeholding text part)
      (fun m => ∀ part, m ≠ .raw part) fun mode => outputMarkup ⟨offset, mode⟩ p := by
  have hmatches := Markup.matches_matchRule .markupVariable rfl offset (p.span offset).lo p.text
  refine hmatches.outcomes (.raw (trimmed p.text)) ?_ rfl (fun h => h _ rfl)
    (fun _ => .inl rfl) fun hmem _ => .inr ⟨_, rfl, placeholding_trimmed hp hmem⟩
  intro markup hgrown hrule
  obtain ⟨value, rest, hparts, hvalue, _⟩ := Markup.arranged_parts hgrown hrule rfl (by decide)
  have hmem : value ∈ Markup.parts markup := by simp [hparts]
  obtain ⟨v, hv⟩ : Succeeds (Variable.ofPair (p.span offset).lo value) :=
    Variable.succeeds_ofPair (Markup.grown_parts hgrown value hmem) (List.mem_singleton.mp hvalue)
  refine ⟨.value v, ?_, fun part => OutputMarkup.noConfusion⟩
  simp only [hparts, List.getElem?_cons_zero, expect_some, ok_bind, hv]
  rfl

end LiquidTemplate
