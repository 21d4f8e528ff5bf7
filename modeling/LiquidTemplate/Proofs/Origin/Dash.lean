import LiquidTemplate.Proofs.Origin.Reading
import LiquidTemplate.Proofs.Rule.Dash

namespace LiquidTemplate

open Text
open Peg (Pair Grown)

namespace Token

def isLiquid : Token → Bool
  | output _ | tagOpen _ | tag _ | statements .. | tagClose _ | rawTag .. => true
  | _ => false

/-- What a tag is read as whose name stands directly before the end with whitespace control. It is
never the opening of a block or a raw tag; a plain tag and a closing end there, and have that name. -/
def ReadsDashed (before : Bool) (name rest : List Char) : Token → Prop
  | tagOpen _ | rawTag .. => False
  | tag t => rest = [] ∧ t.name = String.ofList name ∧ t.markupSpan.length = 0 ∧ t.trim = ⟨before, true⟩
  | statements s _ => rest = [] ∧ s.markupSpan.length = 0 ∧ s.trim = ⟨before, true⟩
  | tagClose t => rest = [] ∧ "end".toList ++ t.name.toList = name ∧ t.trim = ⟨before, true⟩
  | _ => True

section Readers

variable {text : List Char} {read : ReadText} {region : Region} {p : Pair Rule} {t : Token}

theorem isLiquid_attributeOfPair (hp : Grown grammar text p) (h : attributeOfPair read region p = .ok t) :
    t.isLiquid = false ∨ liquidOfPair read region p = .ok t := by
  cases AttributeRead.of_pair hp h with
  | value | bare => exact .inl rfl
  | liquid h => exact .inr h

theorem isLiquid_valueOfPair (h : valueOfPair read region p = .ok t) :
    t.isLiquid = false ∨ liquidOfPair read region p = .ok t := by
  cases ValueRead.of_pair h with
  | text => exact .inl rfl
  | liquid h => exact .inr h

theorem isLiquid_ofPair (hp : Grown grammar text p) (h : ofPair read region p = .ok t) :
    t.isLiquid = false ∨ liquidOfPair read region p = .ok t := by
  cases PairRead.of_pair hp h with
  | liquid h => exact .inr h
  | _ => exact .inl rfl

/-- Liquid is read from its pair, wherever it stands. -/
theorem Made.liquid (h : Made text t) :
    t.isLiquid = false ∨ ∃ (read : ReadText) (region : Region) (p : Pair Rule),
      Seated text region.offset p ∧ liquidOfPair read region p = .ok t := by
  cases h with
  | ofDocument hp h =>
      obtain ⟨_, _, hgrown⟩ := id hp
      exact (isLiquid_ofPair hgrown h).imp_right fun h => ⟨_, _, _, hp, h⟩
  | ofAttribute hp h =>
      obtain ⟨_, _, hgrown⟩ := id hp
      exact (isLiquid_attributeOfPair hgrown h).imp_right fun h => ⟨_, _, _, hp, h⟩
  | ofValue hp h => exact (isLiquid_valueOfPair h).imp_right fun h => ⟨_, _, _, hp, h⟩
  | ofVerbatim _ ht =>
      rw [mem_verbatim ht]
      exact .inl rfl

theorem span_liquidOfPair (hp : Grown grammar text p) (h : liquidOfPair read region p = .ok t) :
    t.span = p.span region.offset := by
  cases LiquidRead.of_pair hp h with
  | output hrule ho => exact span_outputOfPair hp hrule ho
  | tagOpen hrule h =>
      obtain ⟨_, _, _, _, _, h⟩ := tagOfPair_parts hp (Rule.mem_markedRules_of_open hrule) h
      cases h <;> rfl
  | tag hrule h =>
      obtain ⟨_, _, _, _, _, h⟩ := tagOfPair_parts hp (Rule.mem_markedRules_of_tag hrule) h
      cases h <;> rfl
  | tagClose | rawTag | comment => rfl

variable {before : Bool} {name rest : List Char}

theorem readsDashed_tagOfPair (hdashed : Dashed before name rest p.text) (hp : Grown grammar text p)
    (hrule : p.rule = .liquidTag) (h : tagOfPair read region .tag p = .ok t) :
    t.ReadsDashed before name rest := by
  obtain ⟨hrest, q, hname, rfl, hmarkup, htrim⟩ := hdashed.tag_children hp hrule
  obtain ⟨_, _, _, hname', hplace, h⟩ := tagOfPair_parts hp (Rule.mem_markedRules_of_tag (.inl hrule)) h
  cases hname.symm.trans hname'
  cases hplace with
  | found hfound => cases hmarkup.symm.trans hfound
  | missing =>
      cases h with
      | unknown | known | unread => exact ⟨hrest, rfl, Nat.sub_self _, htrim⟩
      | statements => exact ⟨hrest, Nat.sub_self _, htrim⟩

theorem readsDashed_liquidOfPair {source : String} (hsource : byteLength source.toList < Span.limit)
    (hp : Seated source.toList region.offset p) (h : liquidOfPair read region p = .ok t)
    (hdashed : Dashed before name rest (t.span.slice source).toList) : t.ReadsDashed before name rest := by
  obtain ⟨part, _, hgrown⟩ := id hp
  rw [span_liquidOfPair hgrown h, (hp.fills_span hsource).slice_eq, String.toList_ofList] at hdashed
  have hstatement := hdashed.not_statement hgrown
  cases LiquidRead.of_pair hgrown h with
  | output => trivial
  | tagOpen hrule _ =>
      rcases hrule with hrule | hrule
      · exact absurd hrule (hdashed.not_open hgrown)
      · rw [hrule] at hstatement
        cases hstatement
  | tag hrule h =>
      rcases hrule with hrule | hrule
      · exact readsDashed_tagOfPair hdashed hgrown hrule h
      · rw [hrule] at hstatement
        cases hstatement
  | tagClose hrule hname =>
      rcases hrule with hrule | hrule
      · obtain ⟨hrest, q, hname', rfl, htrim⟩ := hdashed.close_children hgrown hrule
        cases hname.symm.trans hname'
        refine ⟨hrest, ?_, htrim⟩
        simp only [Pair.string, String.toList_ofList]
      · rw [hrule] at hstatement
        cases hstatement
  | rawTag hrule => exact absurd hrule (hdashed.not_rawTag hgrown)
  | comment hrule =>
      rw [hrule] at hstatement
      cases hstatement

end Readers

/-- In every text, at any depth: where a name is followed directly by the end with whitespace control,
a plain tag or a closing has the name and the end that it should have, but neither a block nor a raw tag
is ever opened. -/
theorem readsDashed_read {source : String} {mode : Mode} {entry : Entry} {ts : List Token}
    (hsource : byteLength source.toList < Span.limit)
    (h : Token.read ⟨0, mode⟩ entry source.toList = .ok ts) :
    ∀ t ∈ ts, t.All fun u => ∀ before name rest,
      Dashed before name rest (u.span.slice source).toList → u.ReadsDashed before name rest := by
  intro t ht
  apply (all_made hsource h t ht).mono
  intro u hu before name rest hdashed
  rcases hu.liquid with hu | ⟨read, region, p, hp, hu⟩
  · cases u <;> trivial
  · exact readsDashed_liquidOfPair hsource hp hu hdashed

def dashedForm : String := "\x7b% form-%\x7d\x7b% endform %\x7d"

theorem readsDashed_dashedForm :
    byteLength dashedForm.toList < Span.limit ∧
      ∃ ts, Token.read ⟨0, .tolerant⟩ .liquidHtml dashedForm.toList = .ok ts ∧
        ts.map Token.span = [.between 0 10, .between 10 23] ∧
        Dashed false "form".toList [] ((Span.between 0 10).slice dashedForm).toList ∧
        ∀ t ∈ ts, t.All fun u => ∀ before name rest,
          Dashed before name rest (u.span.slice dashedForm).toList → u.ReadsDashed before name rest := by
  have hsource : byteLength dashedForm.toList < Span.limit := by decide +kernel
  have hspans : (Token.read ⟨0, .tolerant⟩ .liquidHtml dashedForm.toList).toOption.map (List.map Token.span) =
      some [.between 0 10, .between 10 23] := by decide +kernel
  have hdashed : Dashed false "form".toList [] ((Span.between 0 10).slice dashedForm).toList := by
    constructor
    · exact ⟨[' '], List.forall_mem_singleton.mpr (by decide), by decide +kernel⟩
    · exact ⟨'f', rfl, rfl⟩
    · exact List.all_eq_true.mp rfl
  cases h : Token.read ⟨0, .tolerant⟩ .liquidHtml dashedForm.toList with
  | error e =>
      rw [h] at hspans
      cases hspans
  | ok ts =>
      rw [h] at hspans
      exact ⟨hsource, ts, rfl, Option.some.inj hspans, hdashed, readsDashed_read hsource h⟩

def isOpening : Token → Bool
  | tagOpen _ | rawTag .. => true
  | _ => false

def spacedForm : String := "\x7b% form -%\x7d\x7b% endform %\x7d"

/-- The blank before the whitespace control makes the tag a different one. -/
theorem isOpening_spacedForm :
    (Token.read ⟨0, .tolerant⟩ .liquidHtml spacedForm.toList).toOption.map (List.map isOpening) =
        some [true, false] ∧
      (Token.read ⟨0, .tolerant⟩ .liquidHtml dashedForm.toList).toOption.map (List.map isOpening) =
        some [false, false] := by
  constructor
  · decide +kernel
  · decide +kernel

end Token

end LiquidTemplate
