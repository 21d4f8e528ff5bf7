import LiquidTemplate.Proofs.Agreement.Lines
import LiquidTemplate.Proofs.Fallback.Reading
import LiquidTemplate.Proofs.Rule.Element
import LiquidTemplate.Proofs.Writing.Text

namespace LiquidTemplate

open Text Rule
open Peg (Pair Grown Tiled)

/-- One pair that leaves out only blanks of a text leaves out nothing, if the text has none at its ends. -/
theorem Peg.Tiled.text_eq {text : List Char} {p : Pair Rule} (h : Tiled spaceLetters 0 text [p])
    (hhead : ∀ x ∈ text.head?, x ∉ spaceLetters) (hlast : ∀ x ∈ text.getLast?, x ∉ spaceLetters) : p.text = text := by
  obtain ⟨gap, rest, heq, hgap, _, _, hrest⟩ := h
  have hrest : ∀ x ∈ rest, x ∈ spaceLetters := hrest
  have hfront : gap = [] := by
    cases gap with
    | nil => rfl
    | cons x gap => exact absurd (hgap x List.mem_cons_self) (hhead x (by simp [heq]))
  have hback : rest = [] := by
    rcases List.eq_nil_or_concat rest with hnil | ⟨rest, x, hconcat⟩
    · exact hnil
    · have hend : text = gap ++ (p.text ++ rest) ++ [x] := by simp [heq, hconcat]
      exact absurd (hrest x (by simp [hconcat])) (hlast x (by rw [hend]; exact List.getLast?_concat))
  simp [heq, hfront, hback]

theorem succeeds_of_isSome {ε α : Type} {x : Except ε α} (h : x.toOption.isSome) : Succeeds x := by
  obtain ⟨a, ha⟩ := Option.isSome_iff_exists.mp h
  exact ⟨a, toOption_eq_some.mp ha⟩

namespace Token

variable {mode : Mode} {entry : Entry} {text : List Char} {t : Token}

theorem pair_of_read (hhead : ∀ x ∈ text.head?, x ∉ spaceLetters) (hlast : ∀ x ∈ text.getLast?, x ∉ spaceLetters)
    (h : Token.read ⟨0, mode⟩ entry text = .ok [t]) :
    ∃ whole p, grammar.parse entry.startRule text = .ok [whole] ∧
      whole.children.filter (·.rule != .endOfInput) = [p] ∧ p.text = text ∧ Grown grammar text p ∧
      ofPair Token.read ⟨0, mode⟩ p = .ok t := by
  obtain ⟨whole, ps, hparse, _, hps, htiled, h⟩ := tiled_readWithin h
  cases ps with
  | nil => cases h
  | cons p ps =>
      obtain ⟨_, ts, hp, hts, heq⟩ := mapM_cons_ok h
      cases heq
      cases ps with
      | cons q ps =>
          obtain ⟨_, _, _, _, heq⟩ := mapM_cons_ok hts
          cases heq
      | nil =>
          have hmem : p ∈ whole.children := List.mem_of_mem_filter (hps ▸ List.mem_singleton_self p)
          have hgrown := ((Peg.Grammar.grown_parse hparse).1 whole (by simp)).children p hmem
          have hread : Agree text (readWithin text.length) Token.read := fun _ _ _ hpart => readWithin_eq_read hpart
          rw [ofPair_congr hread hgrown] at hp
          exact ⟨whole, p, hparse, hps.symm, htiled.text_eq hhead hlast, hgrown, hp⟩

theorem rawElement_ofPair {read : ReadText} {region : Region} {p : Pair Rule} {e : RawElement} {as us : List Token}
    (hp : Grown grammar text p) (h : ofPair read region p = .ok (.rawElement e as us)) :
    p.rule = .htmlRawTag ∧ ∃ name rest body, p.children = name :: rest ∧ p.children.getLast? = some body ∧
      rest.dropLast.mapM (attributeOfPair read region) = .ok as ∧ e.body = body.string := by
  cases PairRead.of_pair hp h with
  | rawElement hrule hchildren hlast has => exact ⟨hrule, _, _, _, hchildren, hlast, has, rfl⟩
  | liquid h => cases isLiquid_liquidOfPair hp h

def soleBody? : List Token → Option (List Char)
  | [.rawElement e _ _] => some e.body.toList
  | _ => none

/-- The text is read as one raw element with the body. -/
def ReadsRaw (mode : Mode) (text body : List Char) : Prop :=
  ∃ e as us, Token.read ⟨0, mode⟩ .liquidHtml text = .ok [.rawElement e as us] ∧ e.body.toList = body

theorem readsRaw_iff {body : List Char} :
    ReadsRaw mode text body ↔ (Token.read ⟨0, mode⟩ .liquidHtml text).toOption.bind soleBody? = some body := by
  constructor
  · rintro ⟨e, as, us, hread, rfl⟩
    rw [hread]
    rfl
  · intro h
    obtain ⟨ts, hts, hsole⟩ := Option.bind_eq_some_iff.mp h
    unfold soleBody? at hsole
    split at hsole
    · exact ⟨_, _, _, toOption_eq_some.mp hts, Option.some.inj hsole⟩
    · cases hsole

instance {body : List Char} : Decidable (ReadsRaw mode text body) := decidable_of_iff _ readsRaw_iff.symm

theorem succeeds_tolerant {offset : Nat} (h : Succeeds (Token.read ⟨offset, mode⟩ entry text)) :
    Succeeds (Token.read ⟨offset, .tolerant⟩ entry text) := by
  have hmodes := lenient_read text entry offset
  rcases hmodes.tolerant_completion with ⟨ts, _, hts, _⟩ | ⟨e, _, herror⟩
  · exact ⟨ts, hts⟩
  · obtain ⟨ts, hts⟩ := h
    cases mode with
    | strict => cases herror.symm.trans (hmodes.completion hts)
    | tolerant => exact ⟨ts, hts⟩
    | completion => cases herror.symm.trans hts

def AttributesRead (mode : Mode) (name attributes rest : List Char) : Prop :=
  ∃ ps, Attributed name attributes rest ps ∧ Succeeds (ps.mapM (attributeOfPair Token.read ⟨0, mode⟩))

section Element

variable {name name' attributes body : List Char} (hname : name.map Char.toLower ∈ rawNames)

include hname

/-- An element is raw if it is closed by the name it is opened by, and its attributes and body can be read. -/
theorem readsRaw_of_alike {ts : List Token} (hlength : byteLength (elementText name attributes body name) < Span.limit)
    (hhead : ∀ x ∈ attributes.head?, x ∈ spaceLetters) (hbody : Token.read ⟨0, .tolerant⟩ .liquid body = .ok ts)
    (hunclosed : ∀ word, ElementCloser name word → ¬word <:+: body)
    (h : AttributesRead mode name attributes (body ++ closingText name)) :
    ReadsRaw mode (elementText name attributes body name) body := by
  obtain ⟨ps, hattributed, as, has⟩ := h
  obtain ⟨p, q, q', hnode, hrule, hchildren, htext⟩ := oneNode_rawElement hname hhead hunclosed hattributed
  have hgrown : Grown grammar (elementText name attributes body name) p := by
    obtain ⟨whole, _, hparse, hnodes, _⟩ := hnode
    exact ((Peg.Grammar.grown_parse hparse).1 whole (by simp)).children p (by simp [hnodes])
  have hroom : (q'.span 0).lo + byteLength q'.text + 0 < Span.limit :=
    room (by simpa using hlength) (hgrown.children q' (by simp [hchildren]))
  have hbody' : Token.read ⟨(q'.span 0).lo, .tolerant⟩ .liquid q'.text = .ok (ts.map (shift (q'.span 0).lo)) := by
    have hmoved := moves_readWithin (q'.span 0).lo (q'.text.length + 1) 0 .tolerant .liquid q'.text (by omega)
    rw [Nat.zero_add] at hmoved
    rw [Token.read, hmoved, htext]
    exact congrArg (moved _ _) hbody
  obtain ⟨_, ps', _, hchildren', _, _, _, heq⟩ := rawElementOfPair_eq hgrown hrule
  rw [hchildren] at hchildren'
  obtain ⟨rfl, hrest⟩ := List.cons.inj hchildren'
  obtain ⟨rfl, hlast⟩ := List.append_inj' hrest rfl
  cases hlast
  have htoken : ofPair Token.read ⟨0, mode⟩ p = .ok (.rawElement ⟨runOfPair 0 q, q'.string, q'.span 0,
      blockAround (p.span 0) (q'.span 0)⟩ as (ts.map (shift (q'.span 0).lo))) := by
    simp only [ofPair, hrule, heq, has, hbody']
    rfl
  refine ⟨_, _, _, by rw [read_oneNode .liquidHtml hnode (by rw [hrule]; decide), htoken]; rfl, ?_⟩
  rw [← htext]
  exact String.toList_ofList

theorem alike_of_readsRaw (hname' : name'.map Char.toLower = name.map Char.toLower)
    (h : ReadsRaw mode (elementText name attributes body name') body) :
    name' = name ∧ AttributesRead mode name attributes (body ++ closingText name') := by
  obtain ⟨e, as, us, hread, hbody⟩ := h
  have hends : (∀ x ∈ (elementText name attributes body name').head?, x ∉ spaceLetters) ∧
      ∀ x ∈ (elementText name attributes body name').getLast?, x ∉ spaceLetters := by
    constructor
    · simp [elementText, spaceLetters]
    · rw [elementText, closingText, ← List.append_assoc, ← List.append_assoc, List.getLast?_concat]
      simp [spaceLetters]
  obtain ⟨whole, p, hparse, hp, htext, hgrown, htoken⟩ := pair_of_read hends.1 hends.2 hread
  obtain ⟨hrule, q, rest, q', hchildren, hlast, has, hstring⟩ := rawElement_ofPair hgrown htoken
  have hq : q'.text = body := by
    rw [← hbody, hstring]
    exact String.toList_ofList.symm
  obtain ⟨rfl, q₀, ps, hchildren', hattributed⟩ :=
    written_of_rawElement hname hname' rfl hparse hp hrule htext hlast hq
  refine ⟨rfl, ps, hattributed, as, ?_⟩
  cases hchildren.symm.trans hchildren'
  rwa [List.dropLast_concat] at has

/-- The names of raw elements are known in letters of either case, but an element is closed by no other name than the
one it is opened by, letter for letter.  So a text that is written as an element with a body that the reader accepts is
read as such just if its names are the same, and its attributes can be read in their place. -/
theorem readsRaw_iff_alike {mode' : Mode} (hname' : name'.map Char.toLower = name.map Char.toLower)
    (hlength : byteLength (elementText name attributes body name') < Span.limit)
    (hhead : ∀ x ∈ attributes.head?, x ∈ spaceLetters) (hbody : Succeeds (Token.read ⟨0, mode'⟩ .liquid body))
    (hunclosed : ∀ word, ElementCloser name word → ¬word <:+: body) :
    ReadsRaw mode (elementText name attributes body name') body ↔
      name' = name ∧ AttributesRead mode name attributes (body ++ closingText name') := by
  constructor
  · exact alike_of_readsRaw hname hname'
  · rintro ⟨rfl, h⟩
    obtain ⟨ts, hts⟩ := succeeds_tolerant hbody
    exact readsRaw_of_alike hname hlength hhead hts hunclosed h

end Element

def mixedName : List Char := "StYle".toList

def mixedAttributes : List Char := " media=\"\x7b\x7b m \x7d\x7d\"\n\x7b% if a %\x7d".toList

def mixedBody : List Char := "a</style>\x7b\x7b b \x7d\x7d ".toList

theorem unclosed_mixedBody : ∀ word, ElementCloser mixedName word → ¬word <:+: mixedBody := by
  rintro word ⟨blanks, _, rfl⟩ hinfix
  have hcapital : 'S' ∈ mixedBody := hinfix.subset (by simp [mixedName])
  revert hcapital
  decide

theorem readsRaw_iff_alike_mixedName :
    (ReadsRaw .strict (elementText mixedName mixedAttributes mixedBody mixedName) mixedBody ∧
      AttributesRead .strict mixedName mixedAttributes (mixedBody ++ closingText mixedName)) ∧
    ¬ReadsRaw .strict (elementText mixedName mixedAttributes mixedBody "style".toList) mixedBody := by
  have hbody : Succeeds (Token.read ⟨0, .strict⟩ .liquid mixedBody) := succeeds_of_isSome (by decide +kernel)
  have hhead : ∀ x ∈ mixedAttributes.head?, x ∈ spaceLetters := by
    rintro x ⟨⟩
    decide
  have halike : ∀ name', name'.map Char.toLower = mixedName.map Char.toLower →
      byteLength (elementText mixedName mixedAttributes mixedBody name') < Span.limit →
      (ReadsRaw .strict (elementText mixedName mixedAttributes mixedBody name') mixedBody ↔
        name' = mixedName ∧ AttributesRead .strict mixedName mixedAttributes (mixedBody ++ closingText name')) :=
    fun name' hname' hlength => readsRaw_iff_alike (by decide) hname' hlength hhead hbody unclosed_mixedBody
  have hread : ReadsRaw .strict (elementText mixedName mixedAttributes mixedBody mixedName) mixedBody := by
    decide +kernel
  refine ⟨⟨hread, ((halike mixedName rfl (by decide +kernel)).mp hread).2⟩, ?_⟩
  intro hother
  exact absurd ((halike "style".toList (by decide) (by decide +kernel)).mp hother).1 (by decide)

def isSoleOpening : Except Error (List Token) → Bool
  | .ok [.elementOpen _ _ _] => true
  | _ => false

/-- A text that is written as an element in letters of either case is not always read as one. -/
theorem not_readsRaw_smallClosing :
    ¬∀ name name' attributes body : List Char, name.map Char.toLower ∈ rawNames →
      name'.map Char.toLower = name.map Char.toLower →
      (∃ pieces as span, Token.read ⟨0, .tolerant⟩ .liquidHtml ("<div ".toList ++ attributes ++ ['>']) =
        .ok [.elementOpen pieces as span]) →
      Succeeds (Token.read ⟨0, .tolerant⟩ .liquid body) →
      (∀ n word, n.map Char.toLower = name.map Char.toLower → ElementCloser n word → ¬word <:+: body) →
      ReadsRaw .tolerant (elementText name (' ' :: attributes) body name') body := by
  intro h
  have hopening : ∃ pieces as span, Token.read ⟨0, .tolerant⟩ .liquidHtml ("<div ".toList ++ "async".toList ++ ['>']) =
      .ok [.elementOpen pieces as span] := by
    have hsole : isSoleOpening (Token.read ⟨0, .tolerant⟩ .liquidHtml ("<div ".toList ++ "async".toList ++ ['>'])) := by
      decide +kernel
    unfold isSoleOpening at hsole
    split at hsole
    · exact ⟨_, _, _, ‹_›⟩
    · cases hsole
  have hunclosed : ∀ n word : List Char, n.map Char.toLower = "SCRIPT".toList.map Char.toLower →
      ElementCloser n word → ¬word <:+: ['x'] := by
    rintro n word _ ⟨blanks, _, rfl⟩ hinfix
    have hlength := hinfix.length_le
    simp at hlength
  have hread := h "SCRIPT".toList "script".toList "async".toList ['x'] (by decide) (by decide) hopening
    (succeeds_of_isSome (by decide +kernel)) hunclosed
  revert hread
  decide +kernel

end Token

end LiquidTemplate
