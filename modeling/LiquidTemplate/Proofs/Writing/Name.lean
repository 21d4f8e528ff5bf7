import LiquidTemplate.Proofs.Fallback.Markup
import LiquidTemplate.Proofs.Geometry.Reading
import LiquidTemplate.Proofs.Rule.Name
import LiquidTemplate.Proofs.Writing.Delimiters

namespace LiquidTemplate

open Text
open Peg (Pair Grown)

/-- What a part of a name is in the source: a text, or an output with its markup, white space at its ends aside. -/
inductive Fragment where
  | text (value : String)
  | output (markup : String)
  deriving DecidableEq, Repr

namespace Fragment

def label : Fragment → List Char
  | text value => value.toList
  | output markup => ['{', '{'] ++ markup.toList ++ ['}', '}']

def Legible : Fragment → Prop
  | text value => value.toList ≠ [] ∧ ∀ x ∈ value.toList, isElementNameChar x
  | output markup => ¬['}', '}'] <:+: markup.toList

def isOutput : Fragment → Bool
  | text _ => false
  | output _ => true

end Fragment

structure LegibleName (fs : List Fragment) : Prop where
  legible : ∀ f ∈ fs, f.Legible
  apart : fs.IsChain fun f f' => f.isOutput ∨ f'.isOutput

namespace Fragment

theorem label_ne_nil {f : Fragment} (h : f.Legible) : f.label ≠ [] := by
  cases f with
  | text value => exact h.1
  | output markup => simp [label]

/-- The end of a markup is the first end of an output after it that no brace follows. -/
theorem markup_closed {m a rest rest' : List Char} (hm : ¬['}', '}'] <:+: m ++ a) (hrest : '}' ∉ rest.head?)
    (h : ['}', '}'] ++ rest = a ++ (['}', '}'] ++ rest')) : a = [] := by
  match a with
  | [] => rfl
  | [x] =>
      -- the second brace of one end is the first of the other, so a brace follows the end
      obtain ⟨_, hmore⟩ := List.cons.inj h
      obtain ⟨_, rfl⟩ := List.cons.inj hmore
      exact absurd rfl hrest
  | x :: y :: a =>
      -- the whole end is part of the other markup
      obtain ⟨rfl, hmore⟩ := List.cons.inj h
      obtain ⟨rfl, _⟩ := List.cons.inj hmore
      exact absurd ⟨m, a, by simp⟩ hm

theorem markup_inj {m n rest rest' : List Char} (hm : ¬['}', '}'] <:+: m) (hn : ¬['}', '}'] <:+: n)
    (hrest : '}' ∉ rest.head?) (hrest' : '}' ∉ rest'.head?)
    (h : m ++ (['}', '}'] ++ rest) = n ++ (['}', '}'] ++ rest')) : m = n ∧ rest = rest' := by
  have heq : m = n := by
    rcases List.append_eq_append_iff.mp h with ⟨a, rfl, hend⟩ | ⟨a, rfl, hend⟩
    · rw [markup_closed hn hrest hend, List.append_nil]
    · rw [markup_closed hm hrest' hend, List.append_nil]
  subst heq
  exact ⟨rfl, List.append_cancel_left (List.append_cancel_left h)⟩

theorem run_inj {v w rest rest' : List Char} (hv : ∀ x ∈ v, isElementNameChar x) (hw : ∀ x ∈ w, isElementNameChar x)
    (hrest : ∀ x ∈ rest.head?, isElementNameChar x = false)
    (hrest' : ∀ x ∈ rest'.head?, isElementNameChar x = false) (h : v ++ rest = w ++ rest') :
    v = w ∧ rest = rest' := by
  have heq : v = w := by
    rw [← Peg.takeWhile_append_stop hv hrest, h, Peg.takeWhile_append_stop hw hrest']
  subst heq
  exact ⟨rfl, List.append_cancel_left h⟩

end Fragment

namespace LegibleName

variable {f g : Fragment} {fs gs : List Fragment}

theorem head (h : LegibleName (f :: fs)) : f.Legible := h.legible f (by simp)

theorem tail (h : LegibleName (f :: fs)) : LegibleName fs :=
  ⟨fun f' hf' => h.legible f' (by simp [hf']), h.apart.of_cons⟩

/-- Behind an output, no brace closes. -/
theorem head_labels (h : LegibleName fs) : '}' ∉ (fs.flatMap Fragment.label).head? := by
  cases fs with
  | nil => simp
  | cons f fs =>
      cases f with
      | text value =>
          obtain ⟨hne, hchars⟩ := h.head
          obtain ⟨x, v, hv⟩ := List.exists_cons_of_ne_nil hne
          intro hx
          rw [List.flatMap_cons, Fragment.label, hv] at hx
          cases hx
          exact absurd (hchars '}' (by simp [hv])) (by decide)
      | output markup =>
          rintro ⟨⟩

/-- Behind a text, there is no character that could be part of it. -/
theorem head_behind_text {value : String} (h : LegibleName (.text value :: fs)) :
    ∀ x ∈ (fs.flatMap Fragment.label).head?, isElementNameChar x = false := by
  cases fs with
  | nil => simp
  | cons f fs =>
      have hf : f.isOutput := by simpa [Fragment.isOutput] using (List.isChain_cons_cons.mp h.apart).1
      cases f with
      | text => cases hf
      | output markup =>
          rintro x ⟨⟩
          decide

theorem label_append_inj (hf : LegibleName (f :: fs)) (hg : LegibleName (g :: gs))
    (h : f.label ++ fs.flatMap Fragment.label = g.label ++ gs.flatMap Fragment.label) :
    f = g ∧ fs.flatMap Fragment.label = gs.flatMap Fragment.label := by
  -- a text does not start as an output does
  have hstart : ∀ {value markup : String} {rest rest' : List Char}, Fragment.Legible (.text value) →
      Fragment.label (.text value) ++ rest ≠ Fragment.label (.output markup) ++ rest' := by
    rintro value markup rest rest' ⟨hne, hchars⟩ h
    obtain ⟨x, v, hv⟩ := List.exists_cons_of_ne_nil hne
    rw [Fragment.label, hv] at h
    obtain ⟨rfl, _⟩ := List.cons.inj h
    exact absurd (hchars '{' (by simp [hv])) (by decide)
  cases f with
  | text value =>
      cases g with
      | text value' =>
          obtain ⟨heq, hrest⟩ := Fragment.run_inj hf.head.2 hg.head.2 hf.head_behind_text hg.head_behind_text h
          exact ⟨congrArg Fragment.text (String.toList_injective heq), hrest⟩
      | output markup => exact absurd h (hstart hf.head)
  | output markup =>
      cases g with
      | text value => exact absurd h.symm (hstart hg.head)
      | output markup' =>
          simp only [Fragment.label, List.append_assoc] at h
          obtain ⟨heq, hrest⟩ := Fragment.markup_inj hf.head hg.head hf.tail.head_labels hg.tail.head_labels
            (List.append_cancel_left h)
          exact ⟨congrArg Fragment.output (String.toList_injective heq), hrest⟩

/-- The labels of a name, one after the other, can be read back in one way. -/
theorem eq_of_labels (hf : LegibleName fs) (hg : LegibleName gs)
    (h : fs.flatMap Fragment.label = gs.flatMap Fragment.label) : fs = gs := by
  induction fs generalizing gs with
  | nil =>
      cases gs with
      | nil => rfl
      | cons g gs => exact absurd (List.append_eq_nil_iff.mp h.symm).1 (Fragment.label_ne_nil hg.head)
  | cons f fs ih =>
      cases gs with
      | nil => exact absurd (List.append_eq_nil_iff.mp h).1 (Fragment.label_ne_nil hf.head)
      | cons g gs =>
          obtain ⟨rfl, hrest⟩ := label_append_inj hf hg h
          rw [ih hf.tail hg.tail hrest]

end LegibleName

def Piece.fragment : Piece → Fragment
  | text run => .text run.value
  | output o => .output o.markup.source

theorem Piece.toList_label (piece : Piece) : piece.label.toList = piece.fragment.label := by
  cases piece with
  | text run => rfl
  | output o => simp [Piece.label, Piece.fragment, Fragment.label]

theorem toList_nameText (name : List Piece) :
    (nameText name).toList = (name.map Piece.fragment).flatMap Fragment.label := by
  rw [nameText, String.toList_join, List.flatMap_map, List.flatMap_map]
  exact congrArg (List.flatMap · name) (funext Piece.toList_label)

def markupOfOutput (p : Pair Rule) : List Char :=
  ((p.children.find? (·.rule == .dropMarkup)).map Pair.text).getD []

def fragmentOfPair (p : Pair Rule) : Fragment :=
  match p.rule with
  | .liquidDrop => .output (Token.trimmed (markupOfOutput p))
  | _ => .text p.string

namespace Token

variable {text : List Char} {region : Region} {p : Pair Rule}

theorem source_outputMarkup {m : OutputMarkup} (hp : Grown grammar text p) (hrule : p.rule = .dropMarkup)
    (h : outputMarkup region p = .ok m) : m.source = trimmed p.text := by
  cases m with
  | value v =>
      obtain ⟨hsource, htrim⟩ := value_outputMarkup hp hrule h
      rw [OutputMarkup.source, trimmed, htrim, ← hsource, String.ofList_toList]
  | raw word =>
      rcases outputMarkup_ok h with heq | ⟨_, _, _, _, _, _, _, heq⟩
      · cases heq
        rfl
      · cases heq

/-- A part of a name keeps what is in the source. -/
theorem fragment_pieceOfPair {piece : Piece} (hp : Grown grammar text p) (h : pieceOfPair region p = .ok piece) :
    piece.fragment = fragmentOfPair p := by
  rcases pieceOfPair_cases h with ⟨hrule, o, ho, rfl⟩ | ⟨hrule | hrule, rfl⟩
  · obtain ⟨m, rfl, ⟨q, hq, hm⟩ | ⟨hq, rfl⟩⟩ := outputOfPair_ok hp hrule ho
    · have hq' : q.rule = .dropMarkup := by simpa using List.find?_some hq
      have hsource := source_outputMarkup (hp.children q (List.mem_of_find?_eq_some hq)) hq' hm
      simp only [Piece.fragment, fragmentOfPair, hrule, markupOfOutput, hq, Option.map_some, Option.getD_some,
        hsource]
    · simp only [Piece.fragment, fragmentOfPair, hrule, markupOfOutput, hq]
      rfl
  · simp only [Piece.fragment, fragmentOfPair, hrule]
    rfl
  · simp only [Piece.fragment, fragmentOfPair, hrule]
    rfl

end Token

structure NameRead (text : List Char) (region : Region) (p : Pair Rule) (name : List Piece) : Prop where
  grown : Grown grammar text p
  rule : p.rule = .htmlName
  read : Token.nameOfPair region p = .ok name

namespace NameRead

variable {text : List Char} {region : Region} {p : Pair Rule} {name : List Piece}

theorem fragments (h : NameRead text region p name) : name.map Piece.fragment = p.children.map fragmentOfPair :=
  map_mapM_ok (fun q hq _ hpiece => Token.fragment_pieceOfPair (h.grown.children q hq) hpiece) h.read

theorem rule_children (h : NameRead text region p name) :
    ∀ q ∈ p.children, q.rule = .liquidDrop ∨ q.rule = .nameText := by
  intro q hq
  have hrule : p.rule ∈ [.htmlName] := List.mem_singleton.mpr h.rule
  have hmem := children_within h.grown hrule [.liquidDrop, .nameText] (by decide) q hq
  simpa using hmem

/-- What is read as a name has the form of one. -/
theorem legible (h : NameRead text region p name) : LegibleName (name.map Piece.fragment) := by
  rw [h.fragments]
  constructor
  · intro f hf
    obtain ⟨q, hq, rfl⟩ := List.mem_map.mp hf
    have hgrown := h.grown.children q hq
    rcases h.rule_children q hq with hrule | hrule
    · obtain ⟨markup, _, hmarkup, hfound⟩ := output_written hgrown hrule
      have heq : markupOfOutput q = markup := by
        rcases hfound with ⟨q', hq', rfl⟩ | ⟨hnone, rfl⟩
        · simp [markupOfOutput, hq']
        · simp [markupOfOutput, hnone]
      simp only [fragmentOfPair, hrule, heq, Fragment.Legible, Token.trimmed, String.toList_ofList]
      exact fun hend => hmarkup.unclosed (hend.trans (trim_within markup))
    · simp only [fragmentOfPair, hrule, Fragment.Legible, Pair.string, String.toList_ofList]
      exact nameText_chars hgrown hrule
  · rw [List.isChain_map]
    refine (htmlName_apart h.grown h.rule).imp ?_
    rintro q q' (hrule | hrule)
    · exact .inl (by simp [fragmentOfPair, hrule, Fragment.isOutput])
    · exact .inr (by simp [fragmentOfPair, hrule, Fragment.isOutput])

end NameRead

namespace Token

def elementName? : Token → Option (List Piece)
  | selfClosing name .. | elementOpen name .. | elementClose name _ => some name
  | _ => none

variable {text : List Char} {read : ReadText} {region : Region} {p : Pair Rule} {t : Token} {name : List Piece}

theorem nameRead_of_parts {rest : List (Pair Rule)} {q : Pair Rule} (hp : Grown grammar text p)
    (hrule : p.rule ∈ [.htmlSelfClosing, .htmlTagOpen, .htmlTagClose]) (hchildren : p.children = q :: rest)
    (hname : nameOfPair region q = .ok name) : NameRead text region q name := by
  have hq : q.rule ∈ [.htmlName] := by
    simp only [List.mem_cons, List.not_mem_nil, or_false] at hrule
    rcases hrule with hrule | hrule | hrule
    all_goals
      obtain ⟨_, _, hplaced, hfirst, _⟩ := arranged_children hp hrule rfl
      cases hchildren.symm.trans hplaced
      exact hfirst
  exact ⟨hp.children q (by simp [hchildren]), List.mem_singleton.mp hq, hname⟩

theorem nameRead_ofPair (hp : Grown grammar text p) (h : ofPair read region p = .ok t)
    (hname : t.elementName? = some name) : ∃ q, NameRead text region q name := by
  cases PairRead.of_pair hp h with
  | selfClosing hrule hchildren hpieces | elementOpen hrule hchildren hpieces | elementClose hrule hchildren hpieces =>
      cases hname
      exact ⟨_, nameRead_of_parts hp (by simp [hrule]) hchildren hpieces⟩
  | liquid h =>
      have hliquid := isLiquid_liquidOfPair hp h
      cases t with
      | selfClosing | elementOpen | elementClose => cases hliquid
      | _ => cases hname
  | _ => cases hname

/-- The names of the elements of a document are read from it, in the mode of the document. -/
theorem nameRead_read {entry : Entry} {ts : List Token} (h : Token.read region entry text = .ok ts) (ht : t ∈ ts)
    (hname : t.elementName? = some name) : ∃ q, NameRead text region q name := by
  obtain ⟨p, q, hp, _, hq, ht⟩ := mem_readWithin h ht
  exact nameRead_ofPair (hp.children q hq) ht hname

end Token

/-- Names have one text just if they have the same fragments in the same order: each is a text or an output in
both, with one value, or with one markup in the source, white space at its ends aside. -/
theorem nameText_eq_iff {text₁ text₂ : List Char} {region₁ region₂ : Region} {p₁ p₂ : Pair Rule}
    {name₁ name₂ : List Piece} (h₁ : NameRead text₁ region₁ p₁ name₁) (h₂ : NameRead text₂ region₂ p₂ name₂) :
    (nameText name₁ = nameText name₂ ↔ name₁.map Piece.fragment = name₂.map Piece.fragment) ∧
      name₁.map Piece.fragment = p₁.children.map fragmentOfPair ∧
      name₂.map Piece.fragment = p₂.children.map fragmentOfPair := by
  refine ⟨?_, h₁.fragments, h₂.fragments⟩
  rw [← String.toList_inj, toList_nameText, toList_nameText]
  constructor
  · exact h₁.legible.eq_of_labels h₂.legible
  · intro h
    rw [h]

def readFragments? (region : Region) (text : List Char) : Option (List Fragment) :=
  (grammar.parse .htmlName text).toOption.bind fun
    | [p] => (Token.nameOfPair region p).toOption.map (List.map Piece.fragment)
    | _ => none

theorem NameRead.of_readFragments {text : List Char} {region : Region} {fs : List Fragment}
    (h : readFragments? region text = some fs) :
    ∃ p name, NameRead text region p name ∧ name.map Piece.fragment = fs := by
  obtain ⟨pairs, hparse, h⟩ := Option.bind_eq_some_iff.mp h
  rw [toOption_eq_some] at hparse
  split at h
  · rename_i p
    obtain ⟨name, hname, rfl⟩ := Option.map_eq_some_iff.mp h
    have hrule := Peg.Grammar.parse_rule hparse Peg.Kind.noConfusion p (by simp)
    exact ⟨p, name, ⟨(Peg.Grammar.grown_parse hparse).1 p (by simp), hrule, toOption_eq_some.mp hname⟩, rfl⟩
  · cases h

def bracedName : List Char := "h-\x7b\x7b \x7b\x7bx\x7d \x7d\x7d\x7b\x7b-\x7d\x7d".toList

def denseName : List Char := "h-\x7b\x7b\x7b\x7bx\x7d \x7d\x7d\x7b\x7b\x7d\x7d".toList

def shortName : List Char := "h-\x7b\x7b\x7b\x7bx\x7d \x7d\x7d".toList

theorem nameText_eq_iff_bracedName :
    ∃ p₁ p₂ p₃ name₁ name₂ name₃, NameRead bracedName ⟨0, .tolerant⟩ p₁ name₁ ∧
      NameRead denseName ⟨7, .completion⟩ p₂ name₂ ∧ NameRead shortName ⟨0, .tolerant⟩ p₃ name₃ ∧
      nameText name₁ = nameText name₂ ∧ nameText name₁ ≠ nameText name₃ := by
  have hbraced : readFragments? ⟨0, .tolerant⟩ bracedName =
      some [.text "h-", .output "\x7b\x7bx\x7d", .output ""] := by decide +kernel
  have hdense : readFragments? ⟨7, .completion⟩ denseName =
      some [.text "h-", .output "\x7b\x7bx\x7d", .output ""] := by decide +kernel
  have hshort : readFragments? ⟨0, .tolerant⟩ shortName = some [.text "h-", .output "\x7b\x7bx\x7d"] := by
    decide +kernel
  obtain ⟨p₁, name₁, h₁, hfs₁⟩ := NameRead.of_readFragments hbraced
  obtain ⟨p₂, name₂, h₂, hfs₂⟩ := NameRead.of_readFragments hdense
  obtain ⟨p₃, name₃, h₃, hfs₃⟩ := NameRead.of_readFragments hshort
  refine ⟨p₁, p₂, p₃, name₁, name₂, name₃, h₁, h₂, h₃, (nameText_eq_iff h₁ h₂).1.mpr (hfs₁.trans hfs₂.symm), ?_⟩
  intro heq
  have hfs := (nameText_eq_iff h₁ h₃).1.mp heq
  rw [hfs₁, hfs₃] at hfs
  exact absurd hfs (by decide)

end LiquidTemplate
