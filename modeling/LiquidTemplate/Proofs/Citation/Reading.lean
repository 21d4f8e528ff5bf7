import LiquidTemplate.Proofs.Citation.Markup
import LiquidTemplate.Proofs.Origin.Reading

namespace LiquidTemplate

open Text
open Peg (Pair Grown Trimmed)

def TextRun.Cites (source : String) (run : TextRun) : Prop := run.span.slice source = run.value

def Output.Cites (source : String) (o : Output) : Prop :=
  match o.markup with
  | .value v => v.Cites source o.span
  | .raw _ => True

def Piece.Cites (source : String) : Piece → Prop
  | text run => run.Cites source
  | output o => o.Cites source

/-- The texts of the token that have spans, those of nested tokens apart, are what the source has
there; what the markup of an output or a tag holds lies in the output or the tag. -/
def Token.Cites (source : String) : Token → Prop
  | text run => run.Cites source
  | rawElement e _ _ => e.name.Cites source ∧ e.bodySpan.slice source = e.body
  | voidElement name _ _ => name.Cites source
  | selfClosing name _ _ | elementOpen name _ _ | elementClose name _ | valueAttribute _ name _ _ _
  | bareAttribute name _ => ∀ piece ∈ name, piece.Cites source
  | output o => o.Cites source
  | tagOpen t | tag t => t.markup.Cites source t.span
  | rawTag t _ => t.bodySpan.slice source = t.body
  | _ => True

variable {source : String} {p : Pair Rule}

theorem Span.Holds.owns {s owner : Span} {part : List Char} (h : s.Holds source.toList part)
    (hs : s.Inside source.toList owner.lo owner.hi) : owner.Owns source s.lo part := by
  refine ⟨h.1, hs.le_lo, ?_⟩
  rw [h.2]
  exact hs.hi_le

namespace Token

variable {read : ReadText} {region : Region} (hsource : byteLength source.toList < Span.limit)

include hsource

theorem cites_runOfPair {offset : Nat} (hp : Seated source.toList offset p) :
    (runOfPair offset p).Cites source :=
  (hp.fills_span hsource).slice_eq

/-- The markup of an output is read as a variable without blanks around it. -/
theorem cites_outputMarkup {owner : Span} {m : OutputMarkup} {v : Variable}
    (hp : Seated source.toList region.offset p) (hrule : p.rule = .dropMarkup)
    (howner : (p.span region.offset).Inside source.toList owner.lo owner.hi)
    (h : outputMarkup region p = .ok m) (hm : m = .value v) : v.Cites source owner := by
  subst hm
  have ⟨_, _, hgrown⟩ := hp
  have hmarkup := trimmed_markup hgrown (by simp [Rule.isMarkup, hrule])
  have howns := (hp.fills_span hsource).owns howner
  rcases outputMarkup_ok h with hraw | ⟨q, value, rest, v, hq, hparts, hv, heq⟩
  · cases hraw
  · cases heq
    have howned := howns.owned (Markup.grown_matchRule hq)
    obtain ⟨pairs, hparse⟩ := Markup.parse_of_matchRule hq
    obtain ⟨q, value, hpairs, hparts', hrule, htrim⟩ := parts_markupVariable hmarkup hparse
    cases hpairs
    rw [hparts] at hparts'
    cases hparts'
    have hvalue : value ∈ Markup.parts q := by simp [hparts]
    exact Variable.cites_ofPair hsource (howned.child (List.mem_filter.mp hvalue).1) hrule htrim hv

theorem cites_outputOfPair {o : Output} (hp : Seated source.toList region.offset p) (hrule : p.rule = .liquidDrop)
    (h : outputOfPair region p = .ok o) : o.Cites source := by
  obtain ⟨_, _, hgrown⟩ := id hp
  obtain ⟨m, rfl, ⟨markup, hmarkup, hm⟩ | ⟨_, rfl⟩⟩ := outputOfPair_ok hgrown hrule h
  · have hrule : markup.rule = .dropMarkup := by simpa using List.find?_some hmarkup
    have hmem := List.mem_of_find?_eq_some hmarkup
    unfold Output.Cites
    split
    · rename_i v hv
      exact cites_outputMarkup hsource (hp.child hmem) hrule (hp.inside_child hsource hmem) hm hv
    · trivial
  · trivial

theorem cites_nameOfPair {name : List Piece} (hp : Seated source.toList region.offset p)
    (h : nameOfPair region p = .ok name) : ∀ piece ∈ name, piece.Cites source := by
  intro piece hpiece
  obtain ⟨q, hq, hpiece⟩ := mem_mapM_ok h hpiece
  rcases pieceOfPair_cases hpiece with ⟨hrule, o, ho, rfl⟩ | ⟨_, rfl⟩
  · exact cites_outputOfPair hsource (hp.child hq) hrule ho
  · exact cites_runOfPair hsource (hp.child hq)

theorem cites_tagOfPair {build : Tag → Token} {t : Token}
    (hbuild : ∀ tag, tag.markup.Cites source tag.span → (build tag).Cites source)
    (hp : Seated source.toList region.offset p) (hrule : p.rule ∈ Rule.markedRules)
    (h : tagOfPair read region build p = .ok t) : t.Cites source := by
  obtain ⟨_, _, _, hinside, hholds, htrim, h⟩ := tagOfPair_ok hsource hp hrule h
  cases h with
  | unknown | unread => exact hbuild _ trivial
  | known _ hrule hm => exact hbuild _ (Markup.cites_read hsource (hholds.owns hinside) htrim hrule hm)
  | statements => trivial

theorem cites_liquidOfPair {t : Token} (hp : Seated source.toList region.offset p)
    (h : liquidOfPair read region p = .ok t) : t.Cites source := by
  obtain ⟨_, _, hgrown⟩ := id hp
  cases LiquidRead.of_pair hgrown h with
  | output hrule ho => exact cites_outputOfPair hsource hp hrule ho
  | tagOpen hrule h =>
      refine cites_tagOfPair hsource ?_ hp (Rule.mem_markedRules_of_open hrule) h
      exact fun _ hmarkup => hmarkup
  | tag hrule h =>
      refine cites_tagOfPair hsource ?_ hp (Rule.mem_markedRules_of_tag hrule) h
      exact fun _ hmarkup => hmarkup
  | tagClose => trivial
  | @rawTag _ body _ _ _ _ _ _ hchildren =>
      have hbody : Seated source.toList region.offset body := hp.child (by simp [hchildren])
      exact (hbody.fills_span hsource).slice_eq
  | @comment body _ _ hchildren =>
      have hbody : Seated source.toList region.offset body := hp.child (by simp [hchildren])
      exact (hbody.fills_span hsource).slice_eq

theorem cites_valueOfPair {t : Token} (hp : Seated source.toList region.offset p)
    (h : valueOfPair read region p = .ok t) : t.Cites source := by
  cases ValueRead.of_pair h with
  | text => exact cites_runOfPair hsource hp
  | liquid h => exact cites_liquidOfPair hsource hp h

theorem cites_attributeOfPair {t : Token} (hp : Seated source.toList region.offset p)
    (h : attributeOfPair read region p = .ok t) : t.Cites source := by
  obtain ⟨_, _, hgrown⟩ := id hp
  cases AttributeRead.of_pair hgrown h with
  | value _ hchildren hpieces | bare _ hchildren hpieces =>
      exact cites_nameOfPair hsource (hp.child (by simp [hchildren])) hpieces
  | liquid h => exact cites_liquidOfPair hsource hp h

theorem cites_ofPair {t : Token} (hp : Seated source.toList region.offset p)
    (h : ofPair read region p = .ok t) : t.Cites source := by
  obtain ⟨_, _, hgrown⟩ := id hp
  cases PairRead.of_pair hgrown h with
  | text => exact cites_runOfPair hsource hp
  | @rawElement name _ body _ _ _ hchildren hlast =>
      have hname : Seated source.toList region.offset name := hp.child (by simp [hchildren])
      have hbody : Seated source.toList region.offset body := hp.child (List.mem_of_getLast? hlast)
      exact ⟨cites_runOfPair hsource hname, (hbody.fills_span hsource).slice_eq⟩
  | voidElement _ hchildren => exact cites_runOfPair hsource (hp.child (by simp [hchildren]))
  | selfClosing _ hchildren hpieces | elementOpen _ hchildren hpieces | elementClose _ hchildren hpieces =>
      exact cites_nameOfPair hsource (hp.child (by simp [hchildren])) hpieces
  | liquid h => exact cites_liquidOfPair hsource hp h
  | frontmatter | doctype | comment | docParam | docExample | docDescription => trivial

theorem cites_verbatim {body : List Char} {start : Nat} {t : Token} (hbody : Sits source.toList start body)
    (ht : t ∈ verbatim body start) : t.Cites source := by
  rw [mem_verbatim ht]
  obtain ⟨before, after, heq, hlength⟩ := sits_trim body
  have htrim := hbody.trans ⟨before, after, heq, hlength⟩
  obtain ⟨_, hlo, hhi⟩ :=
    Span.between_spec hsource (Nat.le_add_right _ _) htrim.boundary htrim.boundary_end
  have hholds : (Span.between _ _).Holds source.toList (trim body) := ⟨hlo.symm ▸ htrim, by rw [hlo, hhi]⟩
  exact hholds.slice_eq

theorem Made.cites {t : Token} (h : Made source.toList t) : t.Cites source := by
  cases h with
  | ofDocument hp h => exact cites_ofPair hsource hp h
  | ofAttribute hp h => exact cites_attributeOfPair hsource hp h
  | ofValue hp h => exact cites_valueOfPair hsource hp h
  | ofVerbatim hbody ht => exact cites_verbatim hsource hbody ht

end Token

end LiquidTemplate
