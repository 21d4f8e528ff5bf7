import LiquidTemplate.Proofs.Nesting.Openings
import LiquidTemplate.Proofs.Origin.Dash
import LiquidTemplate.Proofs.Origin.Elements

namespace LiquidTemplate

open Text
open Peg (Pair Grown)

namespace Token

variable {text : List Char} {read : ReadText} {region : Region} {p : Pair Rule}

theorem string_ne_empty (hp : Seated text region.offset p) (hsolid : p.rule.solid) : p.string ≠ "" := by
  obtain ⟨_, _, hgrown⟩ := hp
  intro hnil
  exact text_ne_nil hgrown hsolid (String.ofList_eq_empty_iff.mp hnil)

theorem label_pieceOfPair {piece : Piece} (hp : Seated text region.offset p)
    (h : pieceOfPair region p = .ok piece) : piece.label ≠ "" := by
  obtain ⟨_, _, hgrown⟩ := id hp
  rcases pieceOfPair_cases h with ⟨_, o, _, rfl⟩ | ⟨_, rfl⟩
  · simp [Piece.label]
  · exact string_ne_empty hp (pieceOfPair_ok hgrown h).2

theorem nameText_ne_empty {pieces : List Piece} (hp : Seated text region.offset p)
    (hrule : p.rule = .htmlName) (h : nameOfPair region p = .ok pieces) : nameText pieces ≠ "" := by
  obtain ⟨_, _, hgrown⟩ := id hp
  obtain ⟨first, rest, hchildren, _⟩ := arranged_children hgrown hrule rfl
  rw [nameOfPair, hchildren] at h
  obtain ⟨piece, pieces', hpiece, _, rfl⟩ := mapM_cons_ok h
  have hlabel := label_pieceOfPair (hp.child (by simp [hchildren])) hpiece
  rw [nameText, List.map_cons, String.join_cons]
  intro hnil
  exact hlabel (String.append_eq_empty_iff.mp hnil).1

theorem named_elementOpen {name : List Piece} {attributes : List Token} {span : Span}
    (hp : Seated text region.offset p) (h : ofPair read region p = .ok (.elementOpen name attributes span)) :
    nameText name ≠ "" := by
  obtain ⟨_, _, hgrown⟩ := id hp
  cases PairRead.of_pair hgrown h with
  | elementOpen hrule hchildren hpieces =>
      obtain ⟨_, _, hplaced, hname, _⟩ := arranged_children hgrown hrule rfl
      rw [hchildren] at hplaced
      cases hplaced
      exact nameText_ne_empty (hp.child (by simp [hchildren])) (List.mem_singleton.mp hname) hpieces
  | liquid h => cases opensElement_liquidOfPair hgrown h

theorem named_tagOfPair {build : Tag → Token} {t : Token} {tag : Tag} (hbuild : ∀ u, build u = .tagOpen tag → u = tag)
    (hp : Seated text region.offset p) (hrule : p.rule ∈ Rule.markedRules)
    (h : tagOfPair read region build p = .ok t) (ht : t = .tagOpen tag) : tag.name ≠ "" := by
  obtain ⟨_, _, hgrown⟩ := id hp
  obtain ⟨name, _, _, hname, _, h⟩ := tagOfPair_parts hgrown hrule h
  have hrule := List.find?_some hname
  cases h with
  | unknown | known | unread =>
      rw [← hbuild _ ht]
      exact string_ne_empty (hp.child (List.mem_of_find?_eq_some hname)) (solid_of_isTagNameRule _ hrule)
  | statements => cases ht

theorem named_tagOpen {tag : Tag} (hp : Seated text region.offset p)
    (h : liquidOfPair read region p = .ok (.tagOpen tag)) : tag.name ≠ "" := by
  obtain ⟨_, _, hgrown⟩ := id hp
  cases LiquidRead.of_pair hgrown h with
  | tagOpen hrule h =>
      exact named_tagOfPair (fun u hu => by cases hu; rfl) hp (Rule.mem_markedRules_of_open hrule) h rfl
  | tag hrule h => exact named_tagOfPair (fun u hu => by cases hu) hp (Rule.mem_markedRules_of_tag hrule) h rfl

/-- What a token of a text opens has a name. -/
theorem Made.opening_named {t : Token} {u : Unclosed} (h : Made text t) (hu : t.opening? = some u) :
    u.name ≠ "" := by
  cases t with
  | elementOpen name attributes span =>
      cases hu
      cases h with
      | ofDocument hp h => exact named_elementOpen hp h
      | ofAttribute hp h =>
          obtain ⟨_, _, hgrown⟩ := hp
          cases opensElement_attributeOfPair hgrown h
      | ofValue hp h =>
          obtain ⟨_, _, hgrown⟩ := hp
          cases opensElement_valueOfPair hgrown h
      | ofVerbatim _ h => cases opensElement_verbatim h
  | tagOpen tag =>
      cases hu
      rcases h.liquid with hliquid | ⟨_, _, _, hp, h⟩
      · cases hliquid
      · exact named_tagOpen hp h
  | tag tag =>
      simp only [opening?] at hu
      split at hu
      · rename_i hname
        cases hu
        intro hnil
        change tag.name = "" at hnil
        rw [hnil] at hname
        cases hname
      · cases hu
  | _ => cases hu

end Token

end LiquidTemplate
