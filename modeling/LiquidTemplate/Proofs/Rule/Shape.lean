import LiquidTemplate.Rule.Body
import LiquidTemplate.Proofs.Peg.Shape

namespace LiquidTemplate

open Peg Rule

namespace Rule

def solid : Rule → Bool
  | endOfInput | liquidHtmlDocument | liquidDocument | liquidTagContents | liquidDocContents
  | frontmatterBody | rawBody | statementCommentBody | docTypeText | docBlockContent | docRun
  | htmlCommentBody | htmlRawBody | attrList | attrDqValue | attrSqValue | singleQuoted
  | doubleQuoted | htmlTextStop | liquidTextStop => false
  | _ => true

theorem eats_body (r : Rule) : r.solid → (grammar.body r).eats solid := by
  cases r <;> decide

def still : Rule → Bool
  | space | inlineSpace => true
  | _ => false

theorem still_grammar : Still grammar still := by
  intro r
  cases r <;> decide

def documents : Rule → Bool
  | docParam | docExample | docDescription | docText | endOfInput => true
  | _ => false

theorem documents_cases (r : Rule) : r.documents → r ≠ .endOfInput →
    r = .docParam ∨ r = .docExample ∨ r = .docDescription ∨ r = .docText := by
  cases r <;> decide

theorem closed_documents : Closed grammar fun r => r.documents || r == .docNode || r == .space := by
  intro r
  cases r <;> decide

end Rule

variable {text : List Char} {p : Pair Rule}

theorem grown_lt (h : Grown grammar text p) (hp : p.rule.solid) : p.start < p.stop :=
  h.lt eats_body hp

theorem text_ne_nil (h : Grown grammar text p) (hp : p.rule.solid) : p.text ≠ [] := by
  have hlt := grown_lt h hp
  obtain ⟨_, _, _, _, hstop⟩ := h.text_eq
  intro hnil
  rw [hnil, Text.byteLength_nil] at hstop
  omega

theorem voidElement_children (h : Grown grammar text p) (hp : p.rule = .htmlVoidElement) :
    ∃ name rest, p.children = name :: rest ∧ name.rule = .voidName :=
  h.head_child still_grammar (by rw [hp]; rfl) (by rw [hp]; decide) (by decide)

theorem rawElement_children (h : Grown grammar text p) (hp : p.rule = .htmlRawTag) :
    ∃ name attributes body, p.children = name :: (attributes ++ [body]) ∧
      p.children.getLast? = some body ∧ name.rule = .htmlRawName ∧ body.rule = .htmlRawBody := by
  have hbranches : (grammar.kind p.rule).branches := by rw [hp]; rfl
  obtain ⟨name, rest, hrest, hname⟩ :=
    h.head_child still_grammar hbranches (r := .htmlRawName) (by rw [hp]; decide) (by decide)
  obtain ⟨init, body, hinit, hbody⟩ :=
    h.last_child still_grammar hbranches (r := .htmlRawBody) (by rw [hp]; decide) (by decide)
  cases init with
  | nil =>
      rw [hrest] at hinit
      cases hinit
      rw [hname] at hbody
      cases hbody
  | cons first init =>
      rw [hrest] at hinit
      cases hinit
      have hchildren : p.children = (name :: init) ++ [body] := hrest
      refine ⟨name, init, body, hrest, ?_, hname, hbody⟩
      rw [hchildren, List.getLast?_concat]

/-- A raw tag is its opening, its body and its closing, each where the one before it ends. -/
theorem rawTag_children (h : Grown grammar text p) (hp : p.rule = .liquidRawTag) :
    ∃ opening body closing, p.children = [opening, body, closing] ∧
      (opening.rule = .rawTagOpen ∧ opening.start = p.start) ∧ body.rule = .rawBody ∧
      closing.rule = .rawTagClose ∧ closing.stop = p.stop := by
  cases h with
  | @mk c s t r hkind hleaves hpairs hs h hgrown =>
      subst hp
      have hc : (c.inside (grammar.kind .liquidRawTag)).leavesPair :=
        Context.leavesPair_inside rfl hleaves
      have hblanks : (c.inside (grammar.kind .liquidRawTag)).atomicity ≠ .spaced := by
        change Atomicity.compound ≠ .spaced
        decide
      change Derives grammar _ (.seq (.seq (.call .rawTagOpen) (.call .rawBody)) (.call .rawTagClose)) s t at h
      obtain ⟨v, h, hclosing⟩ := h.seq_meets hblanks
      obtain ⟨u, hopening, hbody⟩ := h.seq_meets hblanks
      obtain ⟨opening, hu, hrule, hstart, _⟩ := hopening.call_pair (by decide) hc
      obtain ⟨body, hv, hrule', _⟩ := hbody.call_pair (by decide) hc
      obtain ⟨closing, ht, hrule'', _, hstop⟩ := hclosing.call_pair (by decide) hc
      rw [hv, hu, hpairs] at ht
      exact ⟨opening, body, closing, by simp [ht], ⟨hrule, hstart⟩, hrule', hrule'', hstop⟩

theorem docContents_children (h : Grown grammar text p) (hp : p.rule = .liquidDocContents) :
    ∀ q ∈ p.children, q.rule.documents := by
  intro q hq
  obtain ⟨hknown, hkind⟩ := h.child_rules closed_documents (by rw [hp]; rfl) (by rw [hp]; decide) q hq
  simp only [Bool.or_eq_true, beq_iff_eq] at hknown
  rcases hknown with (hknown | hknown) | hknown
  · exact hknown
  · exact absurd (by rw [hknown]; rfl) hkind
  · exact absurd (by rw [hknown]; rfl) hkind

end LiquidTemplate
