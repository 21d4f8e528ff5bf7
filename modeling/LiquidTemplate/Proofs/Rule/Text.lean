import LiquidTemplate.Proofs.Peg.Parts
import LiquidTemplate.Proofs.Peg.Words
import LiquidTemplate.Proofs.Rule.Tag

namespace LiquidTemplate

open Text
open Peg Peg.Expr Rule

/-- Whether what follows may be an element, a comment or the end of an element. -/
def startsElement : List Char → Bool
  | '<' :: rest =>
    rest.head?.any (fun x => x.isAlpha || x == '/' || x == '!') || ['{', '{'].isPrefixOf rest
  | _ => false

/-- Whether a run of text has to end before what follows: an output, a tag or, in HTML, an element. -/
def stopsText (html : Bool) (rest : List Char) : Bool :=
  ['{', '{'].isPrefixOf rest || ['{', '%'].isPrefixOf rest || html && startsElement rest

theorem letters_space : (grammar.body space).letters = some spaceLetters := rfl

theorem stopsText_blank {html : Bool} {x : Char} (hx : x ∈ spaceLetters) (rest : List Char) :
    stopsText html (x :: rest) = false := by
  have hcases : x = ' ' ∨ x = '\t' ∨ x = '\n' ∨ x = '\r' ∨ x = '\x0c' := by simpa [spaceLetters] using hx
  rcases hcases with rfl | rfl | rfl | rfl | rfl <;> cases html <;> rfl

/-- A run of text in front of what follows it: it has no blanks at its ends, a stop starts nowhere in it, not
even together with what follows, and after blanks comes the end of the text or a stop. -/
structure Maximal (html : Bool) (value follow : List Char) : Prop where
  ne_nil : value ≠ []
  trimmed : Trimmed spaceLetters value
  unstopped : ∀ before after, value = before ++ after → after ≠ [] → stopsText html (after ++ follow) = false
  ends : Ends spaceLetters (stopsText html ·) follow

/-- After a run of text and blanks there is no second one. -/
theorem Maximal.not_followed {html : Bool} {value follow gap value' follow' : List Char}
    (h : Maximal html value follow) (hfollow : follow = gap ++ (value' ++ follow'))
    (hgap : ∀ x ∈ gap, x ∈ spaceLetters) : ¬Maximal html value' follow' := by
  intro h'
  obtain ⟨blanks, more, heq, hblanks, hmore, hend⟩ := h.ends
  obtain ⟨y, value', rfl⟩ := List.exists_cons_of_ne_nil h'.ne_nil
  have hy : y ∉ spaceLetters := h'.trimmed.head y rfl
  -- both are what is left after the blanks
  have hdrop := congrArg (List.dropWhile (spaceLetters.contains ·)) (heq.symm.trans hfollow)
  rw [dropWhile_run hblanks hmore, dropWhile_run hgap (by rintro x ⟨⟩; exact hy)] at hdrop
  have hunstopped := h'.unstopped [] (y :: value') rfl (by simp)
  rw [← hdrop] at hunstopped
  rcases hend with rfl | hstop
  · cases hdrop
  · rw [hunstopped] at hstop
    cases hstop

variable {c : Context} {s t : State Rule} {r : Attempts Rule} {html : Bool}

def afterAngle : Expr Rule := alpha ||| lit "/" ||| lit "!" ||| outputStart

theorem not_startsElement (hc : c.atomicity ≠ .spaced) (h : Fails grammar c (lit "<" ++ afterAngle) s r) :
    startsElement s.rest = false := by
  unfold startsElement
  split
  · rename_i rest hrest
    rcases h.seq with h | ⟨t, hangle, h⟩
    · exact absurd hrest (h.not_word rest)
    · rw [State.skip_of_ne_spaced _ _ hc] at h
      have ht : t.rest = rest := hangle.takes_word.rest_of hrest
      obtain ⟨r', hone, houtput⟩ := h.alt
      rw [Bool.or_eq_false_iff]
      constructor
      · cases rest with
        | nil => rfl
        | cons x rest => exact hone.not_test rfl ht
      · rw [Bool.eq_false_iff]
        intro hstarts
        obtain ⟨more, rfl⟩ := List.isPrefixOf_iff_prefix.mp hstarts
        exact houtput.not_word more ht
  · rfl

theorem not_prefix_of_fails {w : List Char} (h : Fails grammar c (.word w) s r) : w.isPrefixOf s.rest = false := by
  rw [Bool.eq_false_iff]
  intro hstarts
  obtain ⟨more, hrest⟩ := List.isPrefixOf_iff_prefix.mp hstarts
  exact h.not_word more hrest.symm

theorem isPrefixOf_of_derives {w : List Char} (h : Derives grammar c (.word w) s t) : w.isPrefixOf s.rest := by
  rw [List.isPrefixOf_iff_prefix, h.takes_word.rest_eq]
  exact List.prefix_append _ _

theorem startsElement_of_derives (hc : c.atomicity ≠ .spaced) (h : Derives grammar c (lit "<" ++ afterAngle) s t) :
    startsElement s.rest := by
  obtain ⟨u, hangle, h⟩ := h.seq_meets hc
  rw [hangle.takes_word.rest_eq]
  change (_ || _) = true
  rw [Bool.or_eq_true]
  cases h with
  | first h =>
      obtain ⟨x, hx, htest⟩ := h.takes_test rfl
      rw [hx.rest_eq]
      exact .inl htest
  | second _ h =>
      have hstarts := isPrefixOf_of_derives h
      exact .inr hstarts

def textRules : Bool → Rule × Rule × Rule
  | true => (textNode, textWord, htmlTextStop)
  | false => (liquidTextNode, liquidWord, liquidTextStop)

theorem not_stopsText (hc : c.atomicity ≠ .spaced) (h : Fails grammar c (call (textRules html).2.2) s r) :
    stopsText html s.rest = false := by
  cases html with
  | true =>
      obtain ⟨_, h, _⟩ := (h.silent rfl).alt
      obtain ⟨_, h, helement⟩ := h.alt
      obtain ⟨_, houtput, htag⟩ := h.alt
      have houtput := not_prefix_of_fails houtput
      have htag := not_prefix_of_fails htag
      have helement := not_startsElement hc helement
      simp only [stopsText, houtput, htag, helement, Bool.or_false, Bool.and_false]
  | false =>
      obtain ⟨_, h, _⟩ := (h.silent rfl).alt
      obtain ⟨_, houtput, htag⟩ := h.alt
      have houtput := not_prefix_of_fails houtput
      have htag := not_prefix_of_fails htag
      simp only [stopsText, houtput, htag, Bool.or_false, Bool.false_and]

theorem stopsText_output (h : Derives grammar c outputStart s t) : stopsText html s.rest := by
  have h := isPrefixOf_of_derives h
  simp only [stopsText, h, Bool.true_or]

theorem stopsText_tag (h : Derives grammar c tagStart s t) : stopsText html s.rest := by
  have h := isPrefixOf_of_derives h
  simp only [stopsText, h, Bool.or_true, Bool.true_or]

theorem stopsText_element (hc : c.atomicity ≠ .spaced) (h : Derives grammar c (lit "<" ++ afterAngle) s t) :
    stopsText true s.rest := by
  have h := startsElement_of_derives hc h
  simp only [stopsText, h, Bool.and_true, Bool.or_true]

theorem stopsText_of_derives (hc : c.atomicity ≠ .spaced) (h : Derives grammar c (call (textRules html).2.2) s t) :
    s.rest = [] ∨ stopsText html s.rest := by
  cases html with
  | true =>
      cases h with
      | silent _ h =>
          cases h with
          | first h =>
              right
              cases h with
              | first h =>
                  cases h with
                  | first h => exact stopsText_output h
                  | second _ h =>
                      have hstop : stopsText true _ := stopsText_tag h
                      exact hstop
              | second _ h =>
                  have hstop := stopsText_element hc h
                  exact hstop
          | second _ h => exact .inl (h.rest_call_finish rfl).1
      | pair hkind | hidden hkind => exact absurd rfl hkind
  | false =>
      cases h with
      | silent _ h =>
          cases h with
          | first h =>
              right
              cases h with
              | first h => exact stopsText_output h
              | second _ h =>
                  have hstop : stopsText false _ := stopsText_tag h
                  exact hstop
          | second _ h => exact .inl (h.rest_call_finish rfl).1
      | pair hkind | hidden hkind => exact absurd rfl hkind

def wordStop (html : Bool) : Expr Rule := call space ||| call (textRules html).2.2

theorem stops_wordStop (hc : c.atomicity ≠ .spaced) (stack : List (List Char)) :
    Stops grammar c (wordStop html) stack (stopsText html · = false)
      (fun rest => rest = [] ∨ (∃ x ∈ rest.head?, x ∈ spaceLetters) ∨ stopsText html rest) := by
  have hc' : c.notAhead.atomicity ≠ .spaced := by rwa [c.atomicity_notAhead]
  constructor
  · intro s r _ h
    obtain ⟨_, _, h⟩ := h.alt
    have hstop := not_stopsText hc' h
    exact hstop
  · intro s t _ h
    cases h with
    | first h =>
        cases h with
        | silent _ h =>
            obtain ⟨x, hx, htakes⟩ := h.takes_letter letters_space
            exact .inr (.inl ⟨x, by rw [htakes.rest_eq]; rfl, hx⟩)
        | pair hkind | hidden hkind => exact absurd rfl hkind
    | second _ h =>
        have hstop := stopsText_of_derives hc' h
        rcases hstop with hend | hstop
        · exact .inl hend
        · exact .inr (.inr hstop)

theorem takes_text (hc : c.atomicity ≠ .spaced) (h : Derives grammar c (words space (textRules html).2.1) s t) :
    ∃ v, s.Takes t v [] ∧ Maximal html v t.rest := by
  have hword : grammar.kind (textRules html).2.1 = .silent ∧
      grammar.body (textRules html).2.1 = .until1 (wordStop html) := by
    cases html <;> exact ⟨rfl, rfl⟩
  have hblank : ∀ {c s r x rest}, Fails grammar c (wordStop html) s r → s.rest = x :: rest →
      x ∉ spaceLetters := by
    intro c s r x rest h hrest
    obtain ⟨_, h, _⟩ := h.alt
    exact (h.silent rfl).not_letter letters_space hrest
  obtain ⟨v, hv, hne, halong, b, more, hrest, hb, hmore, hend⟩ :=
    h.along_words hc rfl letters_space hword.1 hword.2 (stops_wordStop hc)
  obtain ⟨v', hv', htrimmed⟩ := h.takes_words hc rfl letters_space hword.1 hword.2 hblank
  obtain ⟨rfl, _⟩ := hv.unique hv'
  refine ⟨v, hv, hne, htrimmed, ?_, b, more, hrest, hb, hmore, ?_⟩
  · rintro before after rfl hafter
    obtain ⟨x, after, rfl⟩ := List.exists_cons_of_ne_nil hafter
    by_cases hx : x ∈ spaceLetters
    · exact stopsText_blank hx _
    · exact halong.apply hx
  · rcases hend with hnil | hnil | ⟨x, hx, hspace⟩ | hstop
    · exact .inl hnil
    · exact .inl hnil
    · exact absurd hspace (hmore x hx)
    · exact .inr hstop

variable {text : List Char} {p : Pair Rule}

/-- A text in a document is as long as it can be. -/
theorem maximal_text (h : Grown grammar text p) (hp : p.rule = (textRules html).1) :
    ∃ before follow, text = before ++ (p.text ++ follow) ∧ byteLength before = p.start ∧
      Maximal html p.text follow := by
  cases h with
  | @mk c s t rule _ _ _ hs h _ =>
      have hrule : grammar.kind rule = .atomic ∧ grammar.body rule = words space (textRules html).2.1 := by
        cases hp
        cases html <;> exact ⟨rfl, rfl⟩
      rw [hrule.1, hrule.2] at h
      obtain ⟨v, hv, hmaximal⟩ := takes_text Atomicity.noConfusion h
      obtain ⟨before, htext, hoffset⟩ := hs
      simp only [hv.consumed_eq]
      refine ⟨before, t.rest, ?_, hoffset, hmaximal⟩
      rw [htext, hv.rest_eq]

end LiquidTemplate
