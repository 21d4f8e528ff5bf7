import LiquidTemplate.Proofs.Peg.Adequacy
import LiquidTemplate.Proofs.Rule.Delimiters
import LiquidTemplate.Proofs.Rule.Document

namespace LiquidTemplate

open Text
open Peg Peg.Expr Rule

namespace Text

theorem stripCaseless?_eq_some_iff {w cs rest : List Char} :
    stripCaseless? w cs = some rest ↔ ∃ w', cs = w' ++ rest ∧ w'.map Char.toLower = w.map Char.toLower := by
  induction w generalizing cs with
  | nil => simp [stripCaseless?]
  | cons x w ih =>
      cases cs with
      | nil => simp [stripCaseless?]
      | cons y cs =>
          rw [stripCaseless?]
          constructor
          · intro h
            split at h
            · rename_i hxy
              obtain ⟨w', rfl, hw'⟩ := ih.mp h
              exact ⟨y :: w', rfl, by rw [List.map_cons, List.map_cons, hw', hxy]⟩
            · cases h
          · rintro ⟨w', heq, hlower⟩
            cases w' with
            | nil => cases hlower
            | cons z w' =>
                obtain ⟨rfl, rfl⟩ := List.cons.inj heq
                obtain ⟨hxy, hlower⟩ := List.cons.inj hlower
                rw [if_pos hxy.symm]
                exact ih.mpr ⟨w', rfl, hlower⟩

end Text

def ElementCloser (name word : List Char) : Prop :=
  ∃ blanks, (∀ x ∈ blanks, x ∈ spaceLetters) ∧ word = ['<', '/'] ++ name ++ blanks ++ ['>']

def HeadsOnly (x : Char) (closer : List Char → Prop) : Prop := ∀ word, closer word → ∃ tail, word = x :: tail ∧ x ∉ tail

theorem headsOnly_elementCloser {name : List Char} (hname : '<' ∉ name) : HeadsOnly '<' (ElementCloser name) := by
  rintro word ⟨blanks, hblanks, rfl⟩
  have hblanks : '<' ∉ blanks := fun hx => absurd (hblanks _ hx) (by decide)
  refine ⟨_, rfl, ?_⟩
  simp [hname, hblanks]

/-- A text, in which there are none of the words, goes on with one of them.  Then none of the words starts in
it, whatever follows. -/
theorem HeadsOnly.not_starts {x : Char} {closer : List Char → Prop} {body closing word u v more : List Char}
    (hx : HeadsOnly x closer) (hbody : ¬word <:+: body) (hclosing : closer closing) (hword : closer word)
    (hsplit : body ++ (closing ++ more) = u ++ (word ++ v)) : body <+: u := by
  obtain ⟨tail, rfl, htail⟩ := hx word hword
  obtain ⟨tail', rfl, _⟩ := hx closing hclosing
  rcases List.append_eq_append_iff.mp hsplit with ⟨w, rfl, _⟩ | ⟨w, rfl, hw⟩
  · exact List.prefix_append body w
  · cases w with
    | nil => simp
    | cons y w =>
        -- the word starts in the text, so it ends there too or goes on over the next one's first letter
        exfalso
        rcases List.append_eq_append_iff.mp hw with ⟨w', heq, _⟩ | ⟨w', heq, hmore⟩
        · exact hbody ⟨u, w', by rw [heq]; simp⟩
        · obtain ⟨rfl, rfl⟩ := List.cons.inj heq
          cases w' with
          | nil => exact hbody ⟨u, [], by simp⟩
          | cons z w' =>
              obtain ⟨rfl, _⟩ := List.cons.inj hmore
              simp at htail

variable {c : Context} {s t : State Rule} {name : List Char} {names : List (List Char)}

theorem gives_elementCloser {word rest : List Char} (hc : c.atomicity ≠ .spaced) (hstack : s.stack = name :: names)
    (hword : ElementCloser name word) (hs : s.rest = word ++ rest) :
    ∃ t, Gives grammar c (lit "</" ++ .top ++ spaces ++ lit ">") s (some t) := by
  obtain ⟨blanks, hblanks, rfl⟩ := hword
  simp only [List.append_assoc] at hs
  have hstart := gives_word_over (g := grammar) (c := c) hs
  have hname := hstart.seq_over hc (gives_top_over hstack rfl)
  have hspaces := hname.seq_over hc (gives_spaces hc hblanks (by simp [spaceLetters]) rfl)
  exact ⟨_, hspaces.seq_over hc (gives_word_over rfl)⟩

/-- A body stops nowhere but at a closer, so there is none in it. -/
theorem takes_unclosed {closer : List Char → Prop} {stop : Expr Rule} {x : Char} (hx : HeadsOnly x closer)
    (hc : c.atomicity ≠ .spaced) (hstack : s.stack = name :: names)
    (hstop : ∀ {s : State Rule} {word rest}, s.stack = name :: names → closer word → s.rest = word ++ rest →
      ∃ t, Gives grammar c.notAhead stop s (some t))
    (h : Derives grammar c (.until0 stop) s t) :
    ∃ body, s.Takes t body [] ∧ t.stack = s.stack ∧ ∀ word, closer word → ¬word <:+: body := by
  have hstops : Stops grammar c stop s.stack (fun rest => ∀ word, closer word → ¬word <+: rest) (fun _ => True) := by
    constructor
    · rintro s r hs hfails word hword ⟨rest, hrest⟩
      obtain ⟨t, ht⟩ := hstop (hs.trans hstack) hword hrest.symm
      cases hfails.gives.unique ht
    · intro s t _ _
      trivial
  obtain ⟨body, hbody, halong, hsame, _⟩ := hstops.until0 [] hc h
  refine ⟨body, hbody, hsame, ?_⟩
  rintro word hword ⟨u, v, rfl⟩
  obtain ⟨tail, rfl, _⟩ := hx word hword
  rw [List.append_assoc] at halong
  exact halong.apply List.not_mem_nil _ hword ⟨v ++ t.rest, by simp⟩

theorem takes_pop {ws : List (List Char)} (hstack : s.stack = name :: ws) (h : Derives grammar c .pop s t) :
    s.Takes t name [] ∧ t.stack = ws := by
  cases h with
  | pop hs hrest =>
      cases hstack.symm.trans hs
      exact ⟨⟨stripWord?_eq_some hrest, rfl, rfl⟩, rfl⟩

variable {text : List Char} {p : Pair Rule}

def rawNames : List (List Char) := ["script".toList, "style".toList, "svg".toList]

/-- The name of a raw element is one of a few, in letters of either case, and is remembered as it is written. -/
theorem takes_htmlRawName (hc : c.leavesPair) (h : Derives grammar c (push (call htmlRawName)) s t) :
    ∃ name, s.Takes t name.text [name] ∧ name.start = s.offset ∧ t.stack = name.text :: s.stack ∧
      name.text.map Char.toLower ∈ rawNames := by
  cases h with
  | @push _ _ u _ h =>
      obtain ⟨name, hname, _, hstart, _⟩ := h.takes_call (by decide) hc
      have hstack : u.stack = s.stack := stack_eq rfl h
      refine ⟨name, ⟨hname.rest_eq, hname.offset_eq, hname.pairs_eq⟩, hstart, ?_, ?_⟩
      · rw [hname.consumed_eq, hstack]
      · obtain ⟨s', t', h, hs', ht'⟩ := h.call_body
        obtain ⟨v, hbody, hahead⟩ := h.seq_meets Atomicity.noConfusion
        cases hahead with
        | notAhead =>
            have hword : ∀ {c s} {t : State Rule} {w : List Char}, Derives grammar c (.caseless w) s t →
                s.rest = s'.rest → t.rest = v.rest → name.text.map Char.toLower = w.map Char.toLower := by
              intro c s t w h hs ht
              cases h with
              | caseless h =>
                  obtain ⟨w', hw', hlower⟩ := stripCaseless?_eq_some_iff.mp h
                  rw [hname.word_of (hs'.symm.trans (hs.symm.trans hw')) (ht'.symm.trans ht.symm), hlower]
            cases hbody with
            | first h =>
                cases h with
                | first h => exact hword h rfl rfl ▸ by decide
                | second _ h => exact hword h rfl rfl ▸ by decide
            | second _ h => exact hword h rfl rfl ▸ by decide

theorem not_mem_rawName {x : Char} {w : List Char} (hw : w.map Char.toLower ∈ rawNames)
    (hx : ∀ n ∈ rawNames, x.toLower ∉ n) : x ∉ w := by
  intro hmem
  exact hx _ hw (List.mem_map_of_mem hmem)

structure ElementRun (c : Context) (name body : Pair Rule) (attributes : List (Pair Rule))
    (attributeText closing : List Char) (s u v t : State Rule) : Prop where
  name_takes : s.Takes u (['<'] ++ name.text) [name]
  name_start : name.start = s.offset + 1
  name_letters : name.text.map Char.toLower ∈ rawNames
  stack_eq : u.stack = name.text :: s.stack
  attributes_derive : Derives grammar c (call attrList ++ spaces ++ lit ">") u v
  attributes_takes : u.Takes v (attributeText ++ ['>']) attributes
  body_takes : v.Takes t (body.text ++ closing) [body]
  body_start : body.start = v.offset
  closed : ElementCloser name.text closing
  unclosed : ∀ word, ElementCloser name.text word → ¬word <:+: body.text

theorem elementRun_of_derives (hc : c.leavesPair) (hc' : c.atomicity ≠ .spaced)
    (h : Derives grammar c (grammar.body htmlRawTag) s t) :
    ∃ name body attributes attributeText closing u v,
      ElementRun c name body attributes attributeText closing s u v t := by
  obtain ⟨s₉, h, hstop'⟩ := h.seq_meets hc'
  obtain ⟨s₈, h, hblanks⟩ := h.seq_meets hc'
  obtain ⟨s₇, h, hpop⟩ := h.seq_meets hc'
  obtain ⟨s₆, h, hslash⟩ := h.seq_meets hc'
  obtain ⟨s₅, h, hbody⟩ := h.seq_meets hc'
  obtain ⟨s₄, h, hend⟩ := h.seq_meets hc'
  obtain ⟨s₃, h, hspaces⟩ := h.seq_meets hc'
  obtain ⟨s₂, h, hattributes⟩ := h.seq_meets hc'
  obtain ⟨s₁, hless, hname⟩ := h.seq_meets hc'
  have hopening := (hattributes.seq_of_meets hc' hspaces).seq_of_meets hc' hend
  obtain ⟨name, hname, hstart, hstack, hletters⟩ := takes_htmlRawName hc hname
  have hkeep : s₅.stack = name.text :: s.stack := by
    rw [stack_eq rfl hopening, hstack, stack_eq rfl hless]
  obtain ⟨u, h, hbody, hoffset, hstack'⟩ := hbody.call_inner (by decide) hc
  have hatomic : (c.inside (grammar.kind htmlRawBody)).atomicity ≠ .spaced := Atomicity.noConfusion
  have hheads := headsOnly_elementCloser (not_mem_rawName (x := '<') hletters (by decide))
  obtain ⟨v, hv, hsame, hunclosed⟩ := takes_unclosed hheads hatomic (s := { s₅ with pairs := [] }) hkeep
    (fun hs hword => gives_elementCloser (by rwa [Context.atomicity_notAhead]) hs hword) h
  have hstack₇ : s₇.stack = name.text :: s.stack := by
    rw [stack_eq rfl hslash, ← hstack', hsame, hkeep]
  obtain ⟨hpop, _⟩ := takes_pop hstack₇ hpop
  obtain ⟨blanks, hblanks, hblanks'⟩ := takes_spaces hc' hblanks
  obtain ⟨attributeText, attributes, hattributes, _⟩ := hattributes.takes
  obtain ⟨spaceText, hspaces, _⟩ := takes_spaces hc' hspaces
  have hclosing := ((hslash.takes_word.trans hpop).trans hblanks).trans hstop'.takes_word
  obtain ⟨body, hbody, hstart', rfl⟩ :
      ∃ body : Pair Rule, s₅.Takes s₆ body.text [body] ∧ body.start = s₅.offset ∧ body.text = v :=
    ⟨⟨htmlRawBody, s₅.offset, u.offset, s₅.consumed u, u.pairs.reverse⟩, hbody, rfl, hv.consumed_eq⟩
  refine ⟨name, body, attributes, attributeText ++ spaceText, ['<', '/'] ++ name.text ++ blanks ++ ['>'], s₂, s₅, ?_⟩
  constructor
  case name_takes => exact hless.takes_word.trans hname
  case name_start => exact hstart.trans hless.takes_word.offset_eq
  case name_letters => exact hletters
  case stack_eq => rw [hstack, stack_eq rfl hless]
  case attributes_derive => exact hopening
  case attributes_takes => simpa using (hattributes.trans hspaces).trans hend.takes_word
  case body_takes => simpa using hbody.trans hclosing
  case body_start => exact hstart'
  case closed => exact ⟨blanks, hblanks', rfl⟩
  case unclosed => exact hunclosed

end LiquidTemplate
