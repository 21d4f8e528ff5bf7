import LiquidTemplate.Proofs.Peg.Greedy
import LiquidTemplate.Proofs.Rule.Totality
import LiquidTemplate.Proofs.Token.Parts

namespace LiquidTemplate

open Text
open Peg Peg.Expr Rule

def spaceLetters : List Char := [' ', '\t', '\n', '\r', '\x0c']

def inlineLetters : List Char := [' ', '\t']

def dash (b : Bool) : List Char := if b then ['-'] else []

/-- How a tag is written: `TagText trim name lead markup trail` if the tag with the name and the
markup has the text `lead` before its markup and `trail` after it. -/
inductive TagText : Trim → List Char → List Char → List Char → List Char → Prop
  | tag (trim : Trim) (name before between : List Char) {markup : List Char} (after : List Char) :
      (∀ x ∈ before ++ between ++ after, x ∈ spaceLetters) → Trimmed spaceLetters markup →
      TagText trim name (['{', '%'] ++ dash trim.before ++ before ++ name ++ between) markup
        (after ++ dash trim.after ++ ['%', '}'])
  | statement (name between : List Char) {markup : List Char} :
      (∀ x ∈ between, x ∈ inlineLetters) → Trimmed inlineLetters markup →
      TagText {} name (name ++ between) markup []

theorem TagText.lead_ne_nil {trim : Trim} {name lead markup trail : List Char}
    (h : TagText trim name lead markup trail) (hname : name ≠ []) : lead ≠ [] := by
  cases h with
  | tag => simp
  | statement => simp [hname]

def tagAround (name : Expr Rule) : Expr Rule :=
  tagStart ++ opt (call stripStart) ++ spaces ++ name ++ opt (spaces ++ call tagMarkup) ++ spaces
    ++ opt (call stripEnd) ++ tagStop

def tagBody (name : Rule) : Expr Rule := tagAround (call name)

def statementBody (name : Rule) : Expr Rule :=
  call name ++ opt (inlineSpaces ++ call statementMarkup)

variable {c : Context} {s t : State Rule}

theorem takes_spaces (hc : c.atomicity ≠ .spaced) (h : Derives grammar c spaces s t) :
    ∃ v, s.Takes t v [] ∧ ∀ x ∈ v, x ∈ spaceLetters :=
  h.takes_blanks hc rfl (by decide)

theorem takes_inlineSpaces (hc : c.atomicity ≠ .spaced) (h : Derives grammar c inlineSpaces s t) :
    ∃ v, s.Takes t v [] ∧ ∀ x ∈ v, x ∈ inlineLetters :=
  h.takes_blanks hc rfl (by decide)

theorem takes_strip {r : Rule} (hkind : grammar.kind r ≠ .silent) (hbody : grammar.body r = lit "-")
    (hc : c.leavesPair) (h : Derives grammar c (.opt (.call r)) s t) :
    ∃ b ps, s.Takes t (dash b) ps ∧ ps.map Pair.rule = if b then [r] else [] := by
  rcases h.takes_opt with h | h
  · obtain ⟨p, htakes, hrule, _, _, s', t', h, htext⟩ := h.takes_call hkind hc
    rw [hbody] at h
    rw [← htext, h.takes_word.consumed_eq] at htakes
    exact ⟨true, [p], htakes, by simp [hrule]⟩
  · exact ⟨false, [], h, rfl⟩

theorem not_dash_of_strip {r : Rule} (hbody : grammar.body r = lit "-") (h : Derives grammar c (.opt (.call r)) s t)
    (hrest : t.rest = s.rest) (more : List Char) : s.rest ≠ '-' :: more := by
  cases h with
  | present h =>
      obtain ⟨s', t', h, hs', ht'⟩ := h.call_body
      rw [hbody] at h
      have heq := h.takes_word.rest_eq
      rw [hs', ht', hrest] at heq
      exact absurd heq (List.cons_ne_self _ _).symm
  | absent h =>
      obtain ⟨s', r', h, hs'⟩ := h.call
      rw [hbody] at h
      intro hs
      exact h.not_word more (hs'.trans hs)

/-- The delimiter that opens a tag or an output, with its dash and the blanks after it.  Where no dash is taken,
there is none. -/
theorem takes_lead (start : List Char) (hc : c.leavesPair) (hc' : c.atomicity ≠ .spaced)
    (h : Derives grammar c (.word start ++ opt (call stripStart) ++ spaces) s t) :
    ∃ b before ps, s.Takes t (start ++ dash b ++ before) ps ∧ ps.map Pair.rule = (if b then [stripStart] else []) ∧
      (∀ x ∈ before, x ∈ spaceLetters) ∧ (b = false → ∀ more, s.rest ≠ start ++ '-' :: more) := by
  obtain ⟨v, h, hspaces⟩ := h.seq_meets hc'
  obtain ⟨u, hstart, hstrip⟩ := h.seq_meets hc'
  have hundashed := not_dash_of_strip rfl hstrip
  obtain ⟨b, ps, hstrip, hps⟩ := takes_strip (by decide) rfl hc hstrip
  obtain ⟨before, hspaces, hbefore⟩ := takes_spaces hc' hspaces
  refine ⟨b, before, ps, by simpa using (hstart.takes_word.trans hstrip).trans hspaces, hps, hbefore, ?_⟩
  rintro rfl more hs
  rw [hstart.takes_word.rest_eq] at hs
  exact hundashed hstrip.rest_eq.symm more (List.append_cancel_left hs)

/-- The delimiter that closes a tag or an output, with its dash and the blanks before it. -/
theorem takes_trail (stop : List Char) {u v : State Rule} (hc : c.leavesPair) (hc' : c.atomicity ≠ .spaced)
    (hspaces : Derives grammar c spaces s u) (hstrip : Derives grammar c (opt (call stripEnd)) u v)
    (hstop : Derives grammar c (.word stop) v t) :
    ∃ b after ps, s.Takes t (after ++ dash b ++ stop) ps ∧ ps.map Pair.rule = (if b then [stripEnd] else []) ∧
      ∀ x ∈ after, x ∈ spaceLetters := by
  obtain ⟨after, hspaces, hafter⟩ := takes_spaces hc' hspaces
  obtain ⟨b, ps, hstrip, hps⟩ := takes_strip (by decide) rfl hc hstrip
  exact ⟨b, after, ps, by simpa using (hspaces.trans hstrip).trans hstop.takes_word, hps, hafter⟩

theorem takes_tagMarkup (hc : c.atomicity ≠ .spaced) (h : Derives grammar c (grammar.body tagMarkup) s t) :
    ∃ v, s.Takes t v [] ∧ Trimmed spaceLetters v := by
  refine h.takes_words hc rfl rfl rfl rfl ?_
  intro c s r x rest h hrest
  obtain ⟨_, h, _⟩ := h.alt
  obtain ⟨_, h, _⟩ := h.alt
  exact (h.silent rfl).not_letter (by decide) hrest

theorem takes_statementMarkup (hc : c.atomicity ≠ .spaced)
    (h : Derives grammar c (grammar.body statementMarkup) s t) :
    ∃ v, s.Takes t v [] ∧ Trimmed inlineLetters v := by
  refine h.takes_words hc rfl rfl rfl rfl ?_
  intro c s r x rest h hrest
  obtain ⟨_, h, _⟩ := h.alt
  exact (h.silent rfl).not_letter (by decide) hrest

def MarkupPairs (r : Rule) (start : Nat) (between markup : List Char) (ps : List (Pair Rule)) : Prop :=
  (∃ m, ps = [m] ∧ m.rule = r ∧ m.text = markup ∧ m.start = start + byteLength between) ∨
    (ps = [] ∧ between = [] ∧ markup = [])

/-- Markup after blanks leaves its pair; if there is none, the blanks are left alone too. -/
theorem takes_markup {r blank : Rule} {xs : List Char} (hkind : grammar.kind r = .atomic)
    (hblanks : ∀ {s t}, Derives grammar c (.many (.call blank)) s t →
      ∃ v, s.Takes t v [] ∧ ∀ x ∈ v, x ∈ xs)
    (hmarkup : ∀ {s t}, Derives grammar (c.inside .atomic) (grammar.body r) s t →
      ∃ v, s.Takes t v [] ∧ Trimmed xs v)
    (hc : c.leavesPair) (hc' : c.atomicity ≠ .spaced)
    (h : Derives grammar c (.opt (.seq (.many (.call blank)) (.call r))) s t) :
    ∃ between markup ps, s.Takes t (between ++ markup) ps ∧ (∀ x ∈ between, x ∈ xs) ∧
      Trimmed xs markup ∧ MarkupPairs r s.offset between markup ps := by
  rcases h.takes_opt with h | h
  · obtain ⟨u, hbefore, h⟩ := h.seq_meets hc'
    obtain ⟨between, htakes, hbetween⟩ := hblanks hbefore
    obtain ⟨m, htakes', hrule, hstart, _, s', t', h, htext⟩ :=
      h.takes_call (by rw [hkind]; decide) hc
    rw [hkind] at h
    obtain ⟨v, hv, htrimmed⟩ := hmarkup h
    rw [hv.consumed_eq] at htext
    subst htext
    exact ⟨between, m.text, [m], htakes.trans htakes', hbetween, htrimmed,
      .inl ⟨m, rfl, hrule, rfl, by rw [hstart, htakes.offset_eq]⟩⟩
  · exact ⟨[], [], [], h, by simp, trimmed_nil xs, .inr ⟨rfl, rfl, rfl⟩⟩

theorem solid_of_isTagNameRule (r : Rule) : Token.isTagNameRule r → r.solid := by
  cases r <;> decide

theorem not_isTagMarkupRule (r : Rule) : Token.isTagNameRule r → Token.isTagMarkupRule r = false := by
  cases r <;> decide

theorem not_silent_of_isTagNameRule (r : Rule) : Token.isTagNameRule r → grammar.kind r ≠ .silent := by
  cases r <;> decide

theorem not_strip_of_isTagNameRule (r : Rule) :
    Token.isTagNameRule r → r ≠ .stripStart ∧ r ≠ .stripEnd := by
  cases r <;> decide

theorem not_strip_of_isTagMarkupRule (r : Rule) :
    Token.isTagMarkupRule r → r ≠ .stripStart ∧ r ≠ .stripEnd := by
  cases r <;> decide

theorem trimOfPairs_eq (ps : List (Pair Rule)) :
    Token.trimOfPairs ps =
      ⟨(ps.map Pair.rule).any (· == .stripStart), (ps.map Pair.rule).any (· == .stripEnd)⟩ := by
  rw [List.any_map, List.any_map]
  rfl

theorem find?_strip {ps : List (Pair Rule)} {b : Bool} {r : Rule}
    (h : ps.map Pair.rule = if b then [r] else []) {f : Rule → Bool} (hr : f r = false) :
    ps.find? (f ·.rule) = none := by
  rw [List.find?_eq_none]
  intro q hq
  have hq' : q.rule ∈ ps.map Pair.rule := List.mem_map_of_mem hq
  rw [h] at hq'
  cases b with
  | false => cases hq'
  | true =>
      rw [List.mem_singleton.mp hq', hr]
      exact Bool.false_ne_true

structure TagParts (p name : Pair Rule) (lead markup trail : List Char) : Prop where
  name_eq : p.children.find? (Token.isTagNameRule ·.rule) = some name
  text_eq : p.text = lead ++ (markup ++ trail)
  written : TagText (Token.trimOfPairs p.children) name.text lead markup trail
  markup_eq : (∃ m, p.children.find? (Token.isTagMarkupRule ·.rule) = some m ∧ m.text = markup ∧
      m.start = p.start + byteLength lead) ∨
    (p.children.find? (Token.isTagMarkupRule ·.rule) = none ∧ markup = [] ∧
      name.stop = p.start + byteLength lead)

/-- The dashes at the ends of a construct are its first pair and its last one. -/
theorem trimOfPairs_around {b₁ b₂ : Bool} {ps₁ ps ps₂ : List (Pair Rule)}
    (hps₁ : ps₁.map Pair.rule = if b₁ then [stripStart] else [])
    (hps : ∀ q ∈ ps, q.rule ≠ .stripStart ∧ q.rule ≠ .stripEnd)
    (hps₂ : ps₂.map Pair.rule = if b₂ then [stripEnd] else []) :
    Token.trimOfPairs (ps₁ ++ (ps ++ ps₂)) = ⟨b₁, b₂⟩ := by
  have hstart : (ps.map Pair.rule).any (· == .stripStart) = false := by
    simpa using fun q hq => (hps q hq).1
  have hend : (ps.map Pair.rule).any (· == .stripEnd) = false := by
    simpa using fun q hq => (hps q hq).2
  simp only [trimOfPairs_eq, List.map_append, List.any_append, hps₁, hps₂, hstart, hend]
  cases b₁ <;> cases b₂ <;> rfl

theorem MarkupPairs.not_strip {m : Rule} {start : Nat} {between markup : List Char} {ps : List (Pair Rule)}
    (h : MarkupPairs m start between markup ps) (hm : Token.isTagMarkupRule m) :
    ∀ q ∈ ps, q.rule ≠ .stripStart ∧ q.rule ≠ .stripEnd := by
  intro q hq
  rcases h with ⟨q, rfl, rfl, _⟩ | ⟨rfl, _⟩
  · rw [List.mem_singleton.mp hq]
    exact not_strip_of_isTagMarkupRule _ hm
  · cases hq

/-- A tag has the parts that it takes: what comes first up to its name, the markup and the rest. -/
theorem tagParts_of_takes {u v : State Rule} {rule r m : Rule} {name : Pair Rule}
    {b₁ b₂ : Bool} {ps₁ ps ps₂ : List (Pair Rule)} {lead between markup trail : List Char}
    (hr : Token.isTagNameRule r) (hm : Token.isTagMarkupRule m) (hpairs : s.pairs = [])
    (hname : name.rule = r ∧ name.stop = u.offset) (hlead : s.Takes u lead (ps₁ ++ [name]))
    (hps₁ : ps₁.map Pair.rule = if b₁ then [stripStart] else [])
    (hmarkup : u.Takes v (between ++ markup) ps) (hps : MarkupPairs m u.offset between markup ps)
    (htrail : v.Takes t trail ps₂) (hps₂ : ps₂.map Pair.rule = if b₂ then [stripEnd] else [])
    (hwritten : TagText ⟨b₁, b₂⟩ name.text (lead ++ between) markup trail) :
    TagParts ⟨rule, s.offset, t.offset, s.consumed t, t.pairs.reverse⟩ name (lead ++ between) markup
      trail := by
  obtain ⟨rfl, hstop⟩ := hname
  have hall := (hlead.trans hmarkup).trans htrail
  have hchildren : t.pairs.reverse = ps₁ ++ name :: (ps ++ ps₂) := by
    rw [hall.pairs_eq, hpairs]
    simp
  have hname₁ : ps₁.find? (Token.isTagNameRule ·.rule) = none := find?_strip hps₁ rfl
  have hmarkup₁ : ps₁.find? (Token.isTagMarkupRule ·.rule) = none := find?_strip hps₁ rfl
  have hmarkup₂ : ps₂.find? (Token.isTagMarkupRule ·.rule) = none := find?_strip hps₂ rfl
  have hfind : t.pairs.reverse.find? (Token.isTagMarkupRule ·.rule) =
      ps.find? (Token.isTagMarkupRule ·.rule) := by
    rw [hchildren, List.find?_append, hmarkup₁, Option.none_or,
      List.find?_cons_of_neg (by simp [not_isTagMarkupRule _ hr]), List.find?_append, hmarkup₂, Option.or_none]
  have htrim : Token.trimOfPairs t.pairs.reverse = ⟨b₁, b₂⟩ := by
    have hparts : ∀ q ∈ name :: ps, q.rule ≠ .stripStart ∧ q.rule ≠ .stripEnd :=
      List.forall_mem_cons.mpr ⟨not_strip_of_isTagNameRule name.rule hr, hps.not_strip hm⟩
    rw [hchildren]
    exact trimOfPairs_around hps₁ hparts hps₂
  constructor
  · rw [hchildren, List.find?_append, hname₁, Option.none_or, List.find?_cons_of_pos (by exact hr)]
  · rw [hall.consumed_eq]
    simp
  · rwa [htrim]
  · rcases hps with ⟨q, rfl, rfl, rfl, hstart⟩ | ⟨rfl, rfl, rfl⟩
    · refine .inl ⟨q, ?_, rfl, ?_⟩
      · rw [hfind, List.find?_cons_of_pos (by exact hm)]
      · rw [hstart, hlead.offset_eq, byteLength_append, Nat.add_assoc]
    · refine .inr ⟨hfind, rfl, ?_⟩
      rw [hstop, hlead.offset_eq, List.append_nil]

variable {text : List Char} {p : Pair Rule} {r : Rule}

/-- How a tag is matched, with its name from `u` to `v` and its markup from there to `w`.  Apart from its
name it leaves the remembered names alone. -/
structure TagRun (c : Context) (e : Expr Rule) (trim : Trim) (name : Pair Rule)
    (before between markup after : List Char) (s u v w t : State Rule) : Prop where
  undashed : trim.before = false → ∀ more, s.rest ≠ ['{', '%'] ++ '-' :: more
  lead : ∃ ps, s.Takes u (['{', '%'] ++ dash trim.before ++ before) ps
  name_derives : Derives grammar c e u v
  name_takes : u.Takes v name.text [name]
  markup_derives : Derives grammar c (opt (spaces ++ call tagMarkup)) v w
  markup_takes : ∃ ps, v.Takes w (between ++ markup) ps
  trail : ∃ ps, w.Takes t (after ++ dash trim.after ++ ['%', '}']) ps
  stack_before : u.stack = s.stack
  stack_after : t.stack = v.stack
  blanks : ∀ x ∈ before ++ between ++ after, x ∈ spaceLetters
  trimmed : Trimmed spaceLetters markup

theorem tag_written {e : Expr Rule} (hc : c.leavesPair) (hc' : c.atomicity ≠ .spaced) (hr : Token.isTagNameRule r)
    (hname : ∀ {s t}, Derives grammar c e s t →
      ∃ name, s.Takes t name.text [name] ∧ name.rule = r ∧ name.stop = t.offset)
    (rule : Rule) (hpairs : s.pairs = []) (h : Derives grammar c (tagAround e) s t) :
    ∃ u v w name before between markup after,
      TagRun c e (Token.trimOfPairs t.pairs.reverse) name before between markup after s u v w t ∧
      TagParts ⟨rule, s.offset, t.offset, s.consumed t, t.pairs.reverse⟩ name
        (['{', '%'] ++ dash (Token.trimOfPairs t.pairs.reverse).before ++ before ++ name.text ++ between) markup
        (after ++ dash (Token.trimOfPairs t.pairs.reverse).after ++ ['%', '}']) := by
  have hatomic : (c.inside .atomic).atomicity ≠ .spaced := Atomicity.noConfusion
  obtain ⟨s₇, h, hstop⟩ := h.seq_meets hc'
  obtain ⟨s₆, h, hstripEnd⟩ := h.seq_meets hc'
  obtain ⟨s₅, h, hafter⟩ := h.seq_meets hc'
  obtain ⟨s₄, h, hmarkup⟩ := h.seq_meets hc'
  obtain ⟨s₃, hbegin, hderives⟩ := h.seq_meets hc'
  have hstack := stack_eq rfl hbegin
  have hstack' : t.stack = s₄.stack := by
    rw [stack_eq rfl hstop, stack_eq rfl hstripEnd, stack_eq rfl hafter, stack_eq rfl hmarkup]
  obtain ⟨b₁, before, ps₁, hfirst, hps₁, hbefore', hundashed⟩ := takes_lead ['{', '%'] hc hc' hbegin
  obtain ⟨name, hname, hrule, hend⟩ := hname hderives
  have hmarkup' := hmarkup
  obtain ⟨between, markup, ps, hmarkup, hbetween, htrimmed, hps⟩ :=
    takes_markup rfl (takes_spaces hc') (takes_tagMarkup hatomic) hc hc' hmarkup
  obtain ⟨b₂, after, ps₂, htrail, hps₂, hafter'⟩ := takes_trail ['%', '}'] hc hc' hafter hstripEnd hstop
  have hlead := hfirst.trans hname
  have hblanks : ∀ x ∈ before ++ between ++ after, x ∈ spaceLetters :=
    List.forall_mem_append.mpr ⟨List.forall_mem_append.mpr ⟨hbefore', hbetween⟩, hafter'⟩
  have htrim : Token.trimOfPairs t.pairs.reverse = ⟨b₁, b₂⟩ := by
    have hparts : ∀ q ∈ name :: ps, q.rule ≠ .stripStart ∧ q.rule ≠ .stripEnd :=
      List.forall_mem_cons.mpr ⟨not_strip_of_isTagNameRule name.rule (hrule ▸ hr), hps.not_strip rfl⟩
    rw [((hlead.trans hmarkup).trans htrail).pairs_eq, hpairs]
    simpa using trimOfPairs_around hps₁ hparts hps₂
  refine ⟨s₃, s₄, s₅, name, before, between, markup, after, ?_, ?_⟩
  · rw [htrim]
    exact ⟨hundashed, ⟨_, hfirst⟩, hderives, hname, hmarkup', ⟨_, hmarkup⟩, ⟨_, htrail⟩, hstack, hstack', hblanks,
      htrimmed⟩
  · rw [htrim]
    exact tagParts_of_takes hr rfl hpairs ⟨hrule, hend⟩ hlead hps₁ hmarkup hps htrail hps₂
      (.tag ⟨b₁, b₂⟩ name.text before between after hblanks htrimmed)

theorem takes_tagName (hr : Token.isTagNameRule r) (hc : c.leavesPair) (h : Derives grammar c (call r) s t) :
    ∃ name, s.Takes t name.text [name] ∧ name.rule = r ∧ name.stop = t.offset := by
  obtain ⟨name, hname, hrule, _, hend, _⟩ := h.takes_call (not_silent_of_isTagNameRule r hr) hc
  exact ⟨name, hname, hrule, hend⟩

theorem tag_parts (h : Grown grammar text p) (hbody : grammar.body p.rule = tagBody r)
    (hkind : grammar.kind p.rule = .compound) (hr : Token.isTagNameRule r) :
    ∃ name lead markup trail, TagParts p name lead markup trail := by
  cases h with
  | @mk c s t rule _ hleaves hpairs hs h _ =>
      simp only at hbody hkind
      rw [hkind] at hleaves h
      rw [hbody] at h
      obtain ⟨_, _, _, name, _, _, markup, _, _, hparts⟩ :=
        tag_written hleaves Atomicity.noConfusion hr (takes_tagName hr hleaves) rule hpairs h
      exact ⟨name, _, markup, _, hparts⟩

theorem statement_parts (h : Grown grammar text p) (hbody : grammar.body p.rule = statementBody r)
    (hkind : grammar.kind p.rule = .compound) (hr : Token.isTagNameRule r) :
    ∃ name lead markup trail, TagParts p name lead markup trail := by
  cases h with
  | @mk c s t rule _ hleaves hpairs hs h _ =>
      simp only at hbody hkind
      rw [hkind] at hleaves h
      have hc : (c.inside .compound).leavesPair := hleaves
      have hc' : (c.inside .compound).atomicity ≠ .spaced := Atomicity.noConfusion
      have hatomic : ((c.inside .compound).inside .atomic).atomicity ≠ .spaced := Atomicity.noConfusion
      rw [hbody] at h
      obtain ⟨u, hname, hmarkup⟩ := h.seq_meets hc'
      obtain ⟨name, hname, hrule, _, hend, _⟩ := hname.takes_call (not_silent_of_isTagNameRule r hr) hc
      obtain ⟨between, markup, ps, hmarkup, hbetween, htrimmed, hps⟩ :=
        takes_markup rfl (takes_inlineSpaces hc') (takes_statementMarkup hatomic) hc hc' hmarkup
      have hnone : ([] : List (Pair Rule)).map Pair.rule = if false then [stripStart] else [] := rfl
      exact ⟨name, _, markup, _, tagParts_of_takes hr rfl hpairs ⟨hrule, hend⟩ hname hnone hmarkup hps
        (.idle t.attempts) rfl (.statement name.text between hbetween htrimmed)⟩

end LiquidTemplate
