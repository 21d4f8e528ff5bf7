import LiquidTemplate.Proofs.Rule.Arrangement
import LiquidTemplate.Proofs.Rule.Dash
import LiquidTemplate.Proofs.Rule.Markup
import LiquidTemplate.Proofs.Rule.Text

namespace LiquidTemplate

open Text
open Peg Peg.Expr Rule

structure Flagged (start stop : List Char) (trim : Trim) (word : List Char) : Prop where
  before : trim.before = true ↔ start ++ ['-'] <+: word
  after : ∀ inner, word = start ++ dash trim.before ++ inner → (trim.after = true ↔ '-' :: stop <:+ inner)

structure Enclosed (start stop : List Char) (trim : Trim) (inner word : List Char) : Prop where
  text_eq : ∃ before after, (∀ x ∈ before ++ after, x ∈ spaceLetters) ∧
    word = start ++ dash trim.before ++ before ++ inner ++ after ++ dash trim.after ++ stop
  flagged : Flagged start stop trim word

/-- What a markup can be: it has no blanks at its ends, and the delimiter that closes it is not in it. -/
structure MarkupText (stop markup : List Char) : Prop where
  trimmed : Trimmed spaceLetters markup
  unclosed : ¬stop <:+: markup

theorem markupText_nil {stop : List Char} (hstop : stop ≠ []) : MarkupText stop [] := by
  refine ⟨trimmed_nil _, ?_⟩
  rwa [List.infix_nil]

def Undashed (stop word rest : List Char) : Prop := ∀ init more, word = init ++ ['-'] → rest ≠ stop ++ more

section Undashed

variable {stop v w rest : List Char}

theorem undashed_of_last (h : '-' ∉ w.getLast?) : Undashed stop w rest := by
  rintro init more rfl
  simp at h

theorem undashed_of_not_mem (h : '-' ∉ w) : Undashed stop w rest :=
  undashed_of_last fun hlast => h (List.mem_of_getLast? hlast)

theorem undashed_blanks (h : ∀ x ∈ w, x ∈ spaceLetters) : Undashed stop w rest :=
  undashed_of_not_mem fun hdash => absurd (h _ hdash) (by decide)

/-- A longer word ends as its last part does. -/
theorem Undashed.append (hv : v = [] → Undashed stop w rest) (h : Undashed stop v rest) :
    Undashed stop (w ++ v) rest := by
  rcases List.eq_nil_or_concat v with rfl | ⟨v, x, rfl⟩
  · rw [List.append_nil]
    exact hv rfl
  · intro init more heq
    rw [List.concat_eq_append, ← List.append_assoc] at heq
    obtain ⟨_, hx⟩ := List.append_inj' heq rfl
    exact h v more (by rw [List.concat_eq_append, hx])

end Undashed

variable {c : Context} {s t : State Rule} {r w : Rule} {dashed stop : List Char}

/-- What is before the dashes and after them has none of its own at the delimiters. -/
theorem flagged_of_takes {start lead middle after : List Char} {trim : Trim} {u : State Rule}
    {ps ps' : List (Pair Rule)} (hstart : trim.before = false → ∀ more, s.rest ≠ start ++ '-' :: more)
    (hlead : s.Takes u lead ps) (hlead_eq : lead = start ++ dash trim.before ++ middle)
    (hmiddle : Undashed stop middle u.rest)
    (hafter : ∀ x ∈ after, x ∈ spaceLetters) (htrail : u.Takes t (after ++ dash trim.after ++ stop) ps') :
    Flagged start stop trim (s.consumed t) := by
  subst hlead_eq
  have hall := hlead.trans htrail
  have hmiddle : Undashed stop (middle ++ after) ((dash trim.after ++ stop) ++ t.rest) := by
    refine .append ?_ (undashed_blanks hafter)
    rintro rfl
    rwa [htrail.rest_eq] at hmiddle
  rw [hall.consumed_eq]
  constructor
  · constructor
    · intro hbefore
      simp [hbefore, dash]
    · rintro ⟨more, hmore⟩
      by_contra hbefore
      apply hstart (by simpa using hbefore) (more ++ t.rest)
      rw [hall.rest_eq, ← hmore]
      simp
  · intro inner hinner
    obtain rfl : middle ++ (after ++ dash trim.after ++ stop) = inner := by
      rw [List.append_assoc, List.append_assoc] at hinner
      exact List.append_cancel_left (List.append_cancel_left (hinner.trans (by simp)))
    constructor
    · intro hflag
      refine ⟨middle ++ after, ?_⟩
      simp [hflag, dash]
    · rintro ⟨init, hinit⟩
      by_contra hflag
      have hnone : dash trim.after = [] := by simp [dash, hflag]
      have hlast : middle ++ after ++ stop = init ++ ['-'] ++ stop := by
        rw [hnone, List.append_nil] at hinit
        rw [List.append_assoc, ← hinit]
        simp
      exact hmiddle init t.rest (List.append_cancel_right hlast) (by rw [hnone]; simp)

def markupStop (stop : List Char) : Expr Rule := call space ||| .word ('-' :: stop) ||| .word stop

/-- The words of a markup go on to the delimiter or the dash at it, and have it nowhere in them. -/
theorem takes_markupText (hc : c.atomicity ≠ .spaced) (hw : grammar.kind w = .silent)
    (hbody : grammar.body w = .until1 (markupStop stop)) (hstop : ∃ x ∈ stop.head?, x ∉ spaceLetters)
    (h : Derives grammar c (words space w) s t) :
    ∃ v, s.Takes t v [] ∧ v ≠ [] ∧ MarkupText stop v ∧ Undashed stop v t.rest := by
  have hstops : ∀ stack, Stops grammar c (markupStop stop) stack
      (fun rest => (∀ more, rest ≠ '-' :: stop ++ more) ∧ ∀ more, rest ≠ stop ++ more) (fun _ => True) := by
    intro stack
    constructor
    · intro s r _ h
      obtain ⟨_, h, hplain⟩ := h.alt
      obtain ⟨_, _, hdashed⟩ := h.alt
      exact ⟨hdashed.not_word, hplain.not_word⟩
    · intro s t _ _
      trivial
  have hblank : ∀ {c s r x rest}, Fails grammar c (markupStop stop) s r → s.rest = x :: rest →
      x ∉ spaceLetters := by
    intro c s r x rest h hrest
    obtain ⟨_, h, _⟩ := h.alt
    obtain ⟨_, h, _⟩ := h.alt
    exact (h.silent rfl).not_letter letters_space hrest
  obtain ⟨v, hv, hne, halong, _⟩ := h.along_words hc rfl letters_space hw hbody hstops
  obtain ⟨v', hv', htrimmed⟩ := h.takes_words hc rfl letters_space hw hbody hblank
  obtain ⟨rfl, _⟩ := hv.unique hv'
  refine ⟨v, hv, hne, ⟨htrimmed, ?_⟩, ?_⟩
  · rintro ⟨before, after, rfl⟩
    obtain ⟨x, hx, hletter⟩ := hstop
    obtain ⟨stop, rfl⟩ := List.head?_eq_some_iff.mp hx
    rw [List.append_assoc] at halong
    apply (halong.apply hletter).2 (after ++ t.rest)
    simp
  · rintro init more rfl hmore
    apply (halong.apply (by decide)).1 more
    simp [hmore]

theorem takes_markupRule {m : Rule} {v : List Char} {ps : List (Pair Rule)} (hm : grammar.kind m = .atomic)
    (hwords : grammar.body m = words space w) (hw : grammar.kind w = .silent)
    (hbody : grammar.body w = .until1 (markupStop stop)) (hstop : ∃ x ∈ stop.head?, x ∉ spaceLetters)
    (h : Derives grammar c (call m) s t) (hv : s.Takes t v ps) :
    v ≠ [] ∧ MarkupText stop v ∧ Undashed stop v t.rest := by
  obtain ⟨s', t', h, hs', ht'⟩ := h.call_body
  rw [hm, hwords] at h
  obtain ⟨v', hv', hne, hmarkup, hundashed⟩ := takes_markupText Atomicity.noConfusion hw hbody hstop h
  have heq := hv'.rest_eq
  rw [hs', ht'] at heq
  rw [hv.word_of heq rfl, ← ht']
  exact ⟨hne, hmarkup, hundashed⟩

/-- After the markup of a tag, or the name where there is none, no dash is right before the delimiter. -/
theorem undashed_tagMarkup {v v' : List Char} {ps : List (Pair Rule)} (hc : c.atomicity ≠ .spaced)
    (h : Derives grammar c (opt (spaces ++ call tagMarkup)) s t) (hv : s.Takes t v ps)
    (hbefore : Undashed ['%', '}'] v' s.rest) : Undashed ['%', '}'] (v' ++ v) t.rest := by
  cases h with
  | present h =>
      obtain ⟨u, hspaces, h⟩ := h.seq_meets hc
      obtain ⟨blanks, hblanks, _⟩ := takes_spaces hc hspaces
      obtain ⟨markup, ps', hmarkup, _⟩ := h.takes
      obtain ⟨hne, _, hundashed⟩ := takes_markupRule (w := .markupWord) rfl rfl rfl rfl ⟨'%', rfl, by decide⟩ h hmarkup
      rw [(hv.unique (hblanks.trans hmarkup)).1, ← List.append_assoc]
      exact .append (fun hnil => absurd hnil hne) hundashed
  | absent h =>
      rw [(hv.unique (.idle _)).1, List.append_nil]
      exact hbefore

/-- The characters of a name leave the dash at the delimiter alone. -/
theorem undashed_nameTail (hc : c.atomicity ≠ .spaced)
    (h : Derives grammar c (many (notAhead (lit "-" ++ tagStop) ++ call idChar)) s t) :
    ∃ v, s.Takes t v [] ∧ Undashed ['%', '}'] v t.rest := by
  refine h.many_induct (P := fun s t => ∃ v, s.Takes t v [] ∧ Undashed ['%', '}'] v t.rest) ?_ ?_
  · intro s s' r hs _
    rw [State.skip_of_ne_spaced _ _ hc, or_self] at hs
    subst hs
    exact ⟨[], .idle r, undashed_of_not_mem List.not_mem_nil⟩
  · intro s s' t u hs hround ⟨v, hv, hundashed⟩
    rw [State.skip_of_ne_spaced _ _ hc, or_self] at hs
    subst hs
    obtain ⟨s₁, hahead, h⟩ := hround.seq_meets hc
    obtain ⟨x, hx, _⟩ := takes_idChar h
    obtain ⟨hrest, hdash⟩ := rest_notAhead hc hahead
    cases hahead with
    | notAhead =>
        refine ⟨x :: v, ((State.Takes.idle _).trans hx).trans hv, .append (w := [x]) ?_ hundashed⟩
        rintro rfl init more heq hmore
        obtain ⟨_, hx'⟩ := List.append_inj' ((List.nil_append [x]).trans heq) rfl
        cases hx'
        apply hdash more
        rw [hx.rest_eq, hv.rest_eq, hmore]
        rfl

theorem undashed_longName {v : List Char} {ps : List (Pair Rule)} (hc : c.atomicity ≠ .spaced)
    (h : Derives grammar c (call idStart ++ many (notAhead (lit "-" ++ tagStop) ++ call idChar)) s t)
    (hv : s.Takes t v ps) : Undashed ['%', '}'] v t.rest := by
  obtain ⟨u, hstart, h⟩ := h.seq_meets hc
  obtain ⟨x, hx, hstart⟩ := takes_idStart hstart
  obtain ⟨v', hv', hundashed⟩ := undashed_nameTail hc h
  rw [(hv.unique (hx.trans hv')).1]
  refine .append (fun _ => undashed_of_not_mem ?_) hundashed
  intro hdash
  exact (isNameStart_ne hstart).1 (List.mem_singleton.mp hdash).symm

theorem undashed_name {v : List Char} {ps : List (Pair Rule)} (hr : r ∈ [blockName, tagName, closeName])
    (h : Derives grammar c (call r) s t) (hv : s.Takes t v ps) : Undashed ['%', '}'] v t.rest := by
  have hkind : ∀ r ∈ [blockName, tagName, closeName], grammar.kind r = .atomic := by decide
  obtain ⟨s', t', h, hs', ht'⟩ := h.call_body
  rw [hkind r hr] at h
  obtain ⟨v', ps', hv', _⟩ := h.takes
  have heq := hv'.rest_eq
  rw [hs', ht'] at heq
  rw [hv.word_of heq rfl, ← ht']
  simp only [List.mem_cons, List.not_mem_nil, or_false] at hr
  rcases hr with rfl | rfl | rfl
  · obtain ⟨u, h, hahead⟩ := h.seq_meets Atomicity.noConfusion
    obtain ⟨w, htakes, hw⟩ := h.takes_spelled (P := fun w => w.all Char.isAlpha) (by decide)
    cases hahead with
    | notAhead =>
        rw [(hv'.unique (htakes.trans (.idle _))).1, List.append_nil]
        refine undashed_of_not_mem fun hdash => ?_
        exact absurd (List.all_eq_true.mp hw _ hdash) (by decide)
  · cases h with
    | first h =>
        rw [(hv'.unique h.takes_word).1]
        exact undashed_of_not_mem (by decide)
    | second _ h =>
        obtain ⟨v, ps, hv, _⟩ := h.takes
        rw [(hv'.unique ((State.Takes.idle _).trans hv)).1]
        exact undashed_longName Atomicity.noConfusion h hv
  · exact undashed_longName Atomicity.noConfusion h hv'

variable {text : List Char} {p : Pair Rule}

theorem tagMarkup_text (h : Grown grammar text p) (hp : p.rule = .tagMarkup) : MarkupText ['%', '}'] p.text := by
  cases h with
  | @mk c s t rule _ _ _ _ h _ =>
      cases hp
      obtain ⟨v, hv, _, hmarkup, _⟩ := takes_markupText (w := .markupWord) Atomicity.noConfusion rfl rfl
        ⟨'%', rfl, by decide⟩ h
      rw [← hv.consumed_eq] at hmarkup
      exact hmarkup

/-- The markup of an output among its pairs, and how the output is written. -/
theorem output_written (h : Grown grammar text p) (hp : p.rule = .liquidDrop) :
    ∃ markup, Enclosed ['{', '{'] ['}', '}'] (Token.trimOfPairs p.children) markup p.text ∧
      MarkupText ['}', '}'] markup ∧
      ((∃ q, p.children.find? (·.rule == .dropMarkup) = some q ∧ q.text = markup) ∨
        (p.children.find? (·.rule == .dropMarkup) = none ∧ markup = [])) := by
  obtain ⟨c, s, t, hc, _, _, h, htakes⟩ := h.derives (by rw [hp]; rfl)
  rw [hp] at hc h
  have hc' : (c.inside (grammar.kind liquidDrop)).atomicity ≠ .spaced := Atomicity.noConfusion
  obtain ⟨s₆, h, hstop⟩ := h.seq_meets hc'
  obtain ⟨s₅, h, hstripEnd⟩ := h.seq_meets hc'
  obtain ⟨s₄, h, hafter⟩ := h.seq_meets hc'
  obtain ⟨s₃, h, hmarkup⟩ := h.seq_meets hc'
  obtain ⟨b₁, before, ps₁, hlead, hps₁, hbefore', hfirst⟩ := takes_lead ['{', '{'] hc hc' h
  obtain ⟨b₂, after, ps₂, htrail, hps₂, hafter'⟩ := takes_trail ['}', '}'] hc hc' hafter hstripEnd hstop
  -- the markup, which may be missing, is all between the blanks
  have hmiddle : ∃ markup ps, s₃.Takes s₄ markup ps ∧ Undashed ['}', '}'] (before ++ markup) s₄.rest ∧
      MarkupText ['}', '}'] markup ∧ ((∃ q, ps = [q] ∧ q.rule = .dropMarkup ∧ q.text = markup) ∨
        (ps = [] ∧ markup = [])) := by
    cases hmarkup with
    | present h =>
        obtain ⟨q, hq, hrule, _⟩ := h.takes_call (by decide) hc
        obtain ⟨hne, hmarkup, hundashed⟩ :=
          takes_markupRule (w := .dropWord) rfl rfl rfl rfl ⟨'}', rfl, by decide⟩ h hq
        exact ⟨q.text, [q], hq, .append (fun hnil => absurd hnil hne) hundashed, hmarkup, .inl ⟨q, rfl, hrule, rfl⟩⟩
    | absent =>
        refine ⟨[], [], .idle _, ?_, markupText_nil (by simp), .inr ⟨rfl, rfl⟩⟩
        rw [List.append_nil]
        exact undashed_blanks hbefore'
  obtain ⟨markup, ps, hmarkup, hundashed, hmarkup', hps⟩ := hmiddle
  have hnot : ∀ q ∈ ps, q.rule ≠ .stripStart ∧ q.rule ≠ .stripEnd := by
    rcases hps with ⟨q, rfl, hrule, _⟩ | ⟨rfl, _⟩
    · simp [hrule]
    · exact List.forall_mem_nil _
  have hall := (hlead.trans hmarkup).trans htrail
  obtain ⟨htext, hchildren⟩ := htakes.unique hall
  simp only [List.append_assoc] at hchildren htext
  have htrim : Token.trimOfPairs p.children = ⟨b₁, b₂⟩ := by
    rw [hchildren]
    exact trimOfPairs_around hps₁ hnot hps₂
  have hflagged : Flagged ['{', '{'] ['}', '}'] ⟨b₁, b₂⟩ p.text := by
    rw [← htakes.consumed_eq]
    exact flagged_of_takes hfirst (hlead.trans hmarkup) (by simp) hundashed hafter' htrail
  refine ⟨markup, ⟨⟨before, after, List.forall_mem_append.mpr ⟨hbefore', hafter'⟩, ?_⟩, ?_⟩, hmarkup', ?_⟩
  · rw [htext, htrim]
    simp
  · rwa [htrim]
  · have hfind₁ : ps₁.find? (fun q => q.rule == .dropMarkup) = none := find?_strip hps₁ (f := (· == .dropMarkup)) rfl
    have hfind₂ : ps₂.find? (fun q => q.rule == .dropMarkup) = none := find?_strip hps₂ (f := (· == .dropMarkup)) rfl
    rw [hchildren, List.find?_append, List.find?_append, hfind₁, hfind₂, Option.none_or, Option.or_none]
    rcases hps with ⟨q, rfl, hrule, htext⟩ | ⟨rfl, htext⟩
    · exact .inl ⟨q, List.find?_cons_of_pos (by simp [hrule]), htext⟩
    · exact .inr ⟨rfl, htext⟩

/-- The name of a closing among its pairs, and how the closing is written. -/
theorem close_written (h : Grown grammar text p) (hp : p.rule = .liquidTagClose) :
    ∃ name, p.children.find? (Token.isTagNameRule ·.rule) = some name ∧
      Enclosed ['{', '%'] ['%', '}'] (Token.trimOfPairs p.children) ("end".toList ++ name.text) p.text := by
  obtain ⟨c, s, t, hc, _, _, h, htakes⟩ := h.derives (by rw [hp]; rfl)
  rw [hp] at hc h
  have hc' : (c.inside (grammar.kind liquidTagClose)).atomicity ≠ .spaced := Atomicity.noConfusion
  obtain ⟨s₇, h, hstop⟩ := h.seq_meets hc'
  obtain ⟨s₆, h, hstripEnd⟩ := h.seq_meets hc'
  obtain ⟨s₅, h, hafter⟩ := h.seq_meets hc'
  obtain ⟨s₄, h, hname⟩ := h.seq_meets hc'
  obtain ⟨s₃, h, hend⟩ := h.seq_meets hc'
  obtain ⟨b₁, before, ps₁, hlead, hps₁, hbefore', hfirst⟩ := takes_lead ['{', '%'] hc hc' h
  have hname' := hname
  obtain ⟨name, hname, hrule, _⟩ := hname.takes_call (by decide) hc
  obtain ⟨b₂, after, ps₂, htrail, hps₂, hafter'⟩ := takes_trail ['%', '}'] hc hc' hafter hstripEnd hstop
  have hlead := (hlead.trans hend.takes_word).trans hname
  obtain ⟨htext, hchildren⟩ := htakes.unique (hlead.trans htrail)
  simp only [List.append_nil, List.append_assoc] at hchildren htext
  have htrim : Token.trimOfPairs p.children = ⟨b₁, b₂⟩ := by
    rw [hchildren]
    exact trimOfPairs_around hps₁ (by simp [hrule]) hps₂
  have hundashed : Undashed ['%', '}'] (before ++ "end".toList ++ name.text) s₅.rest := by
    refine .append (fun _ => .append ?_ (undashed_of_not_mem (by decide))) (undashed_name (by simp) hname' hname)
    exact fun _ => undashed_blanks hbefore'
  have hflagged : Flagged ['{', '%'] ['%', '}'] ⟨b₁, b₂⟩ p.text := by
    rw [← htakes.consumed_eq]
    exact flagged_of_takes hfirst hlead (by simp) hundashed hafter' htrail
  refine ⟨name, ?_, ⟨before, after, List.forall_mem_append.mpr ⟨hbefore', hafter'⟩, ?_⟩, ?_⟩
  · rw [hchildren, List.find?_append, find?_strip hps₁ rfl, Option.none_or, List.singleton_append,
      List.find?_cons_of_pos (by rw [hrule]; rfl)]
  · rw [htext, htrim]
    simp
  · rwa [htrim]

/-- The markup of a tag, unlike that of a statement, goes on to the delimiter. -/
theorem TagParts.markupText {name : Pair Rule} {lead markup trail : List Char} (h : TagParts p name lead markup trail)
    (hgrown : Grown grammar text p) (hp : p.rule ∈ [liquidTagOpen, liquidTag, rawTagOpen]) :
    MarkupText ['%', '}'] markup := by
  rcases h.markup_eq with ⟨m, hm, rfl, _⟩ | ⟨_, rfl, _⟩
  · have hmem := List.mem_of_find?_eq_some hm
    have hrule : m.rule ∈ [stripStart, blockName, tagName, rawTagName, tagMarkup, stripEnd] :=
      children_within hgrown hp _ (by decide) m hmem
    have honly : ∀ r ∈ [stripStart, blockName, tagName, rawTagName, tagMarkup, stripEnd],
        Token.isTagMarkupRule r → r = .tagMarkup := by decide
    have hmarkup := List.find?_some hm
    exact tagMarkup_text (hgrown.children m hmem) (honly _ hrule hmarkup)
  · exact markupText_nil (by simp)

theorem tag_spelled (h : Grown grammar text p) (hbody : grammar.body p.rule = tagBody r)
    (hp : p.rule ∈ [liquidTagOpen, liquidTag]) (hr : r ∈ [blockName, tagName]) :
    ∃ name before between markup after, (∀ x ∈ before ++ between ++ after, x ∈ spaceLetters) ∧
      MarkupText ['%', '}'] markup ∧ Flagged ['{', '%'] ['%', '}'] (Token.trimOfPairs p.children) p.text ∧
      TagParts p name
        (['{', '%'] ++ dash (Token.trimOfPairs p.children).before ++ before ++ name.text ++ between) markup
        (after ++ dash (Token.trimOfPairs p.children).after ++ ['%', '}']) := by
  have hkind : ∀ rule ∈ [liquidTagOpen, liquidTag], grammar.kind rule = .compound := by decide
  have hisName : ∀ rule ∈ [blockName, tagName], Token.isTagNameRule rule := by decide
  have hkind := hkind p.rule hp
  have hisName := hisName r hr
  have hgrown := h
  cases h with
  | @mk c s t rule _ hleaves hpairs hs h _ =>
      simp only at hbody hkind
      rw [hkind] at hleaves h
      rw [hbody] at h
      obtain ⟨u, v, w, name, before, between, markup, after, hrun, hparts⟩ :=
        tag_written hleaves Atomicity.noConfusion hisName (takes_tagName hisName hleaves) rule hpairs h
      have hmarkup := hparts.markupText hgrown (List.mem_append_left [rawTagOpen] hp)
      have hname := undashed_name (List.mem_append_left [closeName] hr) hrun.name_derives hrun.name_takes
      have hbefore : ∀ x ∈ before, x ∈ spaceLetters := fun x hx => hrun.blanks x (by simp [hx])
      have hafter : ∀ x ∈ after, x ∈ spaceLetters := fun x hx => hrun.blanks x (by simp [hx])
      obtain ⟨_, hlead⟩ := hrun.lead
      obtain ⟨_, hmarkup'⟩ := hrun.markup_takes
      obtain ⟨_, htrail⟩ := hrun.trail
      have hundashed := undashed_tagMarkup Atomicity.noConfusion hrun.markup_derives hmarkup'
        (.append (fun _ => undashed_blanks hbefore) hname)
      have hmiddle := (hlead.trans hrun.name_takes).trans hmarkup'
      refine ⟨name, before, between, markup, after, hrun.blanks, hmarkup, ?_, hparts⟩
      exact flagged_of_takes hrun.undashed hmiddle (by simp) hundashed hafter htrail

/-- The markup of an output that is read as a variable is that variable. -/
theorem text_markupVariable {pairs : List (Pair Rule)} (htext : Trimmed markupBlanks text)
    (h : grammar.parse .markupVariable text = .ok pairs) :
    ∃ p value, pairs = [p] ∧ Markup.parts p = [value] ∧ value.text = text := by
  have hvalue : ∀ {s t : State Rule}, Derives grammar .top (call liquidVariable) s t →
      ∃ q, s.Takes t q.text [q] ∧ q.rule ∈ [liquidVariable] := by
    intro s t h
    obtain ⟨q, hq, hrule, _⟩ := h.takes_call (by decide) rfl
    exact ⟨q, hq, by simp [hrule]⟩
  obtain ⟨p, value, hp, hparts, _, hvalue⟩ := parts_single rfl rfl (by decide) hvalue htext h
  exact ⟨p, value, hp, hparts, hvalue⟩

end LiquidTemplate
