import LiquidTemplate.Proofs.Rule.Line

namespace LiquidTemplate

open Text
open Peg Peg.Expr Rule

variable {c : Context} {s s₀ : State Rule} {a : Expr Rule} {v b rest more : List Char} {ps : List (Pair Rule)}

section Ends

variable (hc : c.atomicity ≠ .spaced)

include hc

theorem gives_tagHead (hb : ∀ x ∈ b, x ∈ spaceLetters) (hmore : ∀ x ∈ more.head?, x ∉ spaceLetters)
    (hs : s.rest = tagBegin ++ (b ++ more)) :
    Gives grammar c (tagStart ++ opt (call stripStart) ++ spaces) s (some (s.over (tagBegin ++ b) more)) := by
  have hstart : Gives grammar c tagStart s (some (s.over ['{', '%'] (' ' :: (b ++ more)))) := gives_word_over hs
  have hnone : Gives grammar c (call stripStart) (s.over ['{', '%'] (' ' :: (b ++ more))) none :=
    gives_call_none rfl rfl c (by simp)
  have hblanks : Gives grammar c spaces (s.over ['{', '%'] (' ' :: (b ++ more))) _ :=
    gives_spaces hc (List.forall_mem_cons.mpr ⟨by decide, hb⟩) hmore rfl
  have hopt := hstart.seq_idle hc (gives_opt.mpr (.inr ⟨hnone, rfl⟩))
  have h := hopt.seq_past hc hblanks
  exact h

theorem gives_tagEnd (hb : ∀ x ∈ b, x ∈ spaceLetters) (ha : Gives grammar c a s (some (s.past v (b ++ tagEnd) ps))) :
    Gives grammar c (a ++ spaces ++ opt (call stripEnd) ++ tagStop) s (some (s.past (v ++ (b ++ tagEnd)) [] ps)) := by
  have hsplit : b ++ tagEnd = b ++ [' '] ++ ['%', '}'] := by rw [tagEnd, List.append_assoc, List.singleton_append]
  rw [hsplit] at ha ⊢
  have hblanks : Gives grammar c spaces (s.over v (b ++ [' '] ++ ['%', '}'])) _ :=
    gives_spaces hc (spaceLetters_snoc hb) head_percent rfl
  have hnone : Gives grammar c (call stripEnd) (s.over (v ++ (b ++ [' '])) ['%', '}']) none :=
    gives_call_none rfl rfl c (by simp)
  have hopt := (ha.seq_past hc hblanks).seq_idle hc (gives_opt.mpr (.inr ⟨hnone, rfl⟩))
  have h := hopt.seq_past hc (gives_word_over (w := ['%', '}']) rfl)
  rwa [List.append_assoc] at h

/-- Something else than blanks before the end of a tag keeps the tag from ending. -/
theorem gives_tagEnd_none (hc' : c.leavesPair) (hrest : Inline rest) (hblank : ∃ x ∈ rest, x ∉ spaceLetters)
    (ha : Gives grammar c a s (some (s.past v (rest ++ tagEnd) ps))) :
    Gives grammar c (a ++ spaces ++ opt (call stripEnd) ++ tagStop) s none := by
  obtain ⟨b, r, rfl, hb, hr⟩ := exists_run (· ∈ spaceLetters) rest
  cases r with
  | nil =>
      obtain ⟨x, hx, hblank⟩ := hblank
      exact absurd (hb x (by simpa using hx)) hblank
  | cons y r =>
      rw [List.append_assoc] at ha
      have hr' : ∀ x ∈ (y :: r ++ tagEnd).head?, x ∉ spaceLetters := hr
      have hblanks : Gives grammar c spaces (s.over v (b ++ (y :: r ++ tagEnd))) _ := gives_spaces hc hb hr' rfl
      have hmore := ha.seq_past hc hblanks
      have hinline := lasting_inline b (y :: r) hrest
      by_cases hy : y = '-'
      · subst hy
        have hdash : Gives grammar c (call stripEnd) (s.over (v ++ b) ('-' :: r ++ tagEnd))
            (some ((s.over (v ++ b) ('-' :: r ++ tagEnd)).past ['-'] (r ++ tagEnd) _)) :=
          .pair_past rfl Kind.noConfusion rfl hc' rfl (gives_word_over rfl)
        have hopt := hmore.seq_past hc (gives_opt.mpr (.inl ⟨_, hdash, rfl⟩))
        exact hopt.seq_past_none hc (gives_word_none (hinline.suffix (List.suffix_cons '-' r)).not_tagStop)
      · have hnone : Gives grammar c (call stripEnd) (s.over (v ++ b) (y :: r ++ tagEnd)) none :=
          gives_call_none rfl rfl c (by simpa using hy)
        have hopt := hmore.seq_idle hc (gives_opt.mpr (.inr ⟨hnone, rfl⟩))
        exact hopt.seq_past_none hc (gives_word_none hinline.not_tagStop)

end Ends

theorem gives_endOfInput (hs : s.rest = []) : ∃ t, Gives grammar c (call endOfInput) s (some t) := by
  have hfinish : Gives grammar c (grammar.body endOfInput) s (some s.bare) := gives_finish.mpr (by rw [if_pos hs])
  by_cases hleaves : (c.outside (grammar.kind endOfInput)).leavesPair
  · exact ⟨_, (gives_pair Kind.noConfusion hleaves).mpr (.inl ⟨_, hfinish, rfl⟩)⟩
  · exact ⟨_, (gives_hidden Kind.noConfusion (Bool.of_not_eq_true hleaves)).mpr hfinish⟩

theorem gives_endOfInput_none (hs : s.rest ≠ []) : Gives grammar c (call endOfInput) s none := by
  have hfinish : Gives grammar c (grammar.body endOfInput) s none := gives_finish.mpr (by rw [if_neg hs])
  by_cases hleaves : (c.outside (grammar.kind endOfInput)).leavesPair
  · exact (gives_pair Kind.noConfusion hleaves).mpr (.inr ⟨hfinish, rfl⟩)
  · exact (gives_hidden Kind.noConfusion (Bool.of_not_eq_true hleaves)).mpr hfinish

def lineEnd : Expr Rule := ahead (inlineSpaces ++ (lineBreak ||| call endOfInput))

theorem gives_lineEnd (hc : c.atomicity ≠ .spaced) (hs : ∀ x ∈ s.rest, x ∈ inlineLetters) :
    Gives grammar c lineEnd s (some s.bare) := by
  have hc' : c.ahead.atomicity ≠ .spaced := by rwa [Context.atomicity_ahead]
  have hblanks : Gives grammar c.ahead inlineSpaces s (some (s.over s.rest [])) :=
    gives_inlineSpaces hc' hs (by simp) (by simp)
  have hbreak : Gives grammar c.ahead lineBreak (s.over s.rest []) none := gives_lineBreak_none inline_nil
  obtain ⟨t, ht⟩ : ∃ t, Gives grammar c.ahead (call endOfInput) (s.over s.rest []) (some t) := gives_endOfInput rfl
  exact gives_ahead.mpr (.inl ⟨_, hblanks.seq hc' (hbreak.alt ht), rfl⟩)

theorem gives_lineEnd_none (hc : c.atomicity ≠ .spaced) (hrest : Inline s.rest)
    (hblank : ∃ x ∈ s.rest, x ∉ inlineLetters) : Gives grammar c lineEnd s none := by
  have hc' : c.ahead.atomicity ≠ .spaced := by rwa [Context.atomicity_ahead]
  obtain ⟨b, r, hs, hb, hr⟩ := exists_run (· ∈ inlineLetters) s.rest
  have hne : r ≠ [] := by
    rintro rfl
    obtain ⟨x, hx, hblank⟩ := hblank
    rw [hs, List.append_nil] at hx
    exact hblank (hb x hx)
  have hblanks : Gives grammar c.ahead inlineSpaces s (some (s.over b r)) := gives_inlineSpaces hc' hb hr hs
  have hbreak : Gives grammar c.ahead lineBreak (s.over b r) none := gives_lineBreak_none (hrest.suffix ⟨b, hs.symm⟩)
  have hmore : Gives grammar c.ahead (call endOfInput) (s.over b r) none := gives_endOfInput_none hne
  exact gives_ahead.mpr (.inr ⟨hblanks.seq hc' (hbreak.alt hmore), rfl⟩)

structure Heads (lead : List Char) (s s₀ : State Rule) : Prop where
  rest_eq : s₀.rest = lead ++ (s.rest ++ tagEnd)
  beside : Beside s (s₀.over lead (s.rest ++ tagEnd))
  gives : ∀ {c}, Context.atomicity c ≠ .spaced → Gives grammar c (tagStart ++ opt (call stripStart) ++ spaces) s₀
    (some (s₀.over lead (s.rest ++ tagEnd)))

/-- The first expression takes the line but for blanks, and the second one the tag around it, each as one pair, of
two rules that belong together; or both fail. -/
inductive Twins (c : Context) (rules : List (Rule × Rule)) (a a' : Expr Rule) (s s₀ : State Rule) : Prop
  | missed : Gives grammar c a s none → Gives grammar c a' s₀ none → Twins c rules a a' s s₀
  | found {r r' : Rule} {v b : List Char} {ps ps' : List (Pair Rule)} : (r, r') ∈ rules → s.rest = v ++ b →
      (∀ x ∈ b, x ∈ inlineLetters) → List.Forall₂ Tracks ps ps' →
      Gives grammar c a s (some (s.past v b [s.pair r v ps])) →
      Gives grammar c a' s₀ (some (s₀.past s₀.rest [] [s₀.pair r' s₀.rest ps'])) → Twins c rules a a' s s₀

namespace Twins

variable {a' b b' : Expr Rule} {rules rules' : List (Rule × Rule)}

theorem alt (h : Twins c rules a a' s s₀) (h' : Twins c rules' b b' s s₀) :
    Twins c (rules ++ rules') (.alt a b) (.alt a' b') s s₀ := by
  cases h with
  | found hr hv hb hps ha ha' => exact .found (List.mem_append_left _ hr) hv hb hps ha.first ha'.first
  | missed ha ha' =>
      cases h' with
      | found hr hv hb hps hb hb' => exact .found (List.mem_append_right _ hr) hv ‹_› hps (ha.alt hb) (ha'.alt hb')
      | missed hb hb' => exact .missed (ha.alt hb) (ha'.alt hb')

theorem other (h : Twins c rules a a' s s₀) (hb : Gives grammar c b s₀ none) : Twins c rules a (.alt a' b) s s₀ := by
  cases h with
  | found hr hv hb hps ha ha' => exact .found hr hv hb hps ha ha'.first
  | missed ha ha' => exact .missed ha (ha'.alt hb)

theorem silent {r r' : Rule} (hr : grammar.kind r = .silent) (hr' : grammar.kind r' = .silent)
    (h : Twins c rules (grammar.body r) (grammar.body r') s s₀) : Twins c rules (call r) (call r') s s₀ := by
  cases h with
  | found hrules hv hb hps ha ha' =>
      exact .found hrules hv hb hps ((gives_silent hr).mpr ha) ((gives_silent hr').mpr ha')
  | missed ha ha' => exact .missed ((gives_silent hr).mpr ha) ((gives_silent hr').mpr ha')

end Twins

variable {lead : List Char} {r r' n n' : Rule}

theorem Peg.Context.leavesPair_compound (hc : c.leavesPair) : (c.inside .compound).leavesPair :=
  Context.leavesPair_inside rfl (Context.leavesPair_outside c .compound hc)

theorem twins_tag (hr : grammar.body r = statementBody n) (hr' : grammar.body r' = tagBody n')
    (hkind : grammar.kind r = .compound) (hkind' : grammar.kind r' = .compound)
    (hname : ∀ {c s s'}, Context.leavesPair c → Beside s s' → Along c [] (call n) (call n') s s')
    (hc : c.leavesPair) (h : Heads lead s s₀) : Twins c [(r, r')] (call r) (call r') s s₀ := by
  have hc' : (c.inside .compound).atomicity ≠ .spaced := Atomicity.noConfusion
  cases Along.behind hc' (h.gives hc') (hname (c.leavesPair_compound hc) h.beside) with
  | missed hn hn' =>
      exact .missed (.pair_none hkind Kind.noConfusion hr hc hn.seq_none)
        (.pair_none hkind' Kind.noConfusion hr' hc hn'.seq_none.seq_none.seq_none.seq_none)
  | @found v rest ps ps' hv hn hn' hps =>
      have hbeside := h.beside.over hv
      rw [State.over_over] at hbeside
      obtain ⟨w, b, qs, qs', hw, hb, hqs, hm, hm'⟩ := gives_markups (c.leavesPair_compound hc) hc' hbeside
      have hstatement := hn.seq_past hc' hm
      have htag := gives_tagEnd hc' (spaceLetters_of_inline hb) (hn'.seq_past hc' hm')
      have hrest : s.rest = v ++ w ++ b := by rw [hv, List.append_assoc, ← hw, State.rest_over]
      have hrest' : lead ++ v ++ w ++ (b ++ tagEnd) = s₀.rest := by
        rw [h.rest_eq, hrest]
        simp only [List.append_assoc]
      rw [hrest'] at htag
      exact .found List.mem_cons_self hrest hb (List.rel_reverse (List.rel_append hqs hps))
        (.pair_past hkind Kind.noConfusion hr hc hrest hstatement)
        (.pair_past hkind' Kind.noConfusion hr' hc (List.append_nil _).symm htag)

theorem twins_close (hc : c.leavesPair) (h : Heads lead s s₀) :
    Twins c [(statementClose, liquidTagClose)] (call statementClose) (call liquidTagClose) s s₀ := by
  have hc' : (c.inside .compound).atomicity ≠ .spaced := Atomicity.noConfusion
  have hword : Along (c.inside .compound) [] (lit "end") (lit "end") s (s₀.over lead (s.rest ++ tagEnd)) :=
    .word (by decide) hc' h.beside
  cases (hword.behind hc' (h.gives hc')).seq hc' h.beside (along_closeName (c.leavesPair_compound hc)) with
  | missed hn hn' =>
      exact .missed (.pair_none rfl Kind.noConfusion rfl hc hn.seq_none)
        (.pair_none rfl Kind.noConfusion rfl hc hn'.seq_none.seq_none.seq_none)
  | @found v rest ps ps' hv hn hn' hps =>
      by_cases hblank : ∀ x ∈ rest, x ∈ inlineLetters
      · have hstatement := hn.seq_idle hc' (gives_lineEnd hc' hblank)
        have htag := gives_tagEnd hc' (spaceLetters_of_inline hblank) hn'
        have hrest' : lead ++ v ++ (rest ++ tagEnd) = s₀.rest := by
          rw [h.rest_eq, hv]
          simp only [List.append_assoc]
        rw [hrest'] at htag
        exact .found List.mem_cons_self hv hblank (List.rel_reverse hps)
          (.pair_past rfl Kind.noConfusion rfl hc hv hstatement)
          (.pair_past rfl Kind.noConfusion rfl hc (List.append_nil _).symm htag)
      · have hinline := (h.beside.over hv).inline
        simp only [not_forall, exists_prop] at hblank
        obtain ⟨x, hx, hblank⟩ := hblank
        have hspace : x ∉ spaceLetters := fun hspace => hblank (hinline.mem_inlineLetters hx hspace)
        have hstatement := hn.seq_past_none hc' (gives_lineEnd_none hc' hinline ⟨x, hx, hblank⟩)
        have htag := gives_tagEnd_none hc' (c.leavesPair_compound hc) hinline ⟨x, hx, hspace⟩ hn'
        exact .missed (.pair_none rfl Kind.noConfusion rfl hc hstatement)
          (.pair_none rfl Kind.noConfusion rfl hc htag)

/-- A tag around a line has no room for another one that closes it. -/
theorem gives_rawTag_none {text : List Char} (htext : Inline text) (hs : s.rest = text ++ tagEnd) :
    Gives grammar c (call liquidRawTag) s none := by
  obtain ⟨o, h⟩ := gives_call (r := liquidRawTag) rfl c s
  cases o with
  | none => exact h
  | some t =>
      obtain ⟨t', h, _⟩ := h.derives
      obtain ⟨s₁, _, h, hs₁, _⟩ := h.call_body
      obtain ⟨s₃, h, hclose⟩ := h.seq_meets Atomicity.noConfusion
      obtain ⟨s₂, hopen, hbody⟩ := h.seq_meets Atomicity.noConfusion
      obtain ⟨u, u', hopen, hu, hu'⟩ := hopen.call_body
      obtain ⟨z, hlead, hstop⟩ := hopen.seq_meets Atomicity.noConfusion
      obtain ⟨v, hv, _⟩ := hlead.reaches
      have hend := hstop.takes_word.rest_eq
      have hrest : u'.rest = [] := by
        refine htext.eq_nil_of_tagStop (v := v) ?_
        rw [← hend, ← hv, hu, hs₁, hs]
      obtain ⟨w, hw, _⟩ := hbody.reaches
      obtain ⟨z', _, hclose, hz', _⟩ := hclose.call_body
      obtain ⟨_, _, _, htakes, _⟩ := hclose.takes_opens (w := ['{', '%']) rfl
      have hopens := htakes.rest_eq
      rw [← hu', hrest] at hw
      rw [hz', (List.append_eq_nil_iff.mp hw.symm).2] at hopens
      cases hopens

theorem gives_textNode_none (hc : c.leavesPair) (hs : s.rest = ['{', '%'] ++ rest) :
    Gives grammar c (call liquidTextNode) s none := by
  have hstop : ∀ {c}, Gives grammar c (call space ||| call liquidTextStop) s (some (s.over ['{', '%'] rest)) := by
    intro c
    have hhead : ∀ x ∈ s.rest.head?, x ∉ spaceLetters := by
      rw [hs]
      rintro x ⟨⟩
      decide
    have houtput : Gives grammar c outputStart s none := gives_word_none (by simp [hs])
    have htag : Gives grammar c tagStart s _ := gives_word_over hs
    exact (gives_letter_none rfl (by decide) hhead).alt ((gives_silent rfl).mpr (houtput.alt htag).first)
  have hword : Gives grammar (c.inside .atomic) (call liquidWord) s none :=
    (gives_silent rfl).mpr (gives_unless_stop hstop).seq_none
  exact .pair_none rfl Kind.noConfusion rfl hc hword.seq_none

def statementTwins : List (Rule × Rule) :=
  [(statementClose, liquidTagClose), (statementOpen, liquidTagOpen), (statementTag, liquidTag)]

/-- A statement other than a comment is the tag around it. -/
theorem twins_statement {text : List Char} (hc : c.leavesPair) (h : Heads lead s s₀)
    (hcomment : ∀ rest, s.rest ≠ "comment".toList ++ rest) (htext : Inline text)
    (hs : s₀.rest = tagBegin ++ text ++ tagEnd) :
    Twins c statementTwins (call liquidStatement) (call liquidNode ||| call liquidTextNode) s s₀ := by
  have hraw : Gives grammar c (call liquidRawTag) s₀ none := gives_rawTag_none (inline_tagBegin htext) hs
  have hnone : Twins c [] (call statementComment) (call liquidRawTag) s s₀ :=
    .missed (gives_call_none rfl rfl c hcomment) hraw
  have hopen : Twins c _ (call statementOpen) (call liquidTagOpen) s s₀ :=
    twins_tag rfl rfl rfl rfl along_blockName hc h
  have htag : Twins c _ (call statementTag) (call liquidTag) s s₀ := twins_tag rfl rfl rfl rfl along_statementName hc h
  have hdrop : Gives grammar c (call liquidDrop) s₀ none := gives_call_none rfl rfl c (by simp [hs, tagBegin])
  have hnode := (((hnone.alt (twins_close hc h)).alt hopen).alt htag).other hdrop
  exact (Twins.silent rfl rfl hnode).other (gives_textNode_none hc hs)

def wholeBody (node : Expr Rule) : Expr Rule := start ++ many (spaces ++ node) ++ spaces ++ call endOfInput

section Whole

variable {lead node : Expr Rule} (hc : c.atomicity ≠ .spaced) (hb : ∀ x ∈ b, x ∈ spaceLetters)
  (hmore : ∀ x ∈ more.head?, x ∉ spaceLetters) (hs : s.rest = b ++ more)

include hc hb hmore hs

theorem gives_whole_none (hoffset : s.offset = 0) (hne : more ≠ []) (h : Gives grammar c node (s.over b more) none) :
    Gives grammar c (wholeBody node) s none := by
  have hblanks := gives_spaces hc hb hmore hs
  have hround : Gives grammar c (spaces ++ node) s none := hblanks.seq hc h
  have hrounds : Gives grammar c (many (spaces ++ node)) s (some s.bare) := (gives_many hc).mpr (.inl ⟨hround, rfl⟩)
  have hlead := (gives_start hoffset).seq hc (hrounds.same ⟨rfl, rfl, rfl⟩)
  have hspaces : Gives grammar c _ s (some (s.past b more [])) := hlead.seq hc (hblanks.same ⟨rfl, rfl, rfl⟩)
  exact hspaces.seq_past_none hc (gives_endOfInput_none hne)

theorem gives_whole_one {p : Pair Rule} {b' : List Char} (hlead : Gives grammar c lead s (some s.bare))
    (hb' : ∀ x ∈ b', x ∈ spaceLetters) (hend : ∀ {s}, s.rest = [] → Gives grammar c node s none) (hc' : c.leavesPair)
    (h : Gives grammar c node (s.over b more) (some ((s.over b more).past v b' [p]))) :
    ∃ t q, Gives grammar c (lead ++ many (spaces ++ node) ++ spaces ++ call endOfInput) s (some t) ∧
      t.pairs = [q, p] ∧ q.rule = endOfInput := by
  have hround := (gives_spaces hc hb hmore hs).seq_past hc h
  have hblanks : Gives grammar c spaces (s.over (b ++ v) b') (some ((s.over (b ++ v) b').over b' [])) :=
    gives_spaces hc hb' (by simp) (by simp)
  -- there is no room for a second node
  have hstop : Gives grammar c (many (spaces ++ node)) (s.over (b ++ v) b') (some (s.over (b ++ v) b').bare) :=
    (gives_many hc).mpr (.inl ⟨hblanks.seq hc (hend rfl), rfl⟩)
  have hrounds : Gives grammar c (many (spaces ++ node)) s (some (s.past (b ++ v) b' [p])) :=
    (gives_many hc).mpr (.inr ⟨_, _, hround, hstop.same ⟨rfl, rfl, rfl⟩, rfl⟩)
  have hlead := hlead.seq hc (hrounds.same ⟨rfl, rfl, rfl⟩)
  have hfinish : Gives grammar c finish (s.over (b ++ v ++ b') []) (some ((s.over (b ++ v ++ b') []).past [] [] [])) :=
    gives_finish.mpr rfl
  have heoi : Gives grammar c (call endOfInput) (s.over (b ++ v ++ b') []) _ :=
    hfinish.pair_past (c := c) rfl Kind.noConfusion rfl hc' rfl
  have hspaces : Gives grammar c _ s (some (s.past (b ++ v ++ b') [] [p])) := Gives.seq_past hc hlead hblanks
  exact ⟨_, _, hspaces.seq_past hc heoi, rfl, rfl⟩

end Whole

def OneNode (r : Rule) (text : List Char) (p : Pair Rule) : Prop :=
  ∃ whole q, grammar.parse r text = .ok [whole] ∧ whole.children = [p, q] ∧ q.rule = endOfInput

structure Line (text : List Char) : Prop where
  inline : Inline text
  nonblank : ∃ x ∈ text, x ∉ inlineLetters
  uncommented : ¬"comment".toList <+: text.dropWhile (inlineLetters.contains ·)

section Parse

variable {text : List Char} {node : Expr Rule} {p : Pair Rule} (hr : r.needs = 0) (hkind : grammar.kind r = .compound)

include hr hkind

theorem oneNode_of_gives {t : State Rule} {q : Pair Rule}
    (h : Gives grammar (Context.top.inside .compound) (grammar.body r) (Grammar.initial text) (some t))
    (hpairs : t.pairs = [q, p]) (hq : q.rule = endOfInput) : OneNode r text p := by
  have hloud : grammar.kind r ≠ .silent := by
    rw [hkind]
    exact Kind.noConfusion
  rcases Grammar.gives_parse hloud (parse_ne_fault hr text) with ⟨t', ht', hparse⟩ | ⟨hnone, _⟩
  · rw [hkind] at ht'
    cases h.unique ht'
    exact ⟨_, q, hparse, by rw [hpairs]; rfl, hq⟩
  · rw [hkind] at hnone
    cases h.unique hnone

theorem error_of_gives (h : Gives grammar (Context.top.inside .compound) (grammar.body r) (Grammar.initial text) none) :
    ∃ e, grammar.parse r text = .error e := by
  have hloud : grammar.kind r ≠ .silent := by
    rw [hkind]
    exact Kind.noConfusion
  rcases Grammar.gives_parse hloud (parse_ne_fault hr text) with ⟨t', ht', _⟩ | ⟨_, herror⟩
  · rw [hkind] at ht'
    cases h.unique ht'
  · exact herror

end Parse

theorem heads_line {core : List Char} (hinline : Inline (b ++ core)) (hb : ∀ x ∈ b, x ∈ inlineLetters)
    (hne : core ≠ []) (hcore : ∀ x ∈ core.head?, x ∉ spaceLetters) :
    Heads (tagBegin ++ b) ((Grammar.initial (b ++ core)).over b core)
      (Grammar.initial (tagBegin ++ (b ++ core) ++ tagEnd)) := by
  have hrest : tagBegin ++ (b ++ core) ++ tagEnd = tagBegin ++ (b ++ (core ++ tagEnd)) := by
    simp only [List.append_assoc]
  have hhead : ∀ x ∈ (core ++ tagEnd).head?, x ∉ spaceLetters := by
    obtain ⟨y, core, rfl⟩ := List.exists_cons_of_ne_nil hne
    exact hcore
  refine ⟨?_, ⟨rfl, ?_, hinline.suffix (List.suffix_append b core)⟩, ?_⟩
  · rw [List.append_assoc]
    exact hrest
  · change 0 + byteLength (tagBegin ++ b) = 0 + byteLength b + byteLength tagBegin
    rw [byteLength_append]
    omega
  · intro c hc
    exact gives_tagHead hc (spaceLetters_of_inline hb) hhead hrest

theorem gives_statement_end (hs : s.rest = []) : Gives grammar c (call liquidStatement) s none :=
  gives_none_at_end (k := 0) (by decide) (by decide) (by decide) c hs

theorem gives_node_end (hs : s.rest = []) : Gives grammar c (call liquidNode ||| call liquidTextNode) s none :=
  gives_none_at_end (k := 0) (by decide) (by decide) (by decide) c hs

/-- A line is one statement, and the tag around it is one node, or neither is. -/
theorem parse_line {text : List Char} (h : Line text) :
    (∃ p p', OneNode liquidTagContents text p ∧ OneNode liquidDocument (tagBegin ++ text ++ tagEnd) p' ∧
      (p.rule, p'.rule) ∈ statementTwins ∧ List.Forall₂ Tracks p.children p'.children) ∨
    ((∃ e, grammar.parse liquidTagContents text = .error e) ∧
      ∃ e, grammar.parse liquidDocument (tagBegin ++ text ++ tagEnd) = .error e) := by
  obtain ⟨b, core, rfl, hb, hcore⟩ := exists_run (· ∈ inlineLetters) text
  have hcomment := h.uncommented
  rw [dropWhile_run hb hcore] at hcomment
  have hne : core ≠ [] := by
    rintro rfl
    obtain ⟨x, hx, hblank⟩ := h.nonblank
    exact hblank (hb x (by simpa using hx))
  have hcore' : ∀ x ∈ core.head?, x ∉ spaceLetters := by
    intro x hx hspace
    exact hcore x hx ((h.inline.suffix (List.suffix_append b core)).mem_inlineLetters (List.mem_of_head? hx) hspace)
  have hc : (Context.top.inside .compound).atomicity ≠ .spaced := Atomicity.noConfusion
  have hb' := spaceLetters_of_inline hb
  have hbegin : ∀ x ∈ (tagBegin ++ (b ++ core) ++ tagEnd).head?, x ∉ spaceLetters := by
    rintro x ⟨⟩
    decide
  have htwins : Twins (Context.top.inside .compound) _ _ _ _ _ :=
    twins_statement rfl (heads_line h.inline hb hne hcore') (fun rest hrest => hcomment ⟨rest, hrest.symm⟩) h.inline rfl
  cases htwins with
  | missed hs hs₀ =>
      have hline := gives_whole_none hc hb' hcore' rfl rfl hne hs
      have htag := gives_whole_none (s := Grammar.initial _) (b := []) hc (List.forall_mem_nil _) hbegin rfl rfl
        (List.cons_ne_nil _ _) hs₀
      exact .inr ⟨error_of_gives rfl rfl hline, error_of_gives rfl rfl htag⟩
  | found hrules hv hblanks hps hs hs₀ =>
      obtain ⟨t, q, ht, hpairs, hq⟩ := gives_whole_one hc hb' hcore' rfl (gives_start rfl)
        (spaceLetters_of_inline hblanks) gives_statement_end rfl hs
      obtain ⟨t₀, q₀, ht₀, hpairs₀, hq₀⟩ := gives_whole_one (s := Grammar.initial _) (b := []) hc
        (List.forall_mem_nil _) hbegin rfl (gives_start rfl) (List.forall_mem_nil _) gives_node_end rfl hs₀
      exact .inl ⟨_, _, oneNode_of_gives rfl rfl ht hpairs hq, oneNode_of_gives rfl rfl ht₀ hpairs₀ hq₀, hrules, hps⟩

end LiquidTemplate
