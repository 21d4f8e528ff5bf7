import LiquidTemplate.Proofs.Peg.Congruence
import LiquidTemplate.Proofs.Peg.Extension
import LiquidTemplate.Proofs.Rule.Dash
import LiquidTemplate.Proofs.Rule.Document

namespace LiquidTemplate

open Text
open Peg Peg.Expr Rule

def tagBegin : List Char := ['{', '%', ' ']

def tagEnd : List Char := [' ', '%', '}']

structure Inline (text : List Char) : Prop where
  unbroken : ∀ x ∈ text, x ∉ ['\n', '\r', '\x0c']
  unended : ¬['%', '}'] <:+: text

theorem lasting_inline : Lasting Inline := by
  intro v w h
  constructor
  · intro x hx
    exact h.unbroken x (List.mem_append_right v hx)
  · intro hw
    exact h.unended (hw.trans (List.suffix_append v w).isInfix)

theorem inline_nil : Inline [] where
  unbroken := List.forall_mem_nil _
  unended h := absurd (List.infix_nil.mp h) (List.cons_ne_nil _ _)

namespace Inline

variable {text : List Char} (h : Inline text)

include h

theorem suffix {w : List Char} (hw : w <:+ text) : Inline w := by
  obtain ⟨v, rfl⟩ := hw
  exact lasting_inline v w h

theorem left {w : List Char} (hw : w <+: text) : Inline w where
  unbroken x hx := h.unbroken x (hw.subset hx)
  unended hend := h.unended (hend.trans hw.isInfix)

theorem mem_inlineLetters {x : Char} (hx : x ∈ text) (hblank : x ∈ spaceLetters) : x ∈ inlineLetters := by
  have hbreak := h.unbroken x hx
  simp only [spaceLetters, inlineLetters, List.mem_cons, List.not_mem_nil, or_false, not_or] at *
  grind

theorem trimmed (hm : Trimmed inlineLetters text) : Trimmed spaceLetters text where
  head x hx hblank := hm.head x hx (h.mem_inlineLetters (List.mem_of_head? hx) hblank)
  last x hx hblank := hm.last x hx (h.mem_inlineLetters (List.mem_of_getLast? hx) hblank)

/-- The end of a tag does not start earlier than it should. -/
theorem not_tagStop (rest : List Char) : text ++ tagEnd ≠ ['%', '}'] ++ rest := by
  intro heq
  rcases text with _ | ⟨x, _ | ⟨y, text⟩⟩
  · cases heq
  · cases heq
  · cases heq
    exact h.unended (List.prefix_append ['%', '}'] text).isInfix

theorem not_dashEnd (rest : List Char) : text ++ tagEnd ≠ dashEnd ++ rest := by
  intro heq
  rcases text with _ | ⟨x, text⟩
  · cases heq
  · obtain ⟨_, heq⟩ := List.cons.inj heq
    exact (h.suffix (List.suffix_cons x text)).not_tagStop rest heq

/-- A tag ends only once. -/
theorem eq_nil_of_tagStop {v rest : List Char} (heq : text ++ tagEnd = v ++ (['%', '}'] ++ rest)) : rest = [] := by
  induction v generalizing text with
  | nil => exact absurd heq (h.not_tagStop rest)
  | cons y v ih =>
      cases text with
      | cons x text => exact ih (h.suffix (List.suffix_cons x text)) (List.cons.inj heq).2
      | nil =>
          have hlength := congrArg List.length heq
          simp only [tagEnd, List.length_append, List.length_cons, List.length_nil] at hlength
          exact List.length_eq_zero_iff.mp (by omega)

end Inline

theorem inline_tagBegin {text : List Char} (h : Inline text) : Inline (tagBegin ++ text) where
  unbroken := List.forall_mem_append.mpr ⟨by simp [tagBegin], h.unbroken⟩
  unended hend := by
    simp [tagBegin, List.infix_cons_iff, h.unended] at hend

theorem spaceLetters_of_inline {v : List Char} (hv : ∀ x ∈ v, x ∈ inlineLetters) : ∀ x ∈ v, x ∈ spaceLetters := by
  intro x hx
  have hblank := hv x hx
  simp only [spaceLetters, inlineLetters, List.mem_cons, List.not_mem_nil, or_false] at *
  grind

/-- A text is blanks, then what is left without them, then blanks. -/
theorem exists_trimmed (xs text : List Char) :
    ∃ b m b', text = b ++ (m ++ b') ∧ (∀ x ∈ b, x ∈ xs) ∧ (∀ x ∈ b', x ∈ xs) ∧ Trimmed xs m ∧ (m = [] → b' = []) := by
  obtain ⟨b, r, rfl, hb, hr⟩ := exists_run (· ∈ xs) text
  obtain ⟨b', m, heq, hb', hm⟩ := exists_run (· ∈ xs) r.reverse
  have hr' : r = m.reverse ++ b'.reverse := by
    rw [← List.reverse_append, ← heq, List.reverse_reverse]
  subst hr'
  refine ⟨b, m.reverse, b'.reverse, rfl, hb, fun x hx => hb' x (List.mem_reverse.mp hx), ⟨?_, ?_⟩, ?_⟩
  · intro x hx
    apply hr x
    rw [List.head?_append, Option.mem_def.mp hx]
    rfl
  · intro x hx
    rw [List.getLast?_reverse] at hx
    exact hm x hx
  · intro hnil
    rw [List.reverse_eq_nil_iff] at hnil
    subst hnil
    cases hrev : b'.reverse with
    | nil => rfl
    | cons y ys =>
        have hy : y ∈ b' := by
          rw [← List.mem_reverse, hrev]
          exact List.mem_cons_self
        exact absurd (hb' y hy) (hr y (by simp [hrev]))

/-- The second state is as far in the tag around a line as the first one is in the line. -/
structure Beside (s s' : State Rule) : Prop where
  rest_eq : s'.rest = s.rest ++ tagEnd
  offset_eq : s'.offset = s.offset + byteLength tagBegin
  inline : Inline s.rest

structure Tracks (p p' : Pair Rule) : Prop where
  start_eq : p'.start = p.start + byteLength tagBegin
  stop_eq : p'.stop = p.stop + byteLength tagBegin
  text_eq : p'.text = p.text
  name_eq : Token.isTagNameRule p'.rule = Token.isTagNameRule p.rule
  markup_eq : Token.isTagMarkupRule p'.rule = Token.isTagMarkupRule p.rule
  part : Token.isTagNameRule p.rule ∨ Token.isTagMarkupRule p.rule

/-- The expressions take the same part of a line, and of the tag around it after the text `lead`, or both fail. -/
inductive Along (c : Context) (lead : List Char) (a a' : Expr Rule) (s s' : State Rule) : Prop
  | missed : Gives grammar c a s none → Gives grammar c a' s' none → Along c lead a a' s s'
  | found {v rest : List Char} {ps ps' : List (Pair Rule)} : s.rest = v ++ rest →
      Gives grammar c a s (some (s.past v rest ps)) →
      Gives grammar c a' s' (some (s'.past (lead ++ v) (rest ++ tagEnd) ps')) →
      List.Forall₂ Tracks ps ps' → Along c lead a a' s s'

variable {c : Context} {s s' : State Rule} {v rest : List Char} {a a' b b' : Expr Rule} {r r' : Rule}

theorem Beside.over (h : Beside s s') (hs : s.rest = v ++ rest) :
    Beside (s.over v rest) (s'.over v (rest ++ tagEnd)) where
  rest_eq := rfl
  offset_eq := by
    change s'.offset + byteLength v = s.offset + byteLength v + byteLength tagBegin
    rw [h.offset_eq]
    omega
  inline := h.inline.suffix ⟨v, hs.symm⟩

theorem Beside.tracks (h : Beside s s') (r r' : Rule) (hname : Token.isTagNameRule r' = Token.isTagNameRule r)
    (hmarkup : Token.isTagMarkupRule r' = Token.isTagMarkupRule r)
    (hpart : Token.isTagNameRule r ∨ Token.isTagMarkupRule r) (w : List Char) (ps ps' : List (Pair Rule)) :
    Tracks (s.pair r w ps) (s'.pair r' w ps') where
  start_eq := h.offset_eq
  stop_eq := by
    change s'.offset + byteLength w = s.offset + byteLength w + byteLength tagBegin
    rw [h.offset_eq]
    omega
  text_eq := rfl
  name_eq := hname
  markup_eq := hmarkup
  part := hpart

namespace Along

theorem seq (hc : c.atomicity ≠ .spaced) {lead : List Char} (hs : Beside s (s'.over lead (s.rest ++ tagEnd)))
    (ha : Along c lead a a' s s') (hb : ∀ {t t'}, Beside t t' → Along c [] b b' t t') :
    Along c lead (.seq a b) (.seq a' b') s s' := by
  cases ha with
  | missed ha ha' => exact .missed ha.seq_none ha'.seq_none
  | @found v rest ps ps' hv ha ha' hps =>
      have hbeside := hs.over hv
      rw [State.over_over] at hbeside
      cases hb hbeside with
      | missed hb hb' => exact .missed (ha.seq_past_none hc hb) (ha'.seq_past_none hc hb')
      | @found w rest' qs qs' hw hb hb' hqs =>
          have h' := ha'.seq_past hc hb'
          rw [List.nil_append, List.append_assoc] at h'
          refine .found ?_ (ha.seq_past hc hb) h' (List.rel_append hqs hps)
          rw [hv, List.append_assoc]
          exact congrArg (v ++ ·) hw

/-- The start of the tag comes before what is along the line. -/
theorem behind {lead : List Char} (hc : c.atomicity ≠ .spaced)
    (hb : Gives grammar c b s' (some (s'.over lead (s.rest ++ tagEnd))))
    (ha : Along c [] a a' s (s'.over lead (s.rest ++ tagEnd))) : Along c lead a (.seq b a') s s' := by
  cases ha with
  | missed ha ha' => exact .missed ha (hb.seq hc ha')
  | @found v rest ps ps' hv ha ha' hps =>
      have h' := hb.seq_past hc ha'
      rw [List.nil_append, List.append_nil] at h'
      exact .found hv ha h' hps

/-- The tag goes on with a blank where the line ends, which makes no difference to what never takes one. -/
theorem of_shuns {o : Option (State Rule)} (hc : c.atomicity ≠ .spaced) (hs : Beside s s')
    (hagree : Agree grammar Inline a a') (ha' : a'.shuns grammar ' ') (h : Gives grammar c a s o) :
    Along c [] a a' s s' := by
  have hsame := hagree c s o hc hs.inline h
  cases hsame.extend hc ha' hs.rest_eq with
  | missed h' => exact .missed h h'
  | found hv h' => exact .found hv h h' .nil

theorem word {w : List Char} (hw : ' ' ∉ w) (hc : c.atomicity ≠ .spaced) (hs : Beside s s') :
    Along c [] (.word w) (.word w) s s' :=
  of_shuns hc hs (.refl _) (by simpa [Expr.shuns] using hw) (gives_word.mpr rfl)

theorem name (hr : Token.isTagNameRule r) (hr' : Token.isTagNameRule r') (hneeds : r.needs = 0)
    (hkind : grammar.kind r = .atomic) (hkind' : grammar.kind r' = .atomic)
    (hagree : Agree grammar Inline (grammar.body r) (grammar.body r')) (hshuns : (grammar.body r').shuns grammar ' ')
    (hc : c.leavesPair) (hs : Beside s s') : Along c [] (call r) (call r') s s' := by
  obtain ⟨o, hbody⟩ := gives_body hneeds (c.inside .atomic) s
  cases of_shuns Atomicity.noConfusion hs hagree hshuns hbody with
  | missed h h' =>
      exact .missed (.pair_none hkind Kind.noConfusion rfl hc h) (.pair_none hkind' Kind.noConfusion rfl hc h')
  | found hv h h' =>
      have hpair := hs.tracks r r' (hr'.trans hr.symm)
        ((not_isTagMarkupRule r' hr').trans (not_isTagMarkupRule r hr).symm) (.inl hr)
      have hv' := hs.rest_eq
      rw [hv, List.append_assoc] at hv'
      exact .found hv (.pair_past hkind Kind.noConfusion rfl hc hv h)
        (.pair_past hkind' Kind.noConfusion rfl hc hv' h') (.cons (hpair _ _ _) .nil)

end Along

/-- No name ends early for the sake of the end of a tag. -/
theorem barred_dashEnd : Barred grammar Inline (lit "-" ++ tagStop) := by
  intro c s hc hs
  by_cases hdash : ∃ rest, s.rest = ['-'] ++ rest
  · obtain ⟨rest, hrest⟩ := hdash
    refine (gives_word_over hrest).seq hc (gives_word_none ?_)
    rintro more (hmore : rest = _)
    refine hs.unended ?_
    rw [hrest, hmore]
    exact ⟨['-'], more, rfl⟩
  · exact (gives_word_none fun rest hrest => hdash ⟨rest, hrest⟩).seq_none

theorem agree_statementName : Agree grammar Inline (grammar.body statementName) (grammar.body tagName) :=
  .alt (.refl _) (.seq lasting_inline (.refl _) (.many lasting_inline (.guard barred_dashEnd)))

theorem along_statementName (hc : c.leavesPair) (hs : Beside s s') :
    Along c [] (call statementName) (call tagName) s s' :=
  .name rfl rfl rfl rfl rfl agree_statementName (by decide) hc hs

theorem along_blockName (hc : c.leavesPair) (hs : Beside s s') : Along c [] (call blockName) (call blockName) s s' :=
  .name rfl rfl rfl rfl rfl (.refl _) (by decide) hc hs

theorem along_closeName (hc : c.leavesPair) (hs : Beside s s') : Along c [] (call closeName) (call closeName) s s' :=
  .name rfl rfl rfl rfl rfl (.refl _) (by decide) hc hs

theorem takesWords_line : TakesWords grammar inlineSpace lineWord inlineLetters (call inlineSpace ||| lineBreak) where
  blank_silent := rfl
  letters := by decide
  silent := rfl
  body := rfl
  stops hx hs := ⟨_, (gives_letter_over rfl (by decide) hx hs).first⟩

theorem takesWords_markup : TakesWords grammar space markupWord spaceLetters
    (call space ||| word ['-', '%', '}'] ||| tagStop) where
  blank_silent := rfl
  letters := by decide
  silent := rfl
  body := rfl
  stops hx hs := ⟨_, (gives_letter_over rfl (by decide) hx hs).first.first⟩

theorem gives_lineBreak_none (hs : Inline s.rest) : Gives grammar c lineBreak s none := by
  have hword : ∀ y w, y ∈ ['\n', '\r', '\x0c'] → Gives grammar c (.word (y :: w)) s none := by
    intro y w hy
    apply gives_word_none
    intro rest hrest
    exact hs.unbroken y (by simp [hrest]) hy
  exact ((hword '\n' [] (by decide)).alt (hword '\r' ['\n'] (by decide))).alt (hword '\r' [] (by decide))

theorem gives_lineStop_none (hs : Inline s.rest) (hblank : ∀ x ∈ s.rest.head?, x ∉ inlineLetters) :
    Gives grammar c (call inlineSpace ||| lineBreak) s none :=
  (gives_letter_none rfl (by decide) hblank).alt (gives_lineBreak_none hs)

theorem gives_markupStop_none (hv : Inline v) (hblank : ∀ x ∈ s.rest.head?, x ∉ spaceLetters)
    (hs : s.rest = v ++ tagEnd) : Gives grammar c (call space ||| word ['-', '%', '}'] ||| tagStop) s none := by
  have hdash : Gives grammar c (word ['-', '%', '}']) s none := gives_word_none fun rest => hs ▸ hv.not_dashEnd rest
  have hstop : Gives grammar c tagStop s none := gives_word_none fun rest => hs ▸ hv.not_tagStop rest
  exact ((gives_letter_none rfl (by decide) hblank).alt hdash).alt hstop

theorem spaceLetters_snoc {b : List Char} (hb : ∀ x ∈ b, x ∈ spaceLetters) : ∀ x ∈ b ++ [' '], x ∈ spaceLetters :=
  List.forall_mem_append.mpr ⟨hb, List.forall_mem_singleton.mpr (by decide)⟩

theorem head_percent {rest : List Char} : ∀ x ∈ ('%' :: rest).head?, x ∉ spaceLetters := by
  rintro x ⟨⟩
  decide

theorem gives_markupStop (hs : s.rest = ['%', '}']) :
    Gives grammar c (call space ||| word ['-', '%', '}'] ||| tagStop) s (some (s.over ['%', '}'] [])) := by
  have hhead : ∀ x ∈ s.rest.head?, x ∉ spaceLetters := by
    rw [hs]
    exact head_percent
  have hblank : Gives grammar c (call space) s none := gives_letter_none rfl (by decide) hhead
  have hdash : Gives grammar c (word ['-', '%', '}']) s none := gives_word_none (by simp [hs])
  exact (hblank.alt hdash).alt (gives_word_over hs)

section Markup

variable {blank : Rule} {m : List Char} (hkind : grammar.kind r = .atomic) (hc : c.leavesPair)
  (hc' : c.atomicity ≠ .spaced)

include hkind hc hc'

theorem gives_marked {b : List Char} (hblanks : Gives grammar c (.many (.call blank)) s (some (s.over b (m ++ rest))))
    (hwords : Gives grammar (c.inside .atomic) (grammar.body r) (s.over b (m ++ rest))
      (some ((s.over b (m ++ rest)).over m rest))) :
    Gives grammar c (.opt (.seq (.many (.call blank)) (.call r))) s
      (some (s.past (b ++ m) rest [(s.over b (m ++ rest)).pair r m []])) := by
  have hpair := Gives.pair_past hkind Kind.noConfusion rfl hc rfl hwords
  exact gives_opt.mpr (.inl ⟨_, hblanks.seq_past hc' hpair, rfl⟩)

theorem gives_unmarked {b : List Char} (hblanks : Gives grammar c (.many (.call blank)) s (some (s.over b rest)))
    (hwords : Gives grammar (c.inside .atomic) (grammar.body r) (s.over b rest) none) :
    Gives grammar c (.opt (.seq (.many (.call blank)) (.call r))) s (some s.bare) := by
  have hnone := Gives.pair_none hkind Kind.noConfusion rfl hc hwords
  exact gives_opt.mpr (.inr ⟨hblanks.seq hc' hnone, rfl⟩)

end Markup

theorem gives_inlineSpaces {more : List Char} (hc : c.atomicity ≠ .spaced) (hv : ∀ x ∈ v, x ∈ inlineLetters)
    (hmore : ∀ x ∈ more.head?, x ∉ inlineLetters) (hs : s.rest = v ++ more) :
    Gives grammar c inlineSpaces s (some (s.over v more)) :=
  gives_blanks hc rfl (by decide) hv hmore hs

section Words

variable {m b : List Char}

theorem gives_statementMarkup (hc : c.atomicity ≠ .spaced) (hne : m ≠ []) (hm : Trimmed inlineLetters m)
    (hb : ∀ x ∈ b, x ∈ inlineLetters) (hinline : Inline (m ++ b)) (hs : s.rest = m ++ b) :
    Gives grammar c (grammar.body statementMarkup) s (some (s.over m b)) := by
  have hend : ∀ {s}, s.rest = [] → Gives grammar c (Expr.unless (call inlineSpace ||| lineBreak)) s none := by
    intro s hs
    exact gives_unless_end hc (gives_lineStop_none (hs ▸ inline_nil) (by simp [hs])) hs
  have hgo : ∀ {s x r}, x ∉ inlineLetters → x :: r <:+ m → s.rest = x :: (r ++ (b ++ [])) →
      Gives grammar c.notAhead (call inlineSpace ||| lineBreak) s none := by
    intro s x r hx hsuffix hs
    refine gives_lineStop_none ?_ (by simpa [hs] using hx)
    rw [hs, List.append_nil]
    obtain ⟨u, rfl⟩ := hsuffix
    exact hinline.suffix ⟨u, by simp⟩
  have h := takesWords_line.gives hc hb (by simp) hend hne hm hgo (by simpa using hs)
  rw [List.append_nil] at h
  exact h

theorem gives_tagMarkup (hc : c.atomicity ≠ .spaced) (hne : m ≠ []) (hm : Trimmed spaceLetters m)
    (hb : ∀ x ∈ b, x ∈ spaceLetters) (hinline : Inline (m ++ b)) (hs : s.rest = m ++ (b ++ tagEnd)) :
    Gives grammar c (grammar.body tagMarkup) s (some (s.over m (b ++ tagEnd))) := by
  have hgo : ∀ {s x r}, x ∉ spaceLetters → x :: r <:+ m → s.rest = x :: (r ++ (b ++ tagEnd)) →
      Gives grammar c.notAhead (call space ||| word ['-', '%', '}'] ||| tagStop) s none := by
    intro t x r hx hsuffix ht
    obtain ⟨u, rfl⟩ := hsuffix
    have hline : Inline (x :: r ++ b) := hinline.suffix ⟨u, by simp⟩
    exact gives_markupStop_none hline (by simpa [ht] using hx) (by simp [ht])
  have hend : ∀ {s}, s.rest = ['%', '}'] →
      Gives grammar c (Expr.unless (call space ||| word ['-', '%', '}'] ||| tagStop)) s none :=
    fun hs => gives_unless_stop (gives_markupStop hs)
  have hsplit : b ++ [' '] ++ ['%', '}'] = b ++ tagEnd := by rw [List.append_assoc, tagEnd, List.singleton_append]
  rw [← hsplit] at hs hgo ⊢
  exact takesWords_markup.gives hc (spaceLetters_snoc hb) head_percent hend hne hm hgo hs

end Words

/-- The markup of a statement is that of the tag around it, up to the blanks at the end. -/
theorem gives_markups (hc : c.leavesPair) (hc' : c.atomicity ≠ .spaced) (hs : Beside s s') :
    ∃ v b ps ps', s.rest = v ++ b ∧ (∀ x ∈ b, x ∈ inlineLetters) ∧ List.Forall₂ Tracks ps ps' ∧
      Gives grammar c (opt (inlineSpaces ++ call statementMarkup)) s (some (s.past v b ps)) ∧
      Gives grammar c (opt (spaces ++ call tagMarkup)) s' (some (s'.past v (b ++ tagEnd) ps')) := by
  obtain ⟨b, m, b', hrest, hb, hb', hm, hnil⟩ := exists_trimmed inlineLetters s.rest
  have hinline := hs.inline
  rw [hrest] at hinline
  have hatomic : (c.inside .atomic).atomicity ≠ .spaced := Atomicity.noConfusion
  by_cases hm' : m = []
  · subst hm'
    cases hnil rfl
    rw [List.nil_append, List.append_nil] at hrest
    have hrest' : s'.rest = b ++ [' '] ++ ['%', '}'] := by
      rw [hs.rest_eq, hrest, tagEnd, List.append_assoc, List.singleton_append]
    have hblanks : Gives grammar c inlineSpaces s (some (s.over b [])) :=
      gives_inlineSpaces hc' hb (by simp) (by simpa using hrest)
    have hblanks' := gives_spaces hc' (spaceLetters_snoc (spaceLetters_of_inline hb)) head_percent hrest'
    have hnone : Gives grammar (c.inside .atomic) (grammar.body statementMarkup) (s.over b []) none :=
      gives_none_at_end (k := 0) (by decide) (by decide) (by decide) _ rfl
    have hnone' : Gives grammar (c.inside .atomic) (grammar.body tagMarkup) (s'.over (b ++ [' ']) ['%', '}']) none :=
      (takesWords_markup.gives_none (gives_unless_stop (gives_markupStop rfl))).seq_none
    have h := gives_unmarked rfl hc hc' hblanks hnone
    have h' := gives_unmarked rfl hc hc' hblanks' hnone'
    rw [← State.over_nil s hrest] at h
    rw [← State.over_nil s' (hs.rest_eq.trans (congrArg (· ++ tagEnd) hrest))] at h'
    exact ⟨[], b, [], [], hrest, hb, .nil, h, h'⟩
  · have hinline' := lasting_inline b (m ++ b') hinline
    have htrimmed : Trimmed spaceLetters m := (hinline'.left (List.prefix_append m b')).trimmed hm
    have hrest' : s'.rest = b ++ (m ++ (b' ++ tagEnd)) := by
      rw [hs.rest_eq, hrest, List.append_assoc, List.append_assoc]
    have hhead : ∀ {xs more}, Trimmed xs m → ∀ x ∈ (m ++ more).head?, x ∉ xs := by
      intro xs more hm x hx
      cases m with
      | nil => exact absurd rfl hm'
      | cons y m => exact hm.head x hx
    have hblanks := gives_inlineSpaces hc' hb (hhead hm) hrest
    have hblanks' := gives_spaces hc' (spaceLetters_of_inline hb) (hhead htrimmed) hrest'
    have hbeside : Beside (s.over b (m ++ b')) (s'.over b (m ++ (b' ++ tagEnd))) := by
      rw [← List.append_assoc]
      exact hs.over hrest
    refine ⟨b ++ m, b', _, _, by rw [hrest, List.append_assoc], hb', ?_, gives_marked rfl hc hc' hblanks ?_,
      gives_marked rfl hc hc' hblanks' ?_⟩
    · exact .cons (hbeside.tracks statementMarkup tagMarkup rfl rfl (.inr rfl) m [] []) .nil
    · exact gives_statementMarkup hatomic hm' hm hb' hinline' rfl
    · exact gives_tagMarkup hatomic hm' htrimmed (spaceLetters_of_inline hb') hinline' rfl

end LiquidTemplate
