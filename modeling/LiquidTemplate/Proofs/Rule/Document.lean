import Mathlib.Data.List.Forall2
import LiquidTemplate.Proofs.Peg.Congruence
import LiquidTemplate.Proofs.Peg.Runs
import LiquidTemplate.Proofs.Rule.Tag
import LiquidTemplate.Proofs.Rule.Totality

namespace LiquidTemplate

open Text
open Peg Peg.Expr Rule

def Plain (text : List Char) : Prop := '<' ∉ text

theorem lasting_plain : Lasting Plain := by
  intro v w h hw
  exact h (List.mem_append_right v hw)

theorem not_plain_append (w rest : List Char) : ¬Plain ('<' :: w ++ rest) := by
  intro h
  exact h (by simp)

variable {c : Context} {s : State Rule} {o : Option (State Rule)}

/-- A rule of HTML fails on a plain text. -/
theorem barred_html {r : Rule} {w : List Char} (hr : r.needs = 0) (hopens : (grammar.body r).opens = some ('<' :: w)) :
    Barred grammar Plain (call r) := by
  intro c s _ hs
  refine gives_call_none hr hopens c ?_
  intro rest hrest
  rw [hrest] at hs
  exact not_plain_append w rest hs

theorem agree_textStop : Agree grammar Plain (call htmlTextStop) (call liquidTextStop) := by
  have helement : Barred grammar Plain (lit "<" ++ (alpha ||| lit "/" ||| lit "!" ||| outputStart)) :=
    Barred.seq (Barred.word (not_plain_append []))
  exact .silent rfl rfl (.alt (.leave_out helement) (.refl _))

theorem agree_textWord : Agree grammar Plain (call textWord) (call liquidWord) :=
  .silent rfl rfl (.until1 lasting_plain (.alt (.refl _) agree_textStop))

theorem agree_text : Agree grammar Plain (grammar.body textNode) (grammar.body liquidTextNode) :=
  .seq lasting_plain agree_textWord (.many lasting_plain (.seq lasting_plain (.refl _) agree_textWord))

/-- The pair of a text, by either of the rules for texts, or any other pair. -/
def Retold (p p' : Pair Rule) : Prop := p' = p ∨ (p.rule = textNode ∧ p' = { p with rule := liquidTextNode })

inductive RetoldIn : Option (State Rule) → Option (State Rule) → Prop
  | none : RetoldIn none none
  | some {t t' : State Rule} : t.Same t' → List.Forall₂ Retold t.pairs t'.pairs → RetoldIn (some t) (some t')

namespace RetoldIn

variable {o' : Option (State Rule)}

theorem refl (o : Option (State Rule)) : RetoldIn o o := by
  cases o with
  | none => exact .none
  | some t => exact .some (.refl t) (List.forall₂_same.mpr fun _ _ => .inl rfl)

theorem onto {ps ps' : List (Pair Rule)} (h : RetoldIn o o') (hps : List.Forall₂ Retold ps ps') :
    RetoldIn (o.map (·.onto ps)) (o'.map (·.onto ps')) := by
  cases h with
  | none => exact .none
  | some hsame hpairs => exact .some ⟨hsame.rest, hsame.offset, hsame.stack⟩ (List.rel_append hpairs hps)

end RetoldIn

/-- On plain texts, the second expression gives what the first one does, up to the rules for texts. -/
def Retells (a a' : Expr Rule) : Prop :=
  ∀ c s o, c.leavesPair → c.atomicity ≠ .spaced → Plain s.rest → Gives grammar c a s o →
    ∃ o', Gives grammar c a' s o' ∧ RetoldIn o o'

namespace Retells

variable {a a' b b' : Expr Rule}

theorem refl (a : Expr Rule) : Retells a a := fun _ _ o _ _ _ h => ⟨o, h, .refl o⟩

theorem seq (ha : Retells a a') (hb : Retells b b') : Retells (.seq a b) (.seq a' b') := by
  intro c s o hc hc' hs h
  rcases (gives_seq_meets hc').mp h with ⟨hfirst, rfl⟩ | ⟨t, ob, hfirst, hsecond, rfl⟩
  · obtain ⟨o', hfirst, hretold⟩ := ha c s none hc hc' hs hfirst
    cases hretold with
    | none => exact ⟨none, hfirst.seq_none, .none⟩
  · have ht := lasting_plain.reaches hs hfirst.reaches
    obtain ⟨o', hfirst, hretold⟩ := ha c s _ hc hc' hs hfirst
    cases hretold with
    | some hsame hpairs =>
        obtain ⟨ob', hsecond, hretold⟩ := hb c t ob hc hc' ht hsecond
        exact ⟨_, hfirst.seq hc' (hsecond.same hsame), hretold.onto hpairs⟩

theorem many (ha : Retells a a') : Retells (.many a) (.many a') := by
  intro c s o hc hc' hs h
  refine h.many_induct (P := fun s o => Plain s.rest → ∃ o', Gives grammar c (.many a') s o' ∧ RetoldIn o o')
    hc' ?_ ?_ hs
  · intro s h hs
    obtain ⟨o', h', hretold⟩ := ha c s none hc hc' hs h
    cases hretold with
    | none => exact ⟨some s.bare, (gives_many hc').mpr (.inl ⟨h', rfl⟩), .refl _⟩
  · intro s t o h _ ih hs
    obtain ⟨o', hfirst, hretold⟩ := ha c s _ hc hc' hs h
    cases hretold with
    | some hsame hpairs =>
        obtain ⟨ob, hmore, hretold⟩ := ih (lasting_plain.reaches hs h.reaches)
        exact ⟨_, (gives_many hc').mpr (.inr ⟨_, ob, hfirst, hmore.same hsame, rfl⟩), hretold.onto hpairs⟩

end Retells

theorem retells_text : Retells (call textNode) (call liquidTextNode) := by
  intro c s o hc hc' hs h
  have hleaves := Context.leavesPair_outside c .atomic hc
  have hagree : ∀ o, Gives grammar (c.inside .atomic) (grammar.body textNode) s o →
      Gives grammar (c.inside .atomic) (grammar.body liquidTextNode) s o :=
    fun o => agree_text _ s o Atomicity.noConfusion hs
  rcases (gives_pair Kind.noConfusion hleaves).mp h with ⟨t, hbody, rfl⟩ | ⟨hbody, rfl⟩
  · have hpair : Retold ⟨textNode, s.offset, t.offset, s.consumed t, t.pairs.reverse⟩
        ⟨liquidTextNode, s.offset, t.offset, s.consumed t, t.pairs.reverse⟩ := .inr ⟨rfl, rfl⟩
    exact ⟨_, (gives_pair Kind.noConfusion hleaves).mpr (.inl ⟨t, hagree _ hbody, rfl⟩),
      .some ⟨rfl, rfl, rfl⟩ (.cons hpair .nil)⟩
  · exact ⟨none, (gives_pair Kind.noConfusion hleaves).mpr (.inr ⟨hagree _ hbody, rfl⟩), .none⟩

theorem barred_element : Barred grammar Plain (call htmlDoctype ||| call htmlComment ||| call htmlRawTag
    ||| call htmlVoidElement ||| call htmlSelfClosing ||| call htmlTagClose ||| call htmlTagOpen) :=
  .alt (.alt (.alt (.alt (.alt (.alt (barred_html rfl rfl) (barred_html rfl rfl)) (barred_html rfl rfl))
    (barred_html rfl rfl)) (barred_html rfl rfl)) (barred_html rfl rfl)) (barred_html rfl rfl)

theorem retells_node : Retells (call htmlNode) (call liquidNode ||| call liquidTextNode) := by
  intro c s o hc hc' hs h
  rw [gives_silent rfl] at h
  have helement := barred_element c s hc' hs
  rcases gives_alt.mp h with ⟨t, hliquid, rfl⟩ | ⟨hnone, htext⟩
  · rcases gives_alt.mp hliquid with ⟨t', hsome, _⟩ | ⟨_, hliquid⟩
    · cases hsome.unique helement
    · exact ⟨some t, hliquid.first, .refl _⟩
  · rcases gives_alt.mp hnone with ⟨t', hsome, _⟩ | ⟨_, hliquid⟩
    · cases hsome.unique helement
    · obtain ⟨o', htext, hretold⟩ := retells_text c s o hc hc' hs htext
      exact ⟨o', hliquid.alt htext, hretold⟩

theorem retells_nodes : Retells (many (spaces ++ call htmlNode))
    (many (spaces ++ (call liquidNode ||| call liquidTextNode))) :=
  .many (.seq (.refl _) retells_node)

theorem gives_spaces {v more : List Char} (hc : c.atomicity ≠ .spaced) (hv : ∀ x ∈ v, x ∈ spaceLetters)
    (hmore : ∀ x ∈ more.head?, x ∉ spaceLetters) (hs : s.rest = v ++ more) :
    Gives grammar c spaces s (some (s.over v more)) :=
  gives_blanks hc rfl (by decide) hv hmore hs

/-- Nodes may be looked for before or after the blanks in front of them. -/
theorem gives_spaced_nodes {node : Expr Rule} {v more : List Char} {m : State Rule} (hc : c.atomicity ≠ .spaced)
    (hv : ∀ x ∈ v, x ∈ spaceLetters) (hmore : ∀ x ∈ more.head?, x ∉ spaceLetters) (hs : s.rest = v ++ more)
    (h : Gives grammar c (many (spaces ++ node)) (s.over v more) (some m)) :
    ∃ m', Gives grammar c (many (spaces ++ node)) s (some m') ∧ m'.pairs = m.pairs ∧
      ∀ {o}, Gives grammar c spaces m o → Gives grammar c spaces m' o := by
  have hblanks := gives_spaces hc hv hmore hs
  have hidle : Gives grammar c spaces (s.over v more) (some (s.over v more)) := by
    have h := gives_spaces (s := s.over v more) hc (List.forall_mem_nil _) hmore rfl
    rwa [State.over_over, List.append_nil] at h
  have hround : ∀ {o}, Gives grammar c (spaces ++ node) (s.over v more) o → Gives grammar c (spaces ++ node) s o := by
    intro o h
    rcases (gives_seq_meets hc).mp h with ⟨hnone, _⟩ | ⟨t, o', ht, hnode, rfl⟩
    · cases hnone.unique hidle
    · cases ht.unique hidle
      exact hblanks.seq hc hnode
  rcases (gives_many hc).mp h with ⟨hnone, heq⟩ | ⟨t, o', ht, hrest, heq⟩
  · refine ⟨s.bare, (gives_many hc).mpr (.inl ⟨hround hnone, rfl⟩), ?_, ?_⟩
    · rw [Option.some.inj heq]
      rfl
    · intro o ho
      rw [Option.some.inj heq] at ho
      rw [(ho.same ⟨rfl, rfl, rfl⟩).unique hidle]
      exact hblanks.same ⟨rfl, rfl, rfl⟩
  · exact ⟨m, (gives_many hc).mpr (.inr ⟨t, o', hround ht, hrest, heq⟩), rfl, id⟩

def Frontless (text : List Char) : Prop := ¬"---".toList <+: text.dropWhile (spaceLetters.contains ·)

theorem gives_noFrontmatter {more : List Char} (hmore : ¬"---".toList <+: more) (hs : s.rest = more) :
    Gives grammar c (opt (call yamlFrontmatter)) s (some s.bare) := by
  refine gives_opt.mpr (.inr ⟨gives_call_none rfl rfl c ?_, rfl⟩)
  intro rest hrest
  refine hmore ?_
  rw [← hs, hrest]
  exact List.prefix_append _ _

/-- A plain text without front matter is cut the same by both of the rules for documents. -/
theorem retold_document (hc : c.leavesPair) (hc' : c.atomicity ≠ .spaced) (hs : Plain s.rest)
    (hfront : Frontless s.rest) (hoffset : s.offset = 0) (h : Gives grammar c (grammar.body liquidHtmlDocument) s o) :
    ∃ o', Gives grammar c (grammar.body liquidDocument) s o' ∧ RetoldIn o o' := by
  obtain ⟨v, more, hrest, hv, hmore⟩ := exists_run (· ∈ spaceLetters) s.rest
  have hdrop : s.rest.dropWhile (spaceLetters.contains ·) = more := by rw [hrest, dropWhile_run hv hmore]
  have hstart : Gives grammar c start s (some s.bare) := gives_start hoffset
  have hlead : Gives grammar c (start ++ spaces ++ opt (call yamlFrontmatter)) s (some (s.over v more)) := by
    have hblanks : Gives grammar c spaces s.bare (some (s.over v more)) :=
      (gives_spaces hc' hv hmore hrest).same ⟨rfl, rfl, rfl⟩
    have hnone : Gives grammar c (opt (call yamlFrontmatter)) (s.over v more) (some (s.over v more)) :=
      gives_noFrontmatter (hdrop ▸ hfront) rfl
    have hall := (hstart.seq hc' hblanks).seq hc' (hnone.same ⟨rfl, rfl, rfl⟩)
    simp only [Option.map_some, State.pairs_over, State.pairs_bare, State.onto_nil] at hall
    exact hall
  obtain ⟨om, hm⟩ : ∃ om, Gives grammar c (many (spaces ++ call htmlNode)) (s.over v more) om :=
    Grammar.gives_total bounded_grammar balanced_grammar c (by decide) ⟨0, 0, by decide, Nat.zero_le _⟩
  obtain ⟨m, rfl, _⟩ := hm.many_stop hc'
  obtain ⟨oz, hz⟩ : ∃ oz, Gives grammar c spaces m oz :=
    Grammar.gives_total bounded_grammar balanced_grammar c (by decide) ⟨0, 0, by decide, Nat.zero_le _⟩
  obtain ⟨z, rfl, _⟩ := hz.many_stop hc'
  obtain ⟨oe, he⟩ := gives_call (r := endOfInput) rfl c z
  have hhtml := ((hlead.seq hc' hm).seq hc' (hz.same ⟨rfl, rfl, rfl⟩)).seq hc' (he.same ⟨rfl, rfl, rfl⟩)
  have hplain : Plain (s.over v more).rest := lasting_plain v more (hrest ▸ hs)
  obtain ⟨om', hm', hretold⟩ := retells_nodes c _ _ hc hc' hplain hm
  cases hretold with
  | @some _ m' hsame hpairs =>
      obtain ⟨m₀, hm₀, hpairs₀, hspaces⟩ := gives_spaced_nodes hc' hv hmore hrest hm'
      have hz' := hspaces (hz.same hsame)
      have hliquid := ((hstart.seq hc' (hm₀.same ⟨rfl, rfl, rfl⟩)).seq hc' (hz'.same ⟨rfl, rfl, rfl⟩)).seq hc'
        (he.same ⟨rfl, rfl, rfl⟩)
      refine ⟨_, hliquid, ?_⟩
      rw [h.unique hhtml]
      refine (RetoldIn.refl oe).onto (List.rel_append (List.forall₂_same.mpr fun _ _ => .inl rfl) ?_)
      simpa [hpairs₀] using hpairs

end LiquidTemplate
