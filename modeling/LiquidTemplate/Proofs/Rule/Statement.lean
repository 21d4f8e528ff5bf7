import LiquidTemplate.Proofs.Rule.Twins

namespace LiquidTemplate

open Text
open Peg Peg.Expr Rule

variable {c : Context} {s : State Rule} {x : Char} {w m rest : List Char}

theorem gives_idStart : Gives grammar c (call idStart) s (s.one? isNameStart) :=
  (gives_silent rfl).mpr (gives_test rfl)

theorem gives_idChar : Gives grammar c (call idChar) s (s.one? isNameChar) :=
  (gives_silent rfl).mpr (gives_test rfl)

theorem gives_name (hc : c.atomicity ≠ .spaced) (hx : isNameStart x) (hw : ∀ y ∈ w, isNameChar y)
    (hrest : ∀ y ∈ rest.head?, isNameChar y = false) (hs : s.rest = x :: (w ++ rest)) :
    Gives grammar c (call idStart ++ many (call idChar)) s (some (s.over (x :: w) rest)) :=
  gives_run hc (fun _ => gives_idStart) (fun _ => gives_idChar) hx hw hrest hs

theorem gives_statementName (hc : c.atomicity ≠ .spaced) (hx : isNameStart x) (hw : ∀ y ∈ w, isNameChar y)
    (hrest : ∀ y ∈ rest.head?, isNameChar y = false) (hs : s.rest = x :: (w ++ rest)) :
    Gives grammar c (grammar.body statementName) s (some (s.over (x :: w) rest)) := by
  have hhash : Gives grammar c (lit "#") s none := by
    apply gives_word_none_of_head
    rw [hs]
    rintro ⟨⟩
    exact absurd hx (by decide)
  exact hhash.alt (gives_name hc hx hw hrest hs)

def reservedLetters : List Char := ['c', 'e', 'f', 'i', 'p', 't', 'u']

theorem gives_reserved_none (hx : x ∉ reservedLetters) (hs : s.rest = x :: rest) {y : Char} (hy : y ∈ reservedLetters)
    (w : List Char) : Gives grammar c (.word (y :: w)) s none := by
  apply gives_word_none_of_head
  rw [hs]
  rintro ⟨⟩
  exact hx hy

theorem gives_blockName_none (hc : c.leavesPair) (hx : x ∉ reservedLetters) (hs : s.rest = x :: rest) :
    Gives grammar c (call blockName) s none := by
  have hword : ∀ {c} y w, y ∈ reservedLetters → Gives grammar c (.word (y :: w)) s none :=
    fun y w hy => gives_reserved_none hx hs hy w
  have hbody : Gives grammar (c.inside .atomic) (grammar.body blockName) s none := by
    refine Gives.seq_none (.alt (.alt (.alt (.alt (.alt (.alt (.alt ?_ ?_) ?_) ?_) ?_) ?_) ?_) ?_)
    all_goals exact hword _ _ (by decide)
  exact .pair_none rfl Kind.noConfusion rfl hc hbody

section Tag

variable (hname : isNameStart x) (hw : ∀ y ∈ w, isNameChar y) (hm : m ≠ []) (htrimmed : Trimmed inlineLetters m)
  (hinline : Inline m)

include hname hw hm htrimmed hinline

theorem gives_statementTag (hc : c.leavesPair) (hs : s.rest = x :: w ++ ' ' :: m) :
    Gives grammar c (call statementTag) s (some (s.past (x :: w ++ ' ' :: m) []
      [s.pair statementTag (x :: w ++ ' ' :: m) [s.pair statementName (x :: w) [],
        (s.over (x :: w ++ [' ']) m).pair statementMarkup m []]])) := by
  have hc' : (c.inside .compound).atomicity ≠ .spaced := Atomicity.noConfusion
  have hword : Gives grammar ((c.inside .compound).inside .atomic) (grammar.body statementName) s
      (some (s.past (x :: w) (' ' :: m) [])) :=
    gives_statementName Atomicity.noConfusion hname hw (by rintro y ⟨⟩; decide) hs
  have hfirst := Gives.pair_past (r := statementName) rfl Kind.noConfusion rfl (c.leavesPair_compound hc) hs hword
  have hblanks : Gives grammar (c.inside .compound) inlineSpaces (s.over (x :: w) (' ' :: m))
      (some ((s.over (x :: w) (' ' :: m)).over [' '] (m ++ []))) := by
    rw [List.append_nil]
    exact gives_inlineSpaces hc' (List.forall_mem_singleton.mpr (by decide)) htrimmed.head rfl
  have hwords : Gives grammar ((c.inside .compound).inside .atomic) (grammar.body statementMarkup)
      ((s.over (x :: w) (' ' :: m)).over [' '] (m ++ [])) _ :=
    gives_statementMarkup Atomicity.noConfusion hm htrimmed (List.forall_mem_nil _) (by rwa [List.append_nil]) rfl
  have hmarkup := gives_marked rfl (c.leavesPair_compound hc) hc' hblanks hwords
  have hbody := hfirst.seq_past hc' hmarkup
  simp only [List.append_nil, State.over_over] at hbody
  have hs' : s.rest = x :: w ++ ([' '] ++ m) ++ [] := by
    rw [List.append_nil]
    exact hs
  have htag := Gives.pair_past (r := statementTag) rfl Kind.noConfusion rfl hc hs' hbody
  exact htag

/-- A line with a name that no other statement starts with, and a markup, is one tag. -/
theorem oneNode_tag (hx : x ∉ reservedLetters) :
    ∃ p name markup, OneNode liquidTagContents (x :: w ++ ' ' :: m) p ∧ p.rule = statementTag ∧
      p.children = [name, markup] ∧ name.rule = statementName ∧ name.text = x :: w ∧
      markup.rule = statementMarkup ∧ markup.text = m := by
  have hc : (Context.top.inside .compound).atomicity ≠ .spaced := Atomicity.noConfusion
  have hopens : ∀ {r y v}, r.needs = 0 → (grammar.body r).opens = some (y :: v) → y ∈ reservedLetters →
      Gives grammar (Context.top.inside .compound) (call r) (Grammar.initial (x :: w ++ ' ' :: m)) none := by
    intro r y v hr hopens hy
    refine gives_call_none hr hopens _ ?_
    intro rest hrest
    obtain ⟨rfl, _⟩ := List.cons.inj hrest
    exact hx hy
  have hcomment := hopens (r := statementComment) rfl rfl (by decide)
  have hclose := hopens (r := statementClose) rfl rfl (by decide)
  have hopen : Gives grammar (Context.top.inside .compound) (call statementOpen)
      (Grammar.initial (x :: w ++ ' ' :: m)) none :=
    .pair_none rfl Kind.noConfusion rfl rfl (gives_blockName_none rfl hx rfl).seq_none
  have htag := gives_statementTag (s := Grammar.initial (x :: w ++ ' ' :: m)) hname hw hm htrimmed hinline
    (c := Context.top.inside .compound) rfl rfl
  have hnode : Gives grammar _ (call liquidStatement) _ _ :=
    (gives_silent rfl).mpr (((hcomment.alt hclose).alt hopen).alt htag)
  have hhead : ∀ y ∈ (x :: w ++ ' ' :: m).head?, y ∉ spaceLetters := by
    rintro y ⟨⟩ hspace
    have hblank : ∀ y ∈ spaceLetters, isNameStart y = false := by
      simp [spaceLetters, isNameStart, placeholder]
    rw [hblank x hspace] at hname
    cases hname
  obtain ⟨t, q, ht, hpairs, hq⟩ := gives_whole_one (s := Grammar.initial _) (b := []) hc (List.forall_mem_nil _)
    hhead rfl (gives_start rfl) (List.forall_mem_nil _) gives_statement_end rfl hnode
  exact ⟨_, _, _, oneNode_of_gives rfl rfl ht hpairs hq, rfl, rfl, rfl, rfl, rfl, rfl⟩

end Tag

end LiquidTemplate
