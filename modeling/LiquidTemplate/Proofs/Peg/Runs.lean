import LiquidTemplate.Proofs.Peg.Determinacy

namespace LiquidTemplate.Peg

open State Text

variable {ρ : Type} {g : Grammar ρ} {c : Context} {a e stop : Expr ρ} {s t : State ρ} {v w rest more : List Char}

namespace State

@[simp]
theorem rest_over (s : State ρ) (w rest : List Char) : (s.over w rest).rest = rest := rfl

@[simp]
theorem pairs_over (s : State ρ) (w rest : List Char) : (s.over w rest).pairs = [] := rfl

@[simp]
theorem pairs_bare (s : State ρ) : s.bare.pairs = [] := rfl

@[simp]
theorem onto_nil (t : State ρ) : t.onto [] = t := by
  rw [onto, List.append_nil]

theorem over_over (s : State ρ) (v w rest rest' : List Char) :
    (s.over v rest).over w rest' = s.over (v ++ w) rest' := by
  simp only [State.over, byteLength_append, Nat.add_assoc]

theorem over_nil (s : State ρ) (h : s.rest = rest) : s.over [] rest = s.bare := by
  rw [State.over, bare, ← h]
  rfl

/-- The state after a text, with the pairs that were left on the way, latest first. -/
def past (s : State ρ) (w rest : List Char) (ps : List (Pair ρ)) : State ρ :=
  ⟨rest, s.offset + byteLength w, s.stack, ps, .none⟩

def pair (s : State ρ) (r : ρ) (w : List Char) (children : List (Pair ρ)) : Pair ρ :=
  ⟨r, s.offset, s.offset + byteLength w, w, children⟩

def one? (s : State ρ) (f : Char → Bool) : Option (State ρ) :=
  match s.rest with
  | [] => none
  | x :: rest => if f x then some (s.over [x] rest) else none

theorem one?_cons {x : Char} {f : Char → Bool} (hs : s.rest = x :: rest) (hx : f x) :
    s.one? f = some (s.over [x] rest) := by
  simp only [one?, hs, hx, if_true]

theorem one?_of_not {f : Char → Bool} (hs : ∀ x ∈ s.rest.head?, f x = false) : s.one? f = none := by
  unfold one?
  split
  · rfl
  · rename_i x rest hrest
    rw [hs x (by simp [hrest])]
    rfl

end State

theorem Gives.seq_past {b : Expr ρ} {ps qs : List (Pair ρ)} (hc : c.atomicity ≠ .spaced)
    (ha : Gives g c a s (some (s.past v rest ps)))
    (hb : Gives g c b (s.over v rest) (some ((s.over v rest).past w more qs))) :
    Gives g c (.seq a b) s (some (s.past (v ++ w) more (qs ++ ps))) := by
  have hb : Gives g c b (s.past v rest ps) _ := hb.same ⟨rfl, rfl, rfl⟩
  have h := ha.seq hc hb
  simpa only [Option.map_some, onto, past, State.over, byteLength_append, Nat.add_assoc] using h

theorem Gives.seq_past_none {b : Expr ρ} {ps : List (Pair ρ)} (hc : c.atomicity ≠ .spaced)
    (ha : Gives g c a s (some (s.past v rest ps))) (hb : Gives g c b (s.over v rest) none) :
    Gives g c (.seq a b) s none := by
  have hb : Gives g c b (s.past v rest ps) none := hb.same ⟨rfl, rfl, rfl⟩
  exact ha.seq hc hb

theorem Gives.seq_idle {b : Expr ρ} {ps : List (Pair ρ)} (hc : c.atomicity ≠ .spaced)
    (ha : Gives g c a s (some (s.past v rest ps))) (hb : Gives g c b (s.over v rest) (some (s.over v rest).bare)) :
    Gives g c (.seq a b) s (some (s.past v rest ps)) := by
  rw [← over_nil _ rfl] at hb
  have h := ha.seq_past hc hb
  rwa [List.append_nil, List.nil_append] at h

section Pairs

variable {r : ρ} {kind : Kind} (hkind : g.kind r = kind) (hloud : kind ≠ .silent) (hbody : g.body r = e)
  (hc : c.leavesPair)

include hkind hloud hbody hc

theorem Gives.pair_past {ps : List (Pair ρ)} (hs : s.rest = w ++ rest)
    (h : Gives g (c.inside kind) e s (some (s.past w rest ps))) :
    Gives g c (.call r) s (some (s.past w rest [s.pair r w ps.reverse])) := by
  subst hkind hbody
  refine (gives_pair hloud (Context.leavesPair_outside c _ hc)).mpr (.inl ⟨_, h, ?_⟩)
  have hconsumed : s.consumed (s.past w rest ps) = w := State.consumed_eq hs rfl
  rw [paired, hconsumed]
  rfl

theorem Gives.pair_none (h : Gives g (c.inside kind) e s none) : Gives g c (.call r) s none := by
  subst hkind hbody
  exact (gives_pair hloud (Context.leavesPair_outside c _ hc)).mpr (.inr ⟨h, rfl⟩)

end Pairs

/-- Nothing is left of a sequence of parts without pairs but the text it leads over. -/
theorem Gives.seq_over {b : Expr ρ} (hc : c.atomicity ≠ .spaced) (ha : Gives g c a s (some (s.over v rest)))
    (hb : Gives g c b (s.over v rest) (some ((s.over v rest).over w more))) :
    Gives g c (.seq a b) s (some (s.over (v ++ w) more)) := by
  exact seq_past hc ha hb

theorem gives_word_over (hs : s.rest = w ++ rest) : Gives g c (.word w) s (some (s.over w rest)) := by
  rw [gives_word, hs, stripWord?_append, Option.map_some]

theorem gives_word_none (hs : ∀ rest, s.rest ≠ w ++ rest) : Gives g c (.word w) s none := by
  rw [gives_word]
  cases hrest : stripWord? w s.rest with
  | none => rfl
  | some rest => exact absurd (stripWord?_eq_some hrest) (hs rest)

theorem gives_word_none_of_head {y : Char} (hs : s.rest.head? ≠ some y) : Gives g c (.word (y :: w)) s none :=
  gives_word_none fun _ h => hs (congrArg List.head? h)

theorem gives_test {f : Char → Bool} (he : e.test? = some f) : Gives g c e s (s.one? f) := by
  induction e generalizing f with
  | word w =>
      obtain ⟨y, rfl, rfl⟩ := Expr.test?_word he
      by_cases hy : ∃ rest, s.rest = [y] ++ rest
      · obtain ⟨rest, hs⟩ := hy
        have hone : s.one? (· == y) = some (s.over [y] rest) := one?_cons hs (beq_self_eq_true y)
        rw [hone]
        exact gives_word_over hs
      · rw [one?_of_not]
        · exact gives_word_none fun rest hs => hy ⟨rest, hs⟩
        · intro x hx
          rw [beq_eq_false_iff_ne]
          rintro rfl
          obtain ⟨rest, hs⟩ := List.head?_eq_some_iff.mp hx
          exact hy ⟨rest, hs⟩
  | char test =>
      cases he
      refine ⟨1, ?_⟩
      cases hs : s.rest with
      | nil => simpa only [Grammar.run, one?, hs] using .missed
      | cons x rest =>
          simp only [Grammar.run, one?, hs]
          by_cases hx : test x
          · rw [if_pos hx, if_pos hx]
            exact .found [] rfl
          · rw [if_neg hx, if_neg hx]
            exact .missed
  | alt a b iha ihb =>
      obtain ⟨f₁, f₂, hf₁, hf₂, rfl⟩ := Expr.test?_alt he
      have ha := iha hf₁
      have hb := ihb hf₂
      cases hs : s.rest with
      | nil =>
          have hnone : ∀ f, s.one? f = none := fun f => one?_of_not (by simp [hs])
          rw [hnone] at ha hb ⊢
          exact ha.alt hb
      | cons x rest =>
          by_cases hx : f₁ x
          · rw [one?_cons hs hx] at ha
            rw [one?_cons hs (by simp [hx])]
            exact ha.first
          · have hno : s.one? f₁ = none := one?_of_not (by simpa [hs] using hx)
            have heq : (s.one? fun x => f₁ x || f₂ x) = s.one? f₂ := by simp [one?, hs, hx]
            rw [hno] at ha
            rw [heq]
            exact ha.alt hb
  | _ => cases he

/-- A repetition that takes one character in each round takes them all, if it has to stop after them.  What is
remembered stays the same. -/
theorem gives_chars_with {stack : List (List Char)} (hc : c.atomicity ≠ .spaced)
    (hround : ∀ {s x v'}, s.stack = stack → x :: v' <:+ v → s.rest = x :: (v' ++ more) →
      Gives g c a s (some (s.over [x] (v' ++ more))))
    (hend : ∀ {s}, s.stack = stack → s.rest = more → Gives g c a s none) (hstack : s.stack = stack)
    (hs : s.rest = v ++ more) : Gives g c (.many a) s (some (s.over v more)) := by
  induction v generalizing s with
  | nil =>
      rw [over_nil s (by simpa using hs)]
      exact (gives_many hc).mpr (.inl ⟨hend hstack hs, rfl⟩)
  | cons x v ih =>
      have hfirst := hround hstack (List.suffix_refl _) hs
      have hmore := ih (s := s.over [x] (v ++ more))
        (fun hstack hv => hround hstack (hv.trans (List.suffix_cons x v))) hstack rfl
      refine (gives_many hc).mpr (.inr ⟨_, _, hfirst, hmore, ?_⟩)
      rw [Option.map_some, pairs_over, onto_nil, over_over]
      rfl

theorem gives_chars (hc : c.atomicity ≠ .spaced)
    (hround : ∀ {s x v'}, x :: v' <:+ v → s.rest = x :: (v' ++ more) →
      Gives g c a s (some (s.over [x] (v' ++ more))))
    (hend : ∀ {s}, s.rest = more → Gives g c a s none) (hs : s.rest = v ++ more) :
    Gives g c (.many a) s (some (s.over v more)) :=
  gives_chars_with hc (fun _ => hround) (fun _ => hend) rfl hs

/-- A first character and the ones after it are taken up to where no more of them stand. -/
theorem gives_run {b : Expr ρ} {f h : Char → Bool} {x : Char} (hc : c.atomicity ≠ .spaced)
    (ha : ∀ s, Gives g c a s (s.one? f)) (hb : ∀ s, Gives g c b s (s.one? h)) (hx : f x) (hw : ∀ y ∈ w, h y)
    (hrest : ∀ y ∈ rest.head?, h y = false) (hs : s.rest = x :: (w ++ rest)) :
    Gives g c (.seq a (.many b)) s (some (s.over (x :: w) rest)) := by
  have hfirst : Gives g c a s (some (s.over [x] (w ++ rest))) := State.one?_cons hs hx ▸ ha s
  have hmore : Gives g c (.many b) (s.over [x] (w ++ rest)) (some ((s.over [x] (w ++ rest)).over w rest)) := by
    refine gives_chars hc ?_ ?_ rfl
    · intro s y v hsuffix hs
      exact State.one?_cons hs (hw y (hsuffix.subset List.mem_cons_self)) ▸ hb s
    · intro s hs
      exact State.one?_of_not (hs ▸ hrest) ▸ hb s
  exact hfirst.seq_over hc hmore

section Blanks

variable {blank : ρ} {xs : List Char}

theorem gives_letter (hblank : g.kind blank = .silent) (hxs : (g.body blank).letters = some xs) :
    Gives g c (.call blank) s (s.one? (xs.contains ·)) := by
  obtain ⟨f, hf, hmem⟩ := Expr.test?_of_letters hxs
  have heq : (xs.contains ·) = f := by
    funext x
    rw [Bool.eq_iff_iff, hmem, List.contains_iff_mem]
  rw [gives_silent hblank, heq]
  exact gives_test hf

theorem gives_letter_over {x : Char} (hblank : g.kind blank = .silent) (hxs : (g.body blank).letters = some xs)
    (hx : x ∈ xs) (hs : s.rest = x :: rest) : Gives g c (.call blank) s (some (s.over [x] rest)) := by
  have hone : s.one? (xs.contains ·) = some (s.over [x] rest) := one?_cons hs (List.contains_iff_mem.mpr hx)
  rw [← hone]
  exact gives_letter hblank hxs

theorem gives_letter_none (hblank : g.kind blank = .silent) (hxs : (g.body blank).letters = some xs)
    (hs : ∀ x ∈ s.rest.head?, x ∉ xs) : Gives g c (.call blank) s none := by
  have hno : s.one? (xs.contains ·) = none := one?_of_not (by simpa using hs)
  rw [← hno]
  exact gives_letter hblank hxs

theorem gives_blanks (hc : c.atomicity ≠ .spaced) (hblank : g.kind blank = .silent)
    (hxs : (g.body blank).letters = some xs) (hv : ∀ x ∈ v, x ∈ xs) (hmore : ∀ x ∈ more.head?, x ∉ xs)
    (hs : s.rest = v ++ more) : Gives g c (.many (.call blank)) s (some (s.over v more)) := by
  refine gives_chars hc ?_ ?_ hs
  · intro s x v' hsuffix hs
    exact gives_letter_over hblank hxs (hv x (hsuffix.subset (by simp))) hs
  · intro s hs
    exact gives_letter_none hblank hxs (hs ▸ hmore)

theorem gives_blanks_plus {y : Char} (hc : c.atomicity ≠ .spaced) (hblank : g.kind blank = .silent)
    (hxs : (g.body blank).letters = some xs) (hv : ∀ x ∈ y :: v, x ∈ xs) (hmore : ∀ x ∈ more.head?, x ∉ xs)
    (hs : s.rest = y :: v ++ more) : Gives g c (.plus (.call blank)) s (some (s.over (y :: v) more)) := by
  obtain ⟨hy, hv⟩ := List.forall_mem_cons.mp hv
  exact (gives_letter_over hblank hxs hy hs).seq_over hc (gives_blanks hc hblank hxs hv hmore rfl)

theorem gives_blanks_none (hblank : g.kind blank = .silent) (hxs : (g.body blank).letters = some xs)
    (hs : ∀ x ∈ s.rest.head?, x ∉ xs) : Gives g c (.plus (.call blank)) s none :=
  (gives_letter_none hblank hxs hs).seq_none

end Blanks

section Runs

def Expr.unless (stop : Expr ρ) : Expr ρ := .seq (.notAhead stop) .any

theorem gives_unless {x : Char} (hc : c.atomicity ≠ .spaced) (h : Gives g c.notAhead stop s none)
    (hs : s.rest = x :: rest) : Gives g c stop.unless s (some (s.over [x] rest)) := by
  have hahead : Gives g c (.notAhead stop) s (some s.bare) := gives_notAhead.mpr (.inr ⟨h, rfl⟩)
  have hany : Gives g c .any s.bare (some (s.bare.over [x] rest)) := by
    have hone : s.bare.one? (fun _ => true) = some (s.bare.over [x] rest) := one?_cons hs rfl
    rw [← hone]
    exact gives_test rfl
  exact hahead.seq hc hany

theorem gives_unless_stop (h : Gives g c.notAhead stop s (some t)) : Gives g c stop.unless s none :=
  Gives.seq_none (gives_notAhead.mpr (.inl ⟨t, h, rfl⟩))

theorem gives_unless_end (hc : c.atomicity ≠ .spaced) (h : Gives g c.notAhead stop s none) (hs : s.rest = []) :
    Gives g c stop.unless s none := by
  have hahead : Gives g c (.notAhead stop) s (some s.bare) := gives_notAhead.mpr (.inr ⟨h, rfl⟩)
  have hany : Gives g c .any s.bare none := by
    have hone : s.bare.one? (fun _ => true) = none := one?_of_not (by simp [bare, hs])
    rw [← hone]
    exact gives_test rfl
  exact hahead.seq hc hany

/-- A run goes on to where it has to stop, which may depend on what is remembered. -/
theorem gives_until0 {stack : List (List Char)} (hc : c.atomicity ≠ .spaced)
    (hgo : ∀ {s x v'}, s.stack = stack → x :: v' <:+ v → s.rest = x :: (v' ++ more) → Gives g c.notAhead stop s none)
    (hend : ∀ {s}, s.stack = stack → s.rest = more → Gives g c stop.unless s none) (hstack : s.stack = stack)
    (hs : s.rest = v ++ more) : Gives g c (.until0 stop) s (some (s.over v more)) :=
  gives_chars_with hc (fun hstack hv hs => gives_unless hc (hgo hstack hv hs) hs) hend hstack hs

theorem gives_until1 (hc : c.atomicity ≠ .spaced) (hne : v ≠ [])
    (hgo : ∀ {s x v'}, x :: v' <:+ v → s.rest = x :: (v' ++ more) → Gives g c.notAhead stop s none)
    (hend : ∀ {s}, s.rest = more → Gives g c stop.unless s none) (hs : s.rest = v ++ more) :
    Gives g c (.until1 stop) s (some (s.over v more)) := by
  obtain ⟨x, v, rfl⟩ := List.exists_cons_of_ne_nil hne
  have hfirst := gives_unless hc (hgo (List.suffix_refl _) hs) hs
  have hmore : Gives g c (.many stop.unless) (s.over [x] (v ++ more)) _ :=
    gives_chars hc (fun hv hs => gives_unless hc (hgo (hv.trans (List.suffix_cons x v)) hs) hs) hend rfl
  exact hfirst.seq_over hc hmore

end Runs

/-- Blanks and words in turn, each with a letter at least: what may follow on a word. -/
inductive Segments (xs : List Char) : List Char → Prop
  | nil : Segments xs []
  | cons {y : Char} {b v m : List Char} : (∀ x ∈ y :: b, x ∈ xs) → v ≠ [] → (∀ x ∈ v, x ∉ xs) → Segments xs m →
      Segments xs (y :: b ++ (v ++ m))

theorem Segments.head {xs m : List Char} (h : Segments xs m) : ∀ x ∈ m.head?, x ∈ xs := by
  intro x hx
  cases h with
  | nil => cases hx
  | cons hb =>
      cases hx
      exact hb _ (by simp)

/-- A text starts with a longest run of characters that have the property. -/
theorem exists_run (f : Char → Prop) [DecidablePred f] (m : List Char) :
    ∃ v r, m = v ++ r ∧ (∀ x ∈ v, f x) ∧ ∀ x ∈ r.head?, ¬f x := by
  induction m with
  | nil => exact ⟨[], [], rfl, by simp, by simp⟩
  | cons x m ih =>
      by_cases hx : f x
      · obtain ⟨v, r, rfl, hv, hr⟩ := ih
        exact ⟨x :: v, r, rfl, List.forall_mem_cons.mpr ⟨hx, hv⟩, hr⟩
      · exact ⟨[], x :: m, rfl, by simp, by simpa using hx⟩

theorem takeWhile_append_stop {α : Type} {f : α → Bool} {v w : List α} (hv : ∀ x ∈ v, f x)
    (hw : ∀ x ∈ w.head?, f x = false) : (v ++ w).takeWhile f = v := by
  have hstop : w.takeWhile f = [] := by
    cases w with
    | nil => rfl
    | cons x w => exact List.takeWhile_cons_of_neg (by simp [hw x rfl])
  rw [List.takeWhile_append_of_pos hv, hstop, List.append_nil]

theorem dropWhile_run {xs v r : List Char} (hv : ∀ x ∈ v, x ∈ xs) (hr : ∀ x ∈ r.head?, x ∉ xs) :
    (v ++ r).dropWhile (xs.contains ·) = r := by
  rw [List.dropWhile_append_of_pos (by simpa using hv)]
  cases r with
  | nil => rfl
  | cons x r => exact List.dropWhile_cons_of_neg (by simpa using hr x rfl)

theorem segments_of_edges {xs m : List Char} (hhead : ∀ x ∈ m.head?, x ∈ xs) (hlast : ∀ x ∈ m.getLast?, x ∉ xs) :
    Segments xs m := by
  generalize hn : m.length = n
  induction n using Nat.strongRecOn generalizing m with
  | ind n ih =>
      cases m with
      | nil => exact .nil
      | cons y m =>
          obtain ⟨b, r, rfl, hb, hr⟩ := exists_run (· ∈ xs) m
          obtain ⟨v, m, rfl, hv, hm⟩ := exists_run (· ∉ xs) r
          have hyb : ∀ x ∈ y :: b, x ∈ xs := List.forall_mem_cons.mpr ⟨hhead y rfl, hb⟩
          -- a text of blanks only would end with one
          have hne : v ≠ [] := by
            rintro rfl
            cases m with
            | nil =>
                obtain ⟨x, hx⟩ : ∃ x, (y :: b).getLast? = some x := ⟨_, List.getLast?_eq_some_getLast (by simp)⟩
                exact hlast x (by simpa using hx) (hyb x (List.mem_of_getLast? hx))
            | cons x m => exact hm x rfl (hr x rfl)
          refine .cons hyb hne hv (ih m.length ?_ ?_ ?_ rfl)
          · simp only [List.length_cons, List.length_append] at hn
            omega
          · intro x hx
            exact Decidable.not_not.mp (hm x hx)
          · intro x hx
            apply hlast x
            rw [Option.mem_def] at hx ⊢
            rw [← List.cons_append, List.getLast?_append, List.getLast?_append, hx]
            rfl

section Words

variable {blank w : ρ} {xs : List Char}

structure TakesWords (g : Grammar ρ) (blank w : ρ) (xs : List Char) (stop : Expr ρ) : Prop where
  blank_silent : g.kind blank = .silent
  letters : (g.body blank).letters = some xs
  silent : g.kind w = .silent
  body : g.body w = .until1 stop
  stops : ∀ {c s x rest}, x ∈ xs → State.rest s = x :: rest → ∃ t, Gives g c stop s (some t)

variable {b : List Char} (hw : TakesWords g blank w xs stop) (hc : c.atomicity ≠ .spaced)
  (hb : ∀ x ∈ b, x ∈ xs) (hmore : ∀ x ∈ more.head?, x ∉ xs)
  (hend : ∀ {s}, s.rest = more → Gives g c stop.unless s none)

include hw in
theorem TakesWords.gives_blank {x : Char} (hx : x ∈ xs) (hs : s.rest = x :: rest) : Gives g c stop.unless s none := by
  obtain ⟨t, ht⟩ := hw.stops hx hs
  exact gives_unless_stop ht

include hw hb hend in
theorem TakesWords.gives_after (hs : s.rest = b ++ more) : Gives g c stop.unless s none := by
  cases b with
  | nil => exact hend hs
  | cons y b => exact hw.gives_blank (hb y (by simp)) hs

include hw in
theorem TakesWords.gives_none (h : Gives g c stop.unless s none) : Gives g c (.call w) s none := by
  rw [gives_silent hw.silent, hw.body]
  exact h.seq_none

include hw hc hb hmore hend in
theorem TakesWords.gives_rounds {m : List Char} (hm : Segments xs m)
    (hgo : ∀ {s x r}, x ∉ xs → x :: r <:+ m → s.rest = x :: (r ++ (b ++ more)) → Gives g c.notAhead stop s none)
    (hs : s.rest = m ++ (b ++ more)) :
    Gives g c (.many (.seq (.plus (.call blank)) (.call w))) s (some (s.over m (b ++ more))) := by
  induction hm generalizing s with
  | nil =>
      rw [over_nil s (by simpa using hs)]
      refine (gives_many hc).mpr (.inl ⟨?_, rfl⟩)
      rw [List.nil_append] at hs
      cases b with
      | nil =>
          rw [List.nil_append] at hs
          exact (gives_blanks_none hw.blank_silent hw.letters (by rwa [hs])).seq_none
      | cons y b =>
          have hblanks := gives_blanks_plus hc hw.blank_silent hw.letters hb hmore hs
          exact hblanks.seq hc (hw.gives_none (hend rfl))
  | @cons y b' v m hyb hne hv hm ih =>
      have hgo' : ∀ {s x r}, x :: r <:+ v → s.rest = x :: (r ++ (m ++ (b ++ more))) →
          Gives g c.notAhead stop s none := by
        intro s x r hsuffix hs
        refine hgo (r := r ++ m) (hv x (hsuffix.subset (by simp))) ?_ (by rw [hs, List.append_assoc])
        obtain ⟨u, rfl⟩ := hsuffix
        exact ⟨y :: b' ++ u, by simp⟩
      have hend' : ∀ {s}, s.rest = m ++ (b ++ more) → Gives g c stop.unless s none := by
        intro s hs
        cases m with
        | nil => exact hw.gives_after hb hend hs
        | cons z m => exact hw.gives_blank (hm.head z rfl) hs
      have hhead : ∀ x ∈ (v ++ (m ++ (b ++ more))).head?, x ∉ xs := by
        obtain ⟨z, v, rfl⟩ := List.exists_cons_of_ne_nil hne
        rintro x ⟨⟩
        exact hv z (by simp)
      have hblanks := gives_blanks_plus (s := s) hc hw.blank_silent hw.letters hyb hhead (by simpa using hs)
      have hword : Gives g c (.call w) (s.over (y :: b') (v ++ (m ++ (b ++ more))))
          (some ((s.over (y :: b') (v ++ (m ++ (b ++ more)))).over v (m ++ (b ++ more)))) := by
        rw [gives_silent hw.silent, hw.body]
        exact gives_until1 hc hne hgo' hend' rfl
      have hround := hblanks.seq_over hc hword
      have hrest := ih (fun hx hsuffix => hgo hx (hsuffix.trans ⟨y :: b' ++ v, by simp⟩))
        (s.rest_over (y :: b' ++ v) (m ++ (b ++ more)))
      refine (gives_many hc).mpr (.inr ⟨_, _, hround, hrest, ?_⟩)
      rw [Option.map_some, pairs_over, onto_nil, over_over, List.append_assoc]

include hw hc hb hmore hend in
/-- Words with blanks between them are taken up to the last one. -/
theorem TakesWords.gives {m : List Char} (hne : m ≠ []) (hm : Trimmed xs m)
    (hgo : ∀ {s x r}, x ∉ xs → x :: r <:+ m → s.rest = x :: (r ++ (b ++ more)) → Gives g c.notAhead stop s none)
    (hs : s.rest = m ++ (b ++ more)) :
    Gives g c (.seq (.call w) (.many (.seq (.plus (.call blank)) (.call w)))) s (some (s.over m (b ++ more))) := by
  obtain ⟨v, m, rfl, hv, hm'⟩ := exists_run (· ∉ xs) m
  have hsegments : Segments xs m := by
    refine segments_of_edges (fun x hx => Decidable.not_not.mp (hm' x hx)) ?_
    intro x hx
    apply hm.last x
    rw [Option.mem_def] at hx ⊢
    rw [List.getLast?_append, hx]
    rfl
  have hvne : v ≠ [] := by
    rintro rfl
    obtain ⟨x, m, rfl⟩ := List.exists_cons_of_ne_nil hne
    exact hm' x rfl (hm.head x rfl)
  have hword : Gives g c (.call w) s (some (s.over v (m ++ (b ++ more)))) := by
    rw [gives_silent hw.silent, hw.body]
    refine gives_until1 hc hvne ?_ ?_ (by rw [hs, List.append_assoc])
    · intro s x r hsuffix hs
      refine hgo (r := r ++ m) (hv x (hsuffix.subset (by simp))) ?_ (by rw [hs, List.append_assoc])
      obtain ⟨u, rfl⟩ := hsuffix
      exact ⟨u, by simp⟩
    · intro s hs
      cases m with
      | nil => exact hw.gives_after hb hend hs
      | cons z m => exact hw.gives_blank (hsegments.head z rfl) hs
  exact hword.seq_over hc (hw.gives_rounds hc hb hmore hend hsegments
    (fun hx hsuffix => hgo hx (hsuffix.trans (List.suffix_append v m))) rfl)

end Words

end LiquidTemplate.Peg
