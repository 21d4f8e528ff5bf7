import LiquidTemplate.Proofs.Peg.Attempt

namespace LiquidTemplate.Peg

open State

variable {ρ : Type} {g : Grammar ρ}

/-- How deep a match of the expression goes before it consumes a character, given how deep the bodies of
the rules go. -/
def Expr.height (solid : ρ → Bool) (rank : ρ → Nat) : Expr ρ → Nat
  | seq a b => max (a.height solid rank) (if a.eats solid then 0 else b.height solid rank) + 1
  | alt a b => max (a.height solid rank) (b.height solid rank) + 1
  | opt a => a.height solid rank + 1
  | many a => a.height solid rank + 1
  | again a => a.height solid rank + 1
  | ahead a => a.height solid rank + 1
  | notAhead a => a.height solid rank + 1
  | push a => a.height solid rank + 1
  | call r => rank r + 1
  | _ => 1

/-- Whether each round of a repetition consumes something, and what follows on a consumed character goes
no deeper than the bound. -/
def Expr.tame (solid : ρ → Bool) (rank : ρ → Nat) (bound : Nat) : Expr ρ → Bool
  | seq a b => a.tame solid rank bound && b.tame solid rank bound && b.height solid rank < bound
  | alt a b => a.tame solid rank bound && b.tame solid rank bound
  | opt a => a.tame solid rank bound
  | many a => a.eats solid && a.tame solid rank bound
  | again a => a.eats solid && a.tame solid rank bound
  | ahead a => a.tame solid rank bound
  | notAhead a => a.tame solid rank bound
  | push a => a.tame solid rank bound
  | _ => true

def Grammar.rank (g : Grammar ρ) (solid : ρ → Bool) : Nat → ρ → Nat
  | 0, _ => 0
  | n + 1, r => (g.body r).height solid (g.rank solid n)

/-- A grammar in which a match consumes a character before it has gone deeper than the bound. -/
structure Bounded (g : Grammar ρ) (solid : ρ → Bool) (rank : ρ → Nat) (bound : Nat) : Prop where
  pos : 0 < bound
  eats : ∀ r, solid r → (g.body r).eats solid
  height : ∀ r, (g.body r).height solid rank ≤ rank r
  tame : ∀ r, (g.body r).tame solid rank bound

theorem State.Reaches.length_le {s t : State ρ} (h : s.Reaches t) : t.rest.length ≤ s.rest.length := by
  obtain ⟨w, hw, _⟩ := h
  rw [hw, List.length_append]
  exact Nat.le_add_left _ _

theorem State.Reaches.length_lt {s t : State ρ} (h : s.Reaches t) (hlt : s.offset < t.offset) :
    t.rest.length < s.rest.length := by
  obtain ⟨w, hw, hoffset⟩ := h
  cases w with
  | nil =>
      rw [Text.byteLength_nil] at hoffset
      omega
  | cons x w =>
      rw [hw, List.cons_append, List.length_cons, List.length_append]
      omega

section Depth

variable {solid : ρ → Bool} {rank : ρ → Nat} {bound : Nat}

theorem Expr.height_pos (e : Expr ρ) : 0 < e.height solid rank := by
  cases e <;> simp [Expr.height]

/-- A part that is tried needs less budget than the whole: it goes less deep, or a character has been
consumed before it. -/
theorem Enters.needs_less (hg : Bounded g solid rank bound) {c c' : Context} {e e' : Expr ρ}
    {s s' : State ρ} (h : Enters g c e s c' e' s') (he : e.tame solid rank bound) :
    e'.tame solid rank bound ∧
      bound * s'.rest.length + e'.height solid rank < bound * s.rest.length + e.height solid rank := by
  have hpos := hg.pos
  have hmono : ∀ {s t : State ρ}, s.Reaches t → bound * t.rest.length ≤ bound * s.rest.length :=
    fun h => Nat.mul_le_mul_left bound h.length_le
  have hfree : ∀ {c s t} {a : Expr ρ}, Derives g c a s t → a.eats solid →
      bound * t.rest.length + bound ≤ bound * s.rest.length := by
    intro c s t a h ha
    have hlt := h.reaches.length_lt (h.lt hg.eats ha)
    exact Nat.mul_le_mul_left bound hlt
  cases h with
  | seqFirst =>
      simp only [Expr.tame, Bool.and_eq_true] at he
      refine ⟨he.1.1, ?_⟩
      simp only [Expr.height]
      omega
  | @seqSecond _ t a b ha =>
      simp only [Expr.tame, Bool.and_eq_true, decide_eq_true_eq] at he
      refine ⟨he.1.2, ?_⟩
      have hskip := hmono (reaches_skip t c g.blank)
      simp only [Expr.height]
      -- the second part may go deeper than the whole only after a character, which pays for it
      by_cases heats : a.eats solid
      · have := hfree ha heats
        omega
      · have := hmono ha.reaches
        rw [if_neg heats]
        omega
  | altFirst =>
      simp only [Expr.tame, Bool.and_eq_true] at he
      refine ⟨he.1, ?_⟩
      simp only [Expr.height]
      omega
  | altSecond =>
      simp only [Expr.tame, Bool.and_eq_true] at he
      refine ⟨he.2, ?_⟩
      simp only [Expr.height]
      omega
  | opt | ahead | notAhead | push => exact ⟨he, by simp only [Expr.height]; omega⟩
  | many =>
      simp only [Expr.tame, Bool.and_eq_true] at he
      exact ⟨he.2, by simp only [Expr.height]; omega⟩
  | manyAgain ha =>
      refine ⟨he, ?_⟩
      simp only [Expr.tame, Bool.and_eq_true] at he
      have := hfree ha he.1
      simp only [Expr.height]
      omega
  | again =>
      simp only [Expr.tame, Bool.and_eq_true] at he
      have := hmono (reaches_skip s c g.blank)
      exact ⟨he.2, by simp only [Expr.height]; omega⟩
  | againAgain ha =>
      refine ⟨he, ?_⟩
      simp only [Expr.tame, Bool.and_eq_true] at he
      have := hfree ha he.1
      have := hmono (reaches_skip s c g.blank)
      simp only [Expr.height]
      omega
  | @call _ r =>
      refine ⟨hg.tame r, ?_⟩
      have := hg.height r
      simp only [Expr.height]
      omega

/-- A budget of the bound for each character, and of the height once, is not exhausted. -/
theorem Grammar.run_within (hg : Bounded g solid rank bound) {n : Nat} {c : Context} {e : Expr ρ}
    {s : State ρ} (he : e.tame solid rank bound)
    (hn : bound * s.rest.length + e.height solid rank ≤ n) : g.run n c e s ≠ .fault .exhausted := by
  refine run_ne_exhausted (I := fun n e s => e.tame solid rank bound ∧
    bound * s.rest.length + e.height solid rank ≤ n) ?_ ?_ ⟨he, hn⟩
  · rintro e s ⟨_, hn⟩
    have hpos : 0 < e.height solid rank := e.height_pos
    omega
  · rintro n c e s c' e' s' henter ⟨he, hn⟩
    obtain ⟨he', hless⟩ := henter.needs_less hg he
    exact ⟨he', by omega⟩

end Depth

/-- How many remembered texts are known of after a match of the expression, given how many are before it;
none, if one might be asked for that is not known of.  Of a rule, it is given how many it needs and
how many of these it leaves. -/
def Expr.remembers (needs leaves : ρ → Nat) : Expr ρ → Nat → Option Nat
  | seq a b, k => (a.remembers needs leaves k).bind (b.remembers needs leaves)
  | alt a b, k =>
    if a.remembers needs leaves k = b.remembers needs leaves k then a.remembers needs leaves k else none
  | opt a, k => if a.remembers needs leaves k = some k then some k else none
  | many a, k => if a.remembers needs leaves k = some k then some k else none
  | again a, k => if a.remembers needs leaves k = some k then some k else none
  | ahead a, k => (a.remembers needs leaves k).map fun _ => k
  | notAhead a, k => (a.remembers needs leaves k).map fun _ => k
  | push a, k => (a.remembers needs leaves k).map (· + 1)
  | top, k => if 0 < k then some k else none
  | pop, k => if 0 < k then some (k - 1) else none
  | call r, k => if needs r ≤ k then some (k - needs r + leaves r) else none
  | _, k => some k

/-- A grammar in which the bodies of the rules need and leave as many remembered texts as is said. -/
def Balanced (g : Grammar ρ) (needs leaves : ρ → Nat) : Prop :=
  ∀ r, (g.body r).remembers needs leaves (needs r) = some (leaves r)

section Stack

variable {needs leaves : ρ → Nat}

/-- Of the stack of `s` the first `k` texts are known of, of that of `t` the first `l`, and what is below
them is the same. -/
structure State.Swaps (k l : Nat) (s t : State ρ) : Prop where
  known : l ≤ t.stack.length
  below : t.stack.drop l = s.stack.drop k

theorem State.Swaps.deepen {k l n : Nat} {s t : State ρ} (h : s.Swaps n l t) (hn : n ≤ k)
    (hk : k ≤ s.stack.length) : s.Swaps k (k - n + l) t := by
  have hlength := congrArg List.length h.below
  have hknown := h.known
  rw [List.length_drop, List.length_drop] at hlength
  refine ⟨by omega, ?_⟩
  rw [Nat.add_comm, ← List.drop_drop, h.below, List.drop_drop, Nat.add_sub_cancel' hn]

@[simp]
theorem State.stack_skip (s : State ρ) (c : Context) (blank : Char → Bool) :
    (s.skip c blank).stack = s.stack := by
  unfold skip
  split <;> rfl

/-- A match changes only the remembered texts that are known of. -/
theorem Derives.swaps (hg : Balanced g needs leaves) {c : Context} {e : Expr ρ} {s t : State ρ}
    (h : Derives g c e s t) {k l : Nat} (he : e.remembers needs leaves k = Option.some l)
    (hk : k ≤ s.stack.length) : s.Swaps k l t := by
  induction h generalizing k l with
  | word | caseless | char | start | finish =>
      cases he
      exact ⟨hk, rfl⟩
  | seq _ _ iha ihb =>
      obtain ⟨m, ha, hb⟩ := Option.bind_eq_some_iff.mp he
      have hfirst := iha ha hk
      have hsecond := ihb hb (by rw [stack_skip]; exact hfirst.known)
      exact ⟨hsecond.known, by rw [hsecond.below, stack_skip, hfirst.below]⟩
  | first _ ih =>
      simp only [Expr.remembers, Option.ite_none_right_eq_some] at he
      exact ih he.2 hk
  | second _ _ ih =>
      simp only [Expr.remembers, Option.ite_none_right_eq_some] at he
      have hsame := ih (he.1 ▸ he.2) hk
      exact ⟨hsame.known, hsame.below⟩
  | present _ ih =>
      simp only [Expr.remembers, Option.ite_none_right_eq_some, Option.some.injEq] at he
      obtain ⟨ha, rfl⟩ := he
      exact ih ha hk
  | absent | none | last =>
      simp only [Expr.remembers, Option.ite_none_right_eq_some, Option.some.injEq] at he
      obtain ⟨_, rfl⟩ := he
      exact ⟨hk, rfl⟩
  | some _ _ iha ihb =>
      have hround := he
      simp only [Expr.remembers, Option.ite_none_right_eq_some, Option.some.injEq] at hround
      obtain ⟨ha, rfl⟩ := hround
      have hfirst := iha ha hk
      have hrest := ihb he hfirst.known
      exact ⟨hrest.known, by rw [hrest.below, hfirst.below]⟩
  | next _ _ iha ihb =>
      have hround := he
      simp only [Expr.remembers, Option.ite_none_right_eq_some, Option.some.injEq] at hround
      obtain ⟨ha, rfl⟩ := hround
      have hfirst := iha ha (by rwa [stack_skip])
      have hrest := ihb he hfirst.known
      exact ⟨hrest.known, by rw [hrest.below, hfirst.below, stack_skip]⟩
  | ahead | notAhead =>
      obtain ⟨_, _, rfl⟩ := Option.map_eq_some_iff.mp he
      exact ⟨hk, rfl⟩
  | push _ ih =>
      obtain ⟨m, ha, rfl⟩ := Option.map_eq_some_iff.mp he
      have hsame := ih ha hk
      exact ⟨Nat.succ_le_succ hsame.known, hsame.below⟩
  | top =>
      simp only [Expr.remembers, Option.ite_none_right_eq_some, Option.some.injEq] at he
      obtain ⟨_, rfl⟩ := he
      exact ⟨hk, rfl⟩
  | pop hstack =>
      simp only [Expr.remembers, Option.ite_none_right_eq_some, Option.some.injEq] at he
      obtain ⟨hpos, rfl⟩ := he
      obtain ⟨k, rfl⟩ := Nat.exists_eq_add_of_lt hpos
      rw [hstack, List.length_cons] at hk
      exact ⟨by simp; omega, by simp [hstack]⟩
  | @silent c s t r _ _ ih | @pair c s t r _ _ _ ih | @hidden c s t r _ _ _ _ ih =>
      simp only [Expr.remembers, Option.ite_none_right_eq_some, Option.some.injEq] at he
      obtain ⟨hneeds, rfl⟩ := he
      have hbody := (ih (hg r) (Nat.le_trans hneeds hk)).deepen hneeds hk
      exact ⟨hbody.known, hbody.below⟩

def Expr.Supplied (needs leaves : ρ → Nat) (e : Expr ρ) (s : State ρ) : Prop :=
  ∃ k l, e.remembers needs leaves k = some l ∧ k ≤ s.stack.length

theorem Enters.supplied (hg : Balanced g needs leaves) {c c' : Context} {e e' : Expr ρ} {s s' : State ρ}
    (h : Enters g c e s c' e' s') (he : e.Supplied needs leaves s) : e'.Supplied needs leaves s' := by
  obtain ⟨k, l, he, hk⟩ := he
  cases h with
  | seqFirst =>
      obtain ⟨m, ha, _⟩ := Option.bind_eq_some_iff.mp he
      exact ⟨k, m, ha, hk⟩
  | seqSecond ha =>
      obtain ⟨m, ha', hb⟩ := Option.bind_eq_some_iff.mp he
      exact ⟨m, l, hb, by rw [stack_skip]; exact (ha.swaps hg ha' hk).known⟩
  | altFirst =>
      simp only [Expr.remembers, Option.ite_none_right_eq_some] at he
      exact ⟨k, l, he.2, hk⟩
  | altSecond =>
      simp only [Expr.remembers, Option.ite_none_right_eq_some] at he
      exact ⟨k, l, he.1 ▸ he.2, hk⟩
  | opt | many =>
      simp only [Expr.remembers, Option.ite_none_right_eq_some] at he
      exact ⟨k, k, he.1, hk⟩
  | again =>
      simp only [Expr.remembers, Option.ite_none_right_eq_some] at he
      exact ⟨k, k, he.1, by rwa [stack_skip]⟩
  | manyAgain ha =>
      have hround := he
      simp only [Expr.remembers, Option.ite_none_right_eq_some] at hround
      exact ⟨k, l, he, (ha.swaps hg hround.1 hk).known⟩
  | againAgain ha =>
      have hround := he
      simp only [Expr.remembers, Option.ite_none_right_eq_some] at hround
      exact ⟨k, l, he, (ha.swaps hg hround.1 (by rwa [stack_skip])).known⟩
  | ahead | notAhead | push =>
      obtain ⟨m, ha, _⟩ := Option.map_eq_some_iff.mp he
      exact ⟨k, m, ha, hk⟩
  | @call _ r =>
      simp only [Expr.remembers, Option.ite_none_right_eq_some] at he
      exact ⟨needs r, leaves r, hg r, Nat.le_trans he.1 hk⟩

theorem Grammar.run_supplied (hg : Balanced g needs leaves) {n : Nat} {c : Context} {e : Expr ρ}
    {s : State ρ} (h : e.Supplied needs leaves s) : g.run n c e s ≠ .fault .nothingRemembered := by
  refine run_ne_nothingRemembered (I := Expr.Supplied needs leaves) ?_ ?_ (Enters.supplied hg) h
  all_goals
    rintro s ⟨k, l, he, hk⟩ hstack
    simp only [Expr.remembers, Option.ite_none_right_eq_some] at he
    rw [hstack, List.length_nil] at hk
    omega

end Stack

/-- A grammar with a bound and a balance gives an answer for every text and every rule that needs no
remembered text. -/
theorem Grammar.parse_ne_fault {solid : ρ → Bool} {rank needs leaves : ρ → Nat}
    (hbounded : Bounded g solid rank depthPerChar) (hbalanced : Balanced g needs leaves) {r : ρ}
    (hrank : rank r < depthPerChar) (hneeds : needs r = 0) (text : List Char) (f : Fault) :
    g.parse r text ≠ .error (.fault f) := by
  intro h
  unfold parse at h
  split at h
  · cases h
  · cases h
  · rename_i f' hrun
    cases f' with
    | exhausted =>
        refine run_within hbounded (e := .call r) rfl ?_ hrun
        simp only [Expr.height, initial, Nat.mul_succ]
        omega
    | nothingRemembered =>
        refine run_supplied hbalanced ⟨0, leaves r, ?_, Nat.zero_le _⟩ hrun
        simp [Expr.remembers, hneeds]

end LiquidTemplate.Peg
