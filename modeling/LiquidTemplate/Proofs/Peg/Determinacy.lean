import LiquidTemplate.Proofs.Peg.Greedy
import LiquidTemplate.Proofs.Peg.Totality

namespace LiquidTemplate.Peg

open State

variable {ρ : Type} {g : Grammar ρ} {c : Context} {a b e : Expr ρ}

structure State.Same (s s' : State ρ) : Prop where
  rest : s.rest = s'.rest
  offset : s.offset = s'.offset
  stack : s.stack = s'.stack

namespace State.Same

variable {s s' : State ρ}

theorem refl (s : State ρ) : s.Same s := ⟨rfl, rfl, rfl⟩

theorem symm (h : s.Same s') : s'.Same s := ⟨h.rest.symm, h.offset.symm, h.stack.symm⟩

theorem skip (h : s.Same s') (c : Context) (blank : Char → Bool) : (s.skip c blank).Same (s'.skip c blank) := by
  unfold State.skip
  split
  · exact ⟨by rw [h.rest], by rw [h.offset, h.rest], h.stack⟩
  · exact h

theorem withAttempts (h : s.Same s') (r r' : Attempts ρ) :
    State.Same { s with attempts := r } { s' with attempts := r' } :=
  ⟨h.rest, h.offset, h.stack⟩

theorem consumed {t t' : State ρ} (h : s.Same s') (ht : t.Same t') : s.consumed t = s'.consumed t' := by
  rw [State.consumed, State.consumed, h.rest, h.offset, ht.offset]

end State.Same

/-- The second outcome, of a run from `s'`, is what the first one, of a run from `s`, promises: the same
place and the same new pairs.  A fault promises nothing. -/
inductive Outcome.Like (s s' : State ρ) : Outcome ρ → Outcome ρ → Prop
  | matched {t t' : State ρ} (new : List (Pair ρ)) : t.Same t' → t.pairs = new ++ s.pairs →
      t'.pairs = new ++ s'.pairs → Like s s' (.matched t) (.matched t')
  | failed {r r' : Attempts ρ} : Like s s' (.failed r) (.failed r')
  | fault {f : Fault} {o : Outcome ρ} : Like s s' (.fault f) o

namespace Outcome.Like

variable {s s' t t' : State ρ} {o o' : Outcome ρ}

theorem idle (h : s.Same s') (hpairs : s.pairs = t.pairs) (hpairs' : s'.pairs = t'.pairs) :
    Like t t' (.matched s) (.matched s') :=
  .matched [] h hpairs hpairs'

theorem below (new : List (Pair ρ)) (h : Like t t' o o') (hpairs : t.pairs = new ++ s.pairs)
    (hpairs' : t'.pairs = new ++ s'.pairs) : Like s s' o o' := by
  cases h with
  | matched more hsame hmore hmore' =>
      refine .matched (more ++ new) hsame ?_ ?_
      · rw [hmore, hpairs, List.append_assoc]
      · rw [hmore', hpairs', List.append_assoc]
  | failed => exact .failed
  | fault => exact .fault

/-- What goes on from alike outcomes is alike, if it is from states at the same place and from two failures. -/
theorem next {u u' : State ρ} {onMatched onMatched' : State ρ → Outcome ρ}
    {onFailed onFailed' : Attempts ρ → Outcome ρ}
    (hmatched : ∀ {t t' : State ρ} (new : List (Pair ρ)), t.Same t' → t.pairs = new ++ s.pairs →
      t'.pairs = new ++ s'.pairs → Like u u' (onMatched t) (onMatched' t'))
    (hfailed : ∀ r r', Like u u' (onFailed r) (onFailed' r')) : Like s s' o o' →
    Like u u' (match o with | .matched t => onMatched t | .failed r => onFailed r | .fault f => .fault f)
      (match o' with | .matched t => onMatched' t | .failed r => onFailed' r | .fault f => .fault f) := by
  intro h
  cases h with
  | matched new hsame hpairs hpairs' => exact hmatched new hsame hpairs hpairs'
  | failed => exact hfailed _ _
  | fault => exact .fault

end Outcome.Like

theorem State.like_advanceWord {s s' : State ρ} (h : s.Same s') {w : List Char} (rest? : Option (List Char)) :
    Outcome.Like s s' (s.advanceWord w rest?) (s'.advanceWord w rest?) := by
  cases rest? with
  | none => exact .failed
  | some rest => exact .idle ⟨rfl, by simp only [h.offset], h.stack⟩ rfl rfl

/-- Neither the records nor the pairs before make a difference to a run, and a larger budget none to one that
has come to an end. -/
theorem Grammar.run_like {n m : Nat} {s s' : State ρ} (hs : s.Same s') (hnm : n ≤ m) :
    Outcome.Like s s' (g.run n c e s) (g.run m c e s') := by
  induction n generalizing m c e s s' with
  | zero => exact .fault
  | succ n ih =>
      obtain ⟨m, rfl⟩ : ∃ k, m = k + 1 := ⟨m - 1, by omega⟩
      have hnm : n ≤ m := by omega
      cases e with
      | word w =>
          simp only [run, hs.rest]
          exact like_advanceWord hs _
      | caseless w =>
          simp only [run, hs.rest]
          exact like_advanceWord hs _
      | char test =>
          simp only [run, hs.rest]
          split
          · exact .failed
          · split
            · exact .idle ⟨rfl, by simp only [State.advance, hs.offset], hs.stack⟩ rfl rfl
            · exact .failed
      | start =>
          simp only [run, hs.offset]
          split
          · exact .idle hs rfl rfl
          · exact .failed
      | finish =>
          simp only [run, hs.rest]
          split
          · exact .idle hs rfl rfl
          · exact .failed
      | seq a b =>
          simp only [run]
          refine (ih hs hnm).next ?_ fun _ _ => .failed
          intro t t' new hsame hpairs hpairs'
          refine .below new (ih (hsame.skip c g.blank) hnm) ?_ ?_
          · rw [pairs_skip, hpairs]
          · rw [pairs_skip, hpairs']
      | alt a b =>
          simp only [run]
          refine (ih hs hnm).next .matched ?_
          intro r r'
          have hsame : State.Same { s with attempts := r } { s' with attempts := r' } := hs.withAttempts r r'
          exact .below [] (ih hsame hnm) rfl rfl
      | opt a =>
          simp only [run]
          exact (ih hs hnm).next .matched fun r r' => .idle (hs.withAttempts r r') rfl rfl
      | many a =>
          simp only [run]
          refine (ih hs hnm).next ?_ fun r r' => .idle (hs.withAttempts r r') rfl rfl
          intro t t' new hsame hpairs hpairs'
          exact .below new (ih hsame hnm) hpairs hpairs'
      | again a =>
          simp only [run]
          refine (ih (hs.skip c g.blank) hnm).next ?_ fun r r' => .idle (hs.withAttempts r r') rfl rfl
          intro t t' new hsame hpairs hpairs'
          rw [pairs_skip] at hpairs hpairs'
          exact .below new (ih hsame hnm) hpairs hpairs'
      | ahead a =>
          simp only [run]
          refine (ih hs hnm).next ?_ fun _ _ => .failed
          intro t t' _ _ _ _
          exact .idle (hs.withAttempts t.attempts t'.attempts) rfl rfl
      | notAhead a =>
          simp only [run]
          refine (ih hs hnm).next ?_ fun r r' => .idle (hs.withAttempts r r') rfl rfl
          intro t t' _ _ _ _
          exact .failed
      | push a =>
          simp only [run]
          refine (ih hs hnm).next ?_ fun _ _ => .failed
          intro t t' new hsame hpairs hpairs'
          exact .matched new ⟨hsame.rest, hsame.offset, by simp only [hs.consumed hsame, hsame.stack]⟩ hpairs hpairs'
      | top =>
          simp only [run, hs.stack, hs.rest]
          split
          · exact .fault
          · exact like_advanceWord hs _
      | pop =>
          simp only [run, hs.stack, hs.rest]
          split
          · exact .fault
          · rename_i word words _
            have hsame : State.Same { s with stack := words } { s' with stack := words } :=
              ⟨hs.rest, hs.offset, rfl⟩
            exact .below [] (like_advanceWord hsame _) rfl rfl
      | call r =>
          simp only [run]
          split
          · exact ih hs hnm
          · cases hpair : (c.outside (g.kind r)).leavesPair with
            | true =>
                have hsame : State.Same { s with pairs := [] } { s' with pairs := [] } :=
                  ⟨hs.rest, hs.offset, hs.stack⟩
                simp only [if_true]
                refine (ih hsame hnm).next ?_ fun _ _ => .failed
                intro t t' new hsame hpairs hpairs'
                refine .matched [⟨r, s.offset, t.offset, s.consumed t, t.pairs.reverse⟩]
                  ⟨hsame.rest, hsame.offset, hsame.stack⟩ rfl ?_
                simp only [hs.offset, hsame.offset, hs.consumed hsame, hpairs, hpairs', List.cons_append,
                  List.nil_append]
            | false =>
                simp only [Bool.false_eq_true, if_false]
                refine (ih hs hnm).next ?_ fun _ _ => .failed
                intro t t' new hsame hpairs hpairs'
                split
                · exact .matched new (hsame.withAttempts _ _) hpairs hpairs'
                · exact .matched new hsame hpairs hpairs'

def State.onto (t : State ρ) (below : List (Pair ρ)) : State ρ := { t with pairs := t.pairs ++ below }

def State.bare (s : State ρ) : State ρ := { s with pairs := [], attempts := .none }

/-- What is to be seen of an outcome: that it failed, or the place it came to and the new pairs, above those
that were left before. -/
inductive Outcome.Shows (below : List (Pair ρ)) : Outcome ρ → Option (State ρ) → Prop
  | found {t : State ρ} (new : List (Pair ρ)) : t.pairs = new ++ below →
      Shows below (.matched t) (some ⟨t.rest, t.offset, t.stack, new, .none⟩)
  | missed {r : Attempts ρ} : Shows below (.failed r) none

def Gives (g : Grammar ρ) (c : Context) (e : Expr ρ) (s : State ρ) (o : Option (State ρ)) : Prop :=
  ∃ n, (g.run n c e s).Shows s.pairs o

variable {s s' t u : State ρ} {o o' : Option (State ρ)}

theorem Outcome.Like.shows {x x' : Outcome ρ} (h : Outcome.Like s s' x x') (hx : x.Shows s.pairs o) :
    x'.Shows s'.pairs o := by
  cases hx with
  | found new hnew =>
      cases h with
      | matched more hsame hpairs hpairs' =>
          cases List.append_cancel_right (hnew.symm.trans hpairs)
          rw [hsame.rest, hsame.offset, hsame.stack]
          exact .found new hpairs'
  | missed =>
      cases h with
      | failed => exact .missed

namespace Outcome.Shows

variable {x : Outcome ρ} {ps : List (Pair ρ)}

theorem unique (h : x.Shows ps o) (h' : x.Shows ps o') : o = o' := by
  cases h with
  | found new hnew =>
      cases h' with
      | found new' hnew' => rw [List.append_cancel_right (hnew.symm.trans hnew')]
  | missed =>
      cases h' with
      | missed => rfl

theorem matched (h : x.Shows ps (some t)) :
    ∃ t', x = .matched t' ∧ t'.Same t ∧ t'.pairs = t.pairs ++ ps ∧ t.attempts = .none := by
  cases h with
  | @found t' new hnew => exact ⟨t', rfl, ⟨rfl, rfl, rfl⟩, hnew, rfl⟩

theorem failed (h : x.Shows ps none) : ∃ r, x = .failed r := by
  cases h with
  | @missed r => exact ⟨r, rfl⟩

theorem below {qs : List (Pair ρ)} (h : x.Shows qs o) {new : List (Pair ρ)} (hnew : qs = new ++ ps) :
    x.Shows ps (o.map (·.onto new)) := by
  cases h with
  | found more hmore =>
      refine .found (more ++ new) ?_
      rw [hmore, hnew, List.append_assoc]
  | missed => exact .missed

end Outcome.Shows

/-- A run shows something, unless it has a fault. -/
theorem Grammar.shows_run (g : Grammar ρ) (n : Nat) (c : Context) (e : Expr ρ) (s : State ρ) :
    (∃ o, (g.run n c e s).Shows s.pairs o) ∨ ∃ f, g.run n c e s = .fault f := by
  have h : Outcome.Like s s (g.run n c e s) (g.run n c e s) := run_like (.refl s) (Nat.le_refl n)
  revert h
  generalize g.run n c e s = x
  intro h
  cases h with
  | matched new _ hpairs => exact .inl ⟨_, .found new hpairs⟩
  | failed => exact .inl ⟨_, .missed⟩
  | fault => exact .inr ⟨_, rfl⟩

namespace Gives

theorem same (h : Gives g c e s o) (hs : s.Same s') : Gives g c e s' o := by
  obtain ⟨n, h⟩ := h
  exact ⟨n, (Grammar.run_like hs (Nat.le_refl n)).shows h⟩

theorem at_least (h : Gives g c e s o) : ∃ n, ∀ m, n ≤ m → (g.run m c e s).Shows s.pairs o := by
  obtain ⟨n, h⟩ := h
  exact ⟨n, fun m hnm => (Grammar.run_like (.refl s) hnm).shows h⟩

theorem unique (h : Gives g c e s o) (h' : Gives g c e s o') : o = o' := by
  obtain ⟨n, h⟩ := h.at_least
  obtain ⟨n', h'⟩ := h'.at_least
  exact (h (max n n') (Nat.le_max_left _ _)).unique (h' (max n n') (Nat.le_max_right _ _))

theorem derives (h : Gives g c e s (some t)) :
    ∃ t', Derives g c e s t' ∧ t'.Same t ∧ t'.pairs = t.pairs ++ s.pairs := by
  obtain ⟨n, h⟩ := h
  obtain ⟨t', hrun, hsame, hpairs, _⟩ := h.matched
  exact ⟨t', .of_run hrun, hsame, hpairs⟩

theorem reaches (h : Gives g c e s (some t)) : s.Reaches t := by
  obtain ⟨t', h, hsame, _⟩ := h.derives
  obtain ⟨w, hrest, hoffset⟩ := h.reaches
  exact ⟨w, hsame.rest ▸ hrest, hsame.offset ▸ hoffset⟩

end Gives

theorem gives_seq : Gives g c (.seq a b) s o ↔
    (Gives g c a s none ∧ o = none) ∨
      ∃ t o', Gives g c a s (some t) ∧ Gives g c b (t.skip c g.blank) o' ∧ o = o'.map (·.onto t.pairs) := by
  constructor
  · rintro ⟨n, h⟩
    cases n with
    | zero => cases h
    | succ n =>
        simp only [Grammar.run] at h
        rcases g.shows_run n c a s with ⟨oa, ha⟩ | ⟨f, hf⟩
        · cases oa with
          | none =>
              obtain ⟨r, hr⟩ := ha.failed
              rw [hr] at h
              exact .inl ⟨⟨n, ha⟩, h.unique .missed⟩
          | some t =>
              obtain ⟨t', ht, hsame, hpairs, _⟩ := ha.matched
              rw [ht] at h
              rcases g.shows_run n c b (t'.skip c g.blank) with ⟨ob, hb⟩ | ⟨f, hf⟩
              · refine .inr ⟨t, ob, ⟨n, ha⟩, Gives.same ⟨n, hb⟩ (hsame.skip c g.blank), ?_⟩
                exact h.unique (hb.below (by rw [pairs_skip, hpairs]))
              · simp only [hf] at h
                cases h
        · rw [hf] at h
          cases h
  · rintro (⟨⟨n, ha⟩, rfl⟩ | ⟨t, ob, ha, hb, rfl⟩)
    · obtain ⟨r, hr⟩ := ha.failed
      refine ⟨n + 1, ?_⟩
      simp only [Grammar.run, hr]
      exact .missed
    · obtain ⟨n, ha⟩ := ha.at_least
      obtain ⟨n', hb⟩ := hb.at_least
      obtain ⟨t', ht, hsame, hpairs, _⟩ := (ha (max n n') (Nat.le_max_left _ _)).matched
      refine ⟨max n n' + 1, ?_⟩
      simp only [Grammar.run, ht]
      have hb := hb (max n n') (Nat.le_max_right _ _)
      have hb := (Grammar.run_like (hsame.symm.skip c g.blank) (Nat.le_refl _)).shows hb
      exact hb.below (by rw [pairs_skip, hpairs])

theorem gives_alt : Gives g c (.alt a b) s o ↔
    (∃ t, Gives g c a s (some t) ∧ o = some t) ∨ (Gives g c a s none ∧ Gives g c b s o) := by
  constructor
  · rintro ⟨n, h⟩
    cases n with
    | zero => cases h
    | succ n =>
        simp only [Grammar.run] at h
        rcases g.shows_run n c a s with ⟨oa, ha⟩ | ⟨f, hf⟩
        · cases oa with
          | none =>
              obtain ⟨r, hr⟩ := ha.failed
              rw [hr] at h
              have hb : Gives g c b { s with attempts := r } o := ⟨n, h⟩
              exact .inr ⟨⟨n, ha⟩, hb.same ⟨rfl, rfl, rfl⟩⟩
          | some t =>
              obtain ⟨t', ht, _⟩ := ha.matched
              refine .inl ⟨t, ⟨n, ha⟩, ?_⟩
              rw [ht] at h ha
              exact h.unique ha
        · rw [hf] at h
          cases h
  · rintro (⟨t, ⟨n, ha⟩, rfl⟩ | ⟨ha, hb⟩)
    · obtain ⟨t', ht, _⟩ := ha.matched
      refine ⟨n + 1, ?_⟩
      rw [ht] at ha
      simp only [Grammar.run, ht]
      exact ha
    · obtain ⟨n, ha⟩ := ha.at_least
      obtain ⟨n', hb⟩ := hb.at_least
      obtain ⟨r, hr⟩ := (ha (max n n') (Nat.le_max_left _ _)).failed
      refine ⟨max n n' + 1, ?_⟩
      simp only [Grammar.run, hr]
      have hsame : s.Same { s with attempts := r } := ⟨rfl, rfl, rfl⟩
      exact (Grammar.run_like hsame (Nat.le_refl _)).shows (hb (max n n') (Nat.le_max_right _ _))

/-- An expression that tries one part and then only looks at the outcome. -/
theorem gives_part {c' : Context} {found : State ρ → Option (State ρ)} {missed : Option (State ρ)} (hs : s.Same s')
    (hfound : ∀ {n t t'}, g.run n c' a s' = .matched t' → (Outcome.matched t').Shows s'.pairs (some t) →
      (g.run (n + 1) c e s).Shows s.pairs (found t))
    (hmissed : ∀ {n r}, g.run n c' a s' = .failed r → (g.run (n + 1) c e s).Shows s.pairs missed)
    (hfault : ∀ {n f}, g.run n c' a s' = .fault f → g.run (n + 1) c e s = .fault f) :
    Gives g c e s o ↔ (∃ t, Gives g c' a s (some t) ∧ o = found t) ∨ (Gives g c' a s none ∧ o = missed) := by
  constructor
  · rintro ⟨n, h⟩
    cases n with
    | zero => cases h
    | succ n =>
        rcases g.shows_run n c' a s' with ⟨oa, ha⟩ | ⟨f, hf⟩
        · cases oa with
          | none =>
              obtain ⟨r, hr⟩ := ha.failed
              exact .inr ⟨Gives.same ⟨n, ha⟩ hs.symm, h.unique (hmissed hr)⟩
          | some t =>
              obtain ⟨t', ht, _⟩ := ha.matched
              exact .inl ⟨t, Gives.same ⟨n, ha⟩ hs.symm, h.unique (hfound ht (ht ▸ ha))⟩
        · rw [hfault hf] at h
          cases h
  · rintro (⟨t, ha, rfl⟩ | ⟨ha, rfl⟩)
    · obtain ⟨n, ha⟩ := ha.same hs
      obtain ⟨t', ht, _⟩ := ha.matched
      exact ⟨n + 1, hfound ht (ht ▸ ha)⟩
    · obtain ⟨n, ha⟩ := ha.same hs
      obtain ⟨r, hr⟩ := ha.failed
      exact ⟨n + 1, hmissed hr⟩

theorem shows_idle (s : State ρ) (r : Attempts ρ) :
    (Outcome.matched { s with attempts := r }).Shows s.pairs (some s.bare) :=
  .found [] rfl

theorem gives_opt : Gives g c (.opt a) s o ↔
    (∃ t, Gives g c a s (some t) ∧ o = some t) ∨ (Gives g c a s none ∧ o = some s.bare) := by
  refine gives_part (.refl s) ?_ ?_ ?_
  · intro n t t' ht h
    simpa only [Grammar.run, ht] using h
  · intro n r hr
    simpa only [Grammar.run, hr] using shows_idle s r
  · intro n f hf
    simp only [Grammar.run, hf]

theorem gives_ahead : Gives g c (.ahead a) s o ↔
    (∃ t, Gives g c.ahead a s (some t) ∧ o = some s.bare) ∨ (Gives g c.ahead a s none ∧ o = none) := by
  refine gives_part (.refl s) ?_ ?_ ?_
  · intro n t t' ht _
    simpa only [Grammar.run, ht] using shows_idle s t'.attempts
  · intro n r hr
    simpa only [Grammar.run, hr] using .missed
  · intro n f hf
    simp only [Grammar.run, hf]

theorem gives_notAhead : Gives g c (.notAhead a) s o ↔
    (∃ t, Gives g c.notAhead a s (some t) ∧ o = none) ∨ (Gives g c.notAhead a s none ∧ o = some s.bare) := by
  refine gives_part (.refl s) ?_ ?_ ?_
  · intro n t t' ht _
    simpa only [Grammar.run, ht] using .missed
  · intro n r hr
    simpa only [Grammar.run, hr] using shows_idle s r
  · intro n f hf
    simp only [Grammar.run, hf]

theorem gives_silent {r : ρ} (hkind : g.kind r = .silent) :
    Gives g c (.call r) s o ↔ Gives g c (g.body r) s o := by
  constructor
  · rintro ⟨n, h⟩
    cases n with
    | zero => cases h
    | succ n =>
        simp only [Grammar.run, hkind] at h
        exact ⟨n, h⟩
  · rintro ⟨n, h⟩
    refine ⟨n + 1, ?_⟩
    simp only [Grammar.run, hkind]
    exact h

def State.paired (s t : State ρ) (r : ρ) : State ρ :=
  ⟨t.rest, t.offset, t.stack, [⟨r, s.offset, t.offset, s.consumed t, t.pairs.reverse⟩], .none⟩

theorem gives_pair {r : ρ} (hkind : g.kind r ≠ .silent) (hleaves : (c.outside (g.kind r)).leavesPair) :
    Gives g c (.call r) s o ↔ (∃ t, Gives g (c.inside (g.kind r)) (g.body r) s (some t) ∧ o = some (s.paired t r)) ∨
      (Gives g (c.inside (g.kind r)) (g.body r) s none ∧ o = none) := by
  have hs : s.Same { s with pairs := [] } := ⟨rfl, rfl, rfl⟩
  refine gives_part hs ?_ ?_ ?_
  · intro n t t' ht h
    simp only [Grammar.run, hleaves, if_true, ht]
    cases h with
    | found new hnew =>
        have hpairs : t'.pairs.reverse = new.reverse := by rw [hnew, List.append_nil]
        rw [State.paired, ← hpairs]
        exact .found [_] rfl
  · intro n r hr
    simpa only [Grammar.run, hleaves, if_true, hr] using .missed
  · intro n f hf
    simp only [Grammar.run, hleaves, if_true, hf]

theorem gives_hidden {r : ρ} (hkind : g.kind r ≠ .silent) (hleaves : (c.outside (g.kind r)).leavesPair = false) :
    Gives g c (.call r) s o ↔ Gives g (c.inside (g.kind r)) (g.body r) s o := by
  have hpart : Gives g c (.call r) s o ↔
      (∃ t, Gives g (c.inside (g.kind r)) (g.body r) s (some t) ∧ o = some t) ∨
        (Gives g (c.inside (g.kind r)) (g.body r) s none ∧ o = none) := by
    refine gives_part (.refl s) ?_ ?_ ?_
    · intro n t t' ht h
      simp only [Grammar.run, hleaves, Bool.false_eq_true, if_false, ht]
      cases h with
      | found new hnew =>
          split
          · exact .found new hnew
          · exact .found new hnew
    · intro n r hr
      simpa only [Grammar.run, hleaves, Bool.false_eq_true, if_false, hr] using .missed
    · intro n f hf
      simp only [Grammar.run, hleaves, Bool.false_eq_true, if_false, hf]
  rw [hpart]
  cases o with
  | none => simp
  | some t => simp

/-- Where blanks are not allowed, the further rounds of a repetition are no different from the first one. -/
theorem Grammar.run_again (hc : c.atomicity ≠ .spaced) (n : Nat) : g.run n c (.again a) s = g.run n c (.many a) s := by
  cases n with
  | zero => rfl
  | succ n => simp only [run, State.skip_of_ne_spaced s g.blank hc]

theorem Gives.many_induct {P : State ρ → Option (State ρ) → Prop} (hc : c.atomicity ≠ .spaced)
    (hstop : ∀ {s}, Gives g c a s none → P s (some s.bare))
    (hround : ∀ {s t o}, Gives g c a s (some t) → Gives g c (.many a) t o → P t o → P s (o.map (·.onto t.pairs)))
    (h : Gives g c (.many a) s o) : P s o := by
  obtain ⟨n, h⟩ := h
  induction n generalizing s o with
  | zero => cases h
  | succ n ih =>
      simp only [Grammar.run] at h
      rcases g.shows_run n c a s with ⟨oa, ha⟩ | ⟨f, hf⟩
      · cases oa with
        | none =>
            obtain ⟨r, hr⟩ := ha.failed
            rw [hr] at h
            rw [h.unique (shows_idle s r)]
            exact hstop ⟨n, ha⟩
        | some t =>
            obtain ⟨t', ht, hsame, hpairs, _⟩ := ha.matched
            simp only [ht, Grammar.run_again hc] at h
            rcases g.shows_run n c (.many a) t' with ⟨ob, hb⟩ | ⟨f, hf⟩
            · have hmore := (Grammar.run_like hsame (Nat.le_refl n)).shows hb
              rw [h.unique (hb.below hpairs)]
              exact hround ⟨n, ha⟩ ⟨n, hmore⟩ (ih hmore)
            · rw [hf] at h
              cases h
      · rw [hf] at h
        cases h

theorem gives_many (hc : c.atomicity ≠ .spaced) : Gives g c (.many a) s o ↔
    (Gives g c a s none ∧ o = some s.bare) ∨
      ∃ t o', Gives g c a s (some t) ∧ Gives g c (.many a) t o' ∧ o = o'.map (·.onto t.pairs) := by
  constructor
  · intro h
    refine h.many_induct (P := fun s o => (Gives g c a s none ∧ o = some s.bare) ∨
      ∃ t o', Gives g c a s (some t) ∧ Gives g c (.many a) t o' ∧ o = o'.map (·.onto t.pairs)) hc ?_ ?_
    · intro s ha
      exact .inl ⟨ha, rfl⟩
    · intro s t o ha hmore _
      exact .inr ⟨t, o, ha, hmore, rfl⟩
  · rintro (⟨⟨n, ha⟩, rfl⟩ | ⟨t, ob, ha, hb, rfl⟩)
    · obtain ⟨r, hr⟩ := ha.failed
      refine ⟨n + 1, ?_⟩
      simpa only [Grammar.run, hr] using shows_idle s r
    · obtain ⟨n, ha⟩ := ha.at_least
      obtain ⟨n', hb⟩ := hb.at_least
      obtain ⟨t', ht, hsame, hpairs, _⟩ := (ha (max n n') (Nat.le_max_left _ _)).matched
      refine ⟨max n n' + 1, ?_⟩
      simp only [Grammar.run, ht, Grammar.run_again hc]
      have hb := hb (max n n') (Nat.le_max_right _ _)
      exact ((Grammar.run_like hsame.symm (Nat.le_refl _)).shows hb).below hpairs

/-- A repetition goes on as long as it can, and does not fail. -/
theorem Gives.many_stop (hc : c.atomicity ≠ .spaced) (h : Gives g c (.many a) s o) :
    ∃ t, o = some t ∧ Gives g c a t none := by
  refine h.many_induct (P := fun _ o => ∃ t, o = some t ∧ Gives g c a t none) hc ?_ ?_
  · intro s ha
    exact ⟨s.bare, rfl, ha.same ⟨rfl, rfl, rfl⟩⟩
  · rintro s t o _ _ ⟨u, rfl, hu⟩
    exact ⟨u.onto t.pairs, rfl, hu.same ⟨rfl, rfl, rfl⟩⟩

theorem gives_seq_meets (hc : c.atomicity ≠ .spaced) : Gives g c (.seq a b) s o ↔
    (Gives g c a s none ∧ o = none) ∨
      ∃ t o', Gives g c a s (some t) ∧ Gives g c b t o' ∧ o = o'.map (·.onto t.pairs) := by
  rw [gives_seq]
  simp only [State.skip_of_ne_spaced _ _ hc]

theorem Gives.seq (hc : c.atomicity ≠ .spaced) (ha : Gives g c a s (some t)) (hb : Gives g c b t o) :
    Gives g c (.seq a b) s (o.map (·.onto t.pairs)) :=
  (gives_seq_meets hc).mpr (.inr ⟨t, o, ha, hb, rfl⟩)

theorem Gives.seq_none (ha : Gives g c a s none) : Gives g c (.seq a b) s none :=
  gives_seq.mpr (.inl ⟨ha, rfl⟩)

theorem Gives.alt (ha : Gives g c a s none) (hb : Gives g c b s o) : Gives g c (.alt a b) s o :=
  gives_alt.mpr (.inr ⟨ha, hb⟩)

theorem Gives.first (ha : Gives g c a s (some t)) : Gives g c (.alt a b) s (some t) :=
  gives_alt.mpr (.inl ⟨t, ha, rfl⟩)

def State.over (s : State ρ) (w rest : List Char) : State ρ :=
  ⟨rest, s.offset + Text.byteLength w, s.stack, [], .none⟩

theorem gives_word {w : List Char} : Gives g c (.word w) s o ↔ o = (Text.stripWord? w s.rest).map (s.over w) := by
  have hshows : (g.run 1 c (.word w) s).Shows s.pairs ((Text.stripWord? w s.rest).map (s.over w)) := by
    simp only [Grammar.run]
    cases Text.stripWord? w s.rest with
    | none => exact .missed
    | some rest => exact .found [] rfl
  constructor
  · intro h
    exact h.unique ⟨1, hshows⟩
  · rintro rfl
    exact ⟨1, hshows⟩

theorem gives_start (hs : s.offset = 0) : Gives g c .start s (some s.bare) := by
  refine ⟨1, ?_⟩
  simp only [Grammar.run, if_pos hs]
  exact shows_idle s s.attempts

theorem gives_finish : Gives g c .finish s o ↔ o = if s.rest = [] then some s.bare else none := by
  have hshows : (g.run 1 c .finish s).Shows s.pairs (if s.rest = [] then some s.bare else none) := by
    simp only [Grammar.run, List.isEmpty_iff]
    split
    · exact shows_idle s s.attempts
    · exact .missed
  constructor
  · intro h
    exact h.unique ⟨1, hshows⟩
  · rintro rfl
    exact ⟨1, hshows⟩

/-- In a grammar with a bound and a balance, every match comes to an end. -/
theorem Grammar.gives_total {solid : ρ → Bool} {rank needs leaves : ρ → Nat} {bound : Nat}
    (hbounded : Bounded g solid rank bound) (hbalanced : Balanced g needs leaves) (c : Context)
    (he : e.tame solid rank bound) (hs : e.Supplied needs leaves s) : ∃ o, Gives g c e s o := by
  rcases g.shows_run (bound * s.rest.length + e.height solid rank) c e s with ⟨o, h⟩ | ⟨f, hf⟩
  · exact ⟨o, _, h⟩
  · cases f with
    | exhausted => exact absurd hf (run_within hbounded he (Nat.le_refl _))
    | nothingRemembered => exact absurd hf (run_supplied hbalanced hs)

/-- What a parse that comes to an end answers, for a rule that leaves a pair. -/
theorem Grammar.gives_parse {r : ρ} {text : List Char} (hkind : g.kind r ≠ .silent)
    (h : ∀ f, g.parse r text ≠ .error (.fault f)) :
    (∃ t, Gives g (Context.top.inside (g.kind r)) (g.body r) (initial text) (some t) ∧
      g.parse r text = .ok ((initial text).paired t r).pairs) ∨
    (Gives g (Context.top.inside (g.kind r)) (g.body r) (initial text) none ∧ ∃ e, g.parse r text = .error e) := by
  have hcall : ∀ {o}, Gives g .top (.call r) (initial text) o ↔ _ :=
    gives_pair hkind (Context.leavesPair_outside .top _ rfl)
  unfold parse at h ⊢
  rcases g.shows_run (depthPerChar * (text.length + 1)) .top (.call r) (initial text) with ⟨o, ho⟩ | ⟨f, hf⟩
  · rcases hcall.mp ⟨_, ho⟩ with ⟨t, ht, rfl⟩ | ⟨hnone, rfl⟩
    · obtain ⟨t', hrun, _, hpairs, _⟩ := ho.matched
      refine .inl ⟨t, ht, ?_⟩
      rw [hrun]
      simp only [hpairs, initial, List.append_nil]
      rfl
    · obtain ⟨a, ha⟩ := ho.failed
      refine .inr ⟨hnone, ?_⟩
      rw [ha]
      exact ⟨_, rfl⟩
  · rw [hf] at h
    exact absurd rfl (h f)

end LiquidTemplate.Peg
