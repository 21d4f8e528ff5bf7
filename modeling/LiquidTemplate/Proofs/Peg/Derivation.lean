import LiquidTemplate.Peg.Match

namespace LiquidTemplate.Peg

variable {ρ : Type}

def Fails (g : Grammar ρ) (c : Context) (e : Expr ρ) (s : State ρ) (a : Attempts ρ) : Prop :=
  ∃ n, g.run n c e s = .failed a

/-- `Derives g c e s t`: the expression takes the state `s` to `t`. There is one rule for each way
in which an expression can match; what must fail for that is a premise. -/
inductive Derives (g : Grammar ρ) : Context → Expr ρ → State ρ → State ρ → Prop
  | word {c s w rest} : Text.stripWord? w s.rest = some rest →
      Derives g c (.word w) s { s with rest := rest, offset := s.offset + Text.byteLength w }
  | caseless {c s w rest} : Text.stripCaseless? w s.rest = some rest →
      Derives g c (.caseless w) s { s with rest := rest, offset := s.offset + Text.byteLength w }
  | char {c s test x xs} : s.rest = x :: xs → test x → Derives g c (.char test) s (s.advance x xs)
  | start {c s} : s.offset = 0 → Derives g c .start s s
  | finish {c s} : s.rest = [] → Derives g c .finish s s
  | seq {c s t u a b} : Derives g c a s t → Derives g c b (t.skip c g.blank) u →
      Derives g c (.seq a b) s u
  | first {c s t a b} : Derives g c a s t → Derives g c (.alt a b) s t
  | second {c s t a b r} : Fails g c a s r → Derives g c b { s with attempts := r } t →
      Derives g c (.alt a b) s t
  | present {c s t a} : Derives g c a s t → Derives g c (.opt a) s t
  | absent {c s a r} : Fails g c a s r → Derives g c (.opt a) s { s with attempts := r }
  | none {c s a r} : Fails g c a s r → Derives g c (.many a) s { s with attempts := r }
  | some {c s t u a} : Derives g c a s t → Derives g c (.again a) t u → Derives g c (.many a) s u
  | last {c s a r} : Fails g c a (s.skip c g.blank) r →
      Derives g c (.again a) s { s with attempts := r }
  | next {c s t u a} : Derives g c a (s.skip c g.blank) t → Derives g c (.again a) t u →
      Derives g c (.again a) s u
  | ahead {c s t a} : Derives g c.ahead a s t →
      Derives g c (.ahead a) s { s with attempts := t.attempts }
  | notAhead {c s a r} : Fails g c.notAhead a s r →
      Derives g c (.notAhead a) s { s with attempts := r }
  | push {c s t a} : Derives g c a s t →
      Derives g c (.push a) s { t with stack := s.consumed t :: t.stack }
  | top {c s w ws rest} : s.stack = w :: ws → Text.stripWord? w s.rest = some rest →
      Derives g c .top s { s with rest := rest, offset := s.offset + Text.byteLength w }
  | pop {c s w ws rest} : s.stack = w :: ws → Text.stripWord? w s.rest = some rest →
      Derives g c .pop s
        { s with rest := rest, offset := s.offset + Text.byteLength w, stack := ws }
  | silent {c s t r} : g.kind r = .silent → Derives g c (g.body r) s t → Derives g c (.call r) s t
  | pair {c s t r} : g.kind r ≠ .silent → (c.outside (g.kind r)).leavesPair →
      Derives g (c.inside (g.kind r)) (g.body r) { s with pairs := [] } t →
      Derives g c (.call r) s
        { t with pairs := ⟨r, s.offset, t.offset, s.consumed t, t.pairs.reverse⟩ :: s.pairs }
  | hidden {c s t r a} : g.kind r ≠ .silent → (c.outside (g.kind r)).leavesPair = false →
      Derives g (c.inside (g.kind r)) (g.body r) s t →
      Derives g c (.call r) s { t with attempts := a }

theorem advanceWord_matched {s t : State ρ} {w : List Char} {rest? : Option (List Char)}
    (h : s.advanceWord w rest? = .matched t) :
    ∃ rest, rest? = some rest ∧
      t = { s with rest := rest, offset := s.offset + Text.byteLength w } := by
  cases rest? with
  | none => cases h
  | some rest =>
      cases h
      exact ⟨rest, rfl, rfl⟩

/-- Every match of the matcher is derived. -/
theorem Derives.of_run {g : Grammar ρ} {n : Nat} {c : Context} {e : Expr ρ} {s t : State ρ}
    (h : g.run n c e s = .matched t) : Derives g c e s t := by
  induction n generalizing c e s t with
  | zero => cases h
  | succ n ih =>
      cases e with
      | word w =>
          obtain ⟨rest, hrest, rfl⟩ := advanceWord_matched h
          exact .word hrest
      | caseless w =>
          obtain ⟨rest, hrest, rfl⟩ := advanceWord_matched h
          exact .caseless hrest
      | char test =>
          simp only [Grammar.run] at h
          split at h
          · cases h
          · rename_i x xs hrest
            split at h
            · rename_i htest
              cases h
              exact .char hrest htest
            · cases h
      | start =>
          simp only [Grammar.run] at h
          split at h
          · rename_i hoffset
            cases h
            exact .start hoffset
          · cases h
      | finish =>
          simp only [Grammar.run] at h
          split at h
          · rename_i hrest
            cases h
            exact .finish (List.isEmpty_iff.mp hrest)
          · cases h
      | seq a b =>
          simp only [Grammar.run] at h
          split at h
          · rename_i u ha
            exact .seq (ih ha) (ih h)
          · cases h
          · cases h
      | alt a b =>
          simp only [Grammar.run] at h
          split at h
          · rename_i u ha
            cases h
            exact .first (ih ha)
          · rename_i r ha
            exact .second ⟨n, ha⟩ (ih h)
          · cases h
      | opt a =>
          simp only [Grammar.run] at h
          split at h
          · rename_i u ha
            cases h
            exact .present (ih ha)
          · rename_i r ha
            cases h
            exact .absent ⟨n, ha⟩
          · cases h
      | many a =>
          simp only [Grammar.run] at h
          split at h
          · rename_i u ha
            exact .some (ih ha) (ih h)
          · rename_i r ha
            cases h
            exact .none ⟨n, ha⟩
          · cases h
      | again a =>
          simp only [Grammar.run] at h
          split at h
          · rename_i u ha
            exact .next (ih ha) (ih h)
          · rename_i r ha
            cases h
            exact .last ⟨n, ha⟩
          · cases h
      | ahead a =>
          simp only [Grammar.run] at h
          split at h
          · rename_i u ha
            cases h
            exact .ahead (ih ha)
          · cases h
          · cases h
      | notAhead a =>
          simp only [Grammar.run] at h
          split at h
          · cases h
          · rename_i r ha
            cases h
            exact .notAhead ⟨n, ha⟩
          · cases h
      | push a =>
          simp only [Grammar.run] at h
          split at h
          · rename_i u ha
            cases h
            exact .push (ih ha)
          · cases h
          · cases h
      | top =>
          simp only [Grammar.run] at h
          split at h
          · cases h
          · rename_i w ws hstack
            obtain ⟨rest, hrest, rfl⟩ := advanceWord_matched h
            exact .top hstack hrest
      | pop =>
          simp only [Grammar.run] at h
          split at h
          · cases h
          · rename_i w ws hstack
            obtain ⟨rest, hrest, rfl⟩ := advanceWord_matched h
            exact .pop hstack hrest
      | call r =>
          simp only [Grammar.run] at h
          split at h
          · rename_i hkind
            exact .silent hkind (ih h)
          · rename_i hkind
            split at h
            · rename_i u hbody
              cases hpair : (c.outside (g.kind r)).leavesPair with
              | true =>
                  simp only [hpair, if_true] at hbody h
                  cases h
                  exact .pair hkind hpair (ih hbody)
              | false =>
                  simp only [hpair, Bool.false_eq_true, if_false] at hbody h
                  split at h
                  · cases h
                    exact .hidden hkind hpair (ih hbody)
                  · cases h
                    exact .hidden hkind hpair (ih hbody)
            · cases h
            · cases h

end LiquidTemplate.Peg
