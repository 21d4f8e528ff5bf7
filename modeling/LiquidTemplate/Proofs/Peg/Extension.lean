import LiquidTemplate.Proofs.Peg.Runs

namespace LiquidTemplate.Peg

open State Text

variable {ρ : Type} {g : Grammar ρ} {c : Context} {e : Expr ρ} {s s' : State ρ} {o : Option (State ρ)} {x : Char}
  {tail : List Char}

/-- Whether no match of the expression takes the letter, or looks further than at it.  Of the rules only those
for single characters count. -/
def Expr.shuns (g : Grammar ρ) (x : Char) : Expr ρ → Bool
  | word w => !w.contains x
  | char test => !test x
  | seq a b => a.shuns g x && b.shuns g x
  | alt a b => a.shuns g x && b.shuns g x
  | opt a => a.shuns g x
  | many a => a.shuns g x
  | notAhead a => a.shuns g x
  | call r => g.kind r == .silent && (g.body r).test?.any (!· x)
  | _ => false

/-- The expression gives the same before a text as at the end. -/
inductive Extends (g : Grammar ρ) (c : Context) (e : Expr ρ) (s s' : State ρ) (tail : List Char) :
    Option (State ρ) → Prop
  | missed : Gives g c e s' none → Extends g c e s s' tail none
  | found {v r : List Char} : s.rest = v ++ r → Gives g c e s' (some (s'.over v (r ++ tail))) →
      Extends g c e s s' tail (some (s.over v r))

theorem Extends.idle (hs : s'.rest = s.rest ++ tail) (h : Gives g c e s' (some s'.bare)) :
    Extends g c e s s' tail (some s.bare) := by
  rw [← over_nil s rfl]
  rw [← over_nil s' hs] at h
  exact .found rfl h

theorem stripWord?_append_of_not_mem {w rest : List Char} (hw : x ∉ w) :
    stripWord? w (rest ++ x :: tail) = (stripWord? w rest).map (· ++ x :: tail) := by
  induction w generalizing rest with
  | nil => cases rest <;> rfl
  | cons y w ih =>
      simp only [List.mem_cons, not_or] at hw
      cases rest with
      | nil => simp [stripWord?, Ne.symm hw.1]
      | cons z rest =>
          simp only [List.cons_append, stripWord?]
          split
          · exact ih hw.2
          · rfl

theorem extends_test {f : Char → Bool} (hx : f x = false) (hs : s'.rest = s.rest ++ x :: tail)
    (h : Gives g c e s' (s'.one? f)) : Extends g c e s s' (x :: tail) (s.one? f) := by
  cases hrest : s.rest with
  | nil =>
      have hnone : ∀ t : State ρ, t.rest = [] ∨ t.rest = x :: tail → t.one? f = none := by
        intro t ht
        apply one?_of_not
        rcases ht with ht | ht <;> simp [ht, hx]
      rw [hrest] at hs
      rw [hnone s' (.inr hs)] at h
      rw [hnone s (.inl hrest)]
      exact .missed h
  | cons y rest =>
      rw [hrest] at hs
      by_cases hy : f y
      · rw [one?_cons hs hy] at h
        rw [one?_cons hrest hy]
        exact .found hrest h
      · have hnone : ∀ {t : State ρ} {r}, t.rest = y :: r → t.one? f = none := by
          intro t r ht
          apply one?_of_not
          simpa [ht] using hy
        rw [hnone hs] at h
        rw [hnone hrest]
        exact .missed h

/-- What follows on a letter that the expression never takes makes no difference to a match before it. -/
theorem Gives.extend (hc : c.atomicity ≠ .spaced) (he : e.shuns g x) (hs : s'.rest = s.rest ++ x :: tail)
    (h : Gives g c e s o) : Extends g c e s s' (x :: tail) o := by
  induction e generalizing c s s' o with
  | word w =>
      simp only [Expr.shuns, Bool.not_eq_true', List.contains_eq_mem, decide_eq_false_iff_not] at he
      have hword : Gives g c (.word w) s' _ := gives_word.mpr rfl
      rw [hs, stripWord?_append_of_not_mem he] at hword
      rw [gives_word.mp h]
      cases hrest : stripWord? w s.rest with
      | none =>
          rw [hrest] at hword
          exact .missed hword
      | some rest =>
          rw [hrest] at hword
          exact .found (stripWord?_eq_some hrest) hword
  | char test =>
      rw [h.unique (gives_test rfl)]
      exact extends_test (by simpa [Expr.shuns] using he) hs (gives_test rfl)
  | call r =>
      simp only [Expr.shuns, Bool.and_eq_true, beq_iff_eq, Option.any_eq_true] at he
      obtain ⟨hkind, f, hf, hx⟩ := he
      have hcall : ∀ t, Gives g c (.call r) t (t.one? f) := fun t => (gives_silent hkind).mpr (gives_test hf)
      rw [h.unique (hcall s)]
      exact extends_test (by simpa using hx) hs (hcall s')
  | seq a b iha ihb =>
      simp only [Expr.shuns, Bool.and_eq_true] at he
      rcases (gives_seq_meets hc).mp h with ⟨ha, rfl⟩ | ⟨t, ob, ha, hb, rfl⟩
      · cases iha hc he.1 hs ha with
        | missed ha' => exact .missed ha'.seq_none
      · cases iha hc he.1 hs ha with
        | @found v r hv ha' =>
            cases ihb hc he.2 (s'.rest_over v (r ++ x :: tail)) hb with
            | missed hb' => exact .missed (ha'.seq hc hb')
            | @found w r' hw hb' =>
                rw [Option.map_some, pairs_over, onto_nil, over_over]
                refine .found ?_ (ha'.seq_over hc hb')
                rw [hv, List.append_assoc]
                exact congrArg (v ++ ·) hw
  | alt a b iha ihb =>
      simp only [Expr.shuns, Bool.and_eq_true] at he
      rcases gives_alt.mp h with ⟨t, ha, rfl⟩ | ⟨ha, hb⟩
      · cases iha hc he.1 hs ha with
        | found hv ha' => exact .found hv ha'.first
      · cases iha hc he.1 hs ha with
        | missed ha' =>
            cases ihb hc he.2 hs hb with
            | missed hb' => exact .missed (ha'.alt hb')
            | found hv hb' => exact .found hv (ha'.alt hb')
  | opt a iha =>
      rcases gives_opt.mp h with ⟨t, ha, rfl⟩ | ⟨ha, rfl⟩
      · cases iha hc he hs ha with
        | found hv ha' => exact .found hv (gives_opt.mpr (.inl ⟨_, ha', rfl⟩))
      · cases iha hc he hs ha with
        | missed ha' => exact .idle hs (gives_opt.mpr (.inr ⟨ha', rfl⟩))
  | notAhead a iha =>
      have hc' : c.notAhead.atomicity ≠ .spaced := by rwa [Context.atomicity_notAhead]
      rcases gives_notAhead.mp h with ⟨t, ha, rfl⟩ | ⟨ha, rfl⟩
      · cases iha hc' he hs ha with
        | found hv ha' => exact .missed (gives_notAhead.mpr (.inl ⟨_, ha', rfl⟩))
      · cases iha hc' he hs ha with
        | missed ha' => exact .idle hs (gives_notAhead.mpr (.inr ⟨ha', rfl⟩))
  | many a iha =>
      refine h.many_induct (P := fun s o => ∀ {s'}, s'.rest = s.rest ++ x :: tail →
        Extends g c (.many a) s s' (x :: tail) o) hc ?_ ?_ hs
      · intro s ha s' hs
        cases iha hc he hs ha with
        | missed ha' => exact .idle hs ((gives_many hc).mpr (.inl ⟨ha', rfl⟩))
      · intro s t o ha _ ih s' hs
        cases iha hc he hs ha with
        | @found v r hv ha' =>
            have hmore := ih (s'.rest_over v (r ++ x :: tail))
            cases hmore with
            | missed hb' => exact .missed ((gives_many hc).mpr (.inr ⟨_, _, ha', hb', rfl⟩))
            | @found w r' hw hb' =>
                rw [Option.map_some, pairs_over, onto_nil, over_over]
                refine .found ?_ ((gives_many hc).mpr (.inr ⟨_, _, ha', hb', ?_⟩))
                · rw [hv, List.append_assoc]
                  exact congrArg (v ++ ·) hw
                · rw [Option.map_some, pairs_over, onto_nil, over_over]
  | _ => cases he

end LiquidTemplate.Peg
