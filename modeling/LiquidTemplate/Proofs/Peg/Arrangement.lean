import LiquidTemplate.Proofs.Peg.Shape

namespace LiquidTemplate.Peg

open State

variable {ρ : Type}

inductive Place (ρ : Type) where
  | one (rules : List ρ)
  | maybe (rules : List ρ)
  | many (rules : List ρ)
  deriving DecidableEq

def Place.rules : Place ρ → List ρ
  | one rules | maybe rules | many rules => rules

def Arranged : List (Place ρ) → List (Pair ρ) → Prop
  | [], ps => ps = []
  | .one rules :: places, ps => ∃ p qs, ps = p :: qs ∧ p.rule ∈ rules ∧ Arranged places qs
  | .maybe rules :: places, ps =>
    (∃ p qs, ps = p :: qs ∧ p.rule ∈ rules ∧ Arranged places qs) ∨ Arranged places ps
  | .many rules :: places, ps =>
    ∃ qs rest, ps = qs ++ rest ∧ (∀ q ∈ qs, q.rule ∈ rules) ∧ Arranged places rest

section Arranged

variable {places : List (Place ρ)} {ps : List (Pair ρ)}

theorem Arranged.all {rules : List ρ} (h : Arranged [.many rules] ps) : ∀ p ∈ ps, p.rule ∈ rules := by
  obtain ⟨qs, rest, rfl, hqs, rfl⟩ := h
  simpa using hqs

theorem Arranged.maybe {rules : List ρ} (h : Arranged (.maybe rules :: places) ps) :
    ∃ (o : Option (Pair ρ)) (qs : _), ps = o.toList ++ qs ∧ (∀ p ∈ o, p.rule ∈ rules) ∧ Arranged places qs := by
  rcases h with ⟨p, qs, rfl, hp, hqs⟩ | hps
  · exact ⟨some p, qs, rfl, by simpa using hp, hqs⟩
  · exact ⟨none, ps, rfl, nofun, hps⟩

/-- What holds of all rules that have a place holds of the rules of the pairs. -/
theorem Arranged.forall_rules {P : ρ → Prop} (h : Arranged places ps)
    (hplaces : ∀ place ∈ places, ∀ r ∈ place.rules, P r) : ∀ p ∈ ps, P p.rule := by
  induction places generalizing ps with
  | nil =>
      cases h
      simp
  | cons place places ih =>
      obtain ⟨hplace, hlater⟩ := List.forall_mem_cons.mp hplaces
      cases place with
      | one rules =>
          obtain ⟨p, qs, rfl, hp, hqs⟩ := h
          exact List.forall_mem_cons.mpr ⟨hplace _ hp, ih hqs hlater⟩
      | maybe rules =>
          rcases h with ⟨p, qs, rfl, hp, hqs⟩ | hps
          · exact List.forall_mem_cons.mpr ⟨hplace _ hp, ih hqs hlater⟩
          · exact ih hps hlater
      | many rules =>
          obtain ⟨qs, rest, rfl, hqs, hrest⟩ := h
          exact List.forall_mem_append.mpr ⟨fun q hq => hplace _ (hqs q hq), ih hrest hlater⟩

theorem Arranged.find {f : ρ → Bool} (h : Arranged places ps) (rules : List ρ)
    (hplace : Place.one rules ∈ places) (hrules : ∀ r ∈ rules, f r) : ∃ p, ps.find? (f ·.rule) = some p := by
  have hmem : ∃ p ∈ ps, p.rule ∈ rules := by
    induction places generalizing ps with
    | nil => cases hplace
    | cons place places ih =>
        cases place with
        | one rules' =>
            obtain ⟨p, qs, rfl, hp, hqs⟩ := h
            rcases List.mem_cons.mp hplace with heq | hplace
            · cases heq
              exact ⟨p, by simp, hp⟩
            · obtain ⟨q, hq, hrule⟩ := ih hqs hplace
              exact ⟨q, by simp [hq], hrule⟩
        | maybe rules' =>
            have hplace := (List.mem_cons.mp hplace).resolve_left nofun
            rcases h with ⟨p, qs, rfl, hp, hqs⟩ | hps
            · obtain ⟨q, hq, hrule⟩ := ih hqs hplace
              exact ⟨q, by simp [hq], hrule⟩
            · exact ih hps hplace
        | many rules' =>
            have hplace := (List.mem_cons.mp hplace).resolve_left nofun
            obtain ⟨qs, rest, rfl, _, hrest⟩ := h
            obtain ⟨q, hq, hrule⟩ := ih hrest hplace
            exact ⟨q, by simp [hq], hrule⟩
  obtain ⟨p, hp, hrule⟩ := hmem
  exact Option.isSome_iff_exists.mp (List.find?_isSome.mpr ⟨p, hp, hrules _ hrule⟩)

/-- Where all pairs or none of a place are kept, those that are kept stand at the places that are kept. -/
theorem Arranged.filter {keep : ρ → Bool} (h : Arranged places ps)
    (hplaces : ∀ place ∈ places, (∀ r ∈ place.rules, keep r = place.rules.all keep)) :
    Arranged (places.filter (·.rules.all keep)) (ps.filter (keep ·.rule)) := by
  induction places generalizing ps with
  | nil =>
      cases h
      rfl
  | cons place places ih =>
      obtain ⟨hplace, hrest⟩ := List.forall_mem_cons.mp hplaces
      have hkeep : ∀ qs : List (Pair ρ), (∀ q ∈ qs, q.rule ∈ place.rules) →
          qs.filter (keep ·.rule) = if place.rules.all keep then qs else [] := by
        intro qs hqs
        split
        · rename_i hall
          exact List.filter_eq_self.mpr fun q hq => (hplace _ (hqs q hq)).trans hall
        · rename_i hall
          exact List.filter_eq_nil_iff.mpr fun q hq hq' => hall ((hplace _ (hqs q hq)).symm.trans hq')
      have hone : ∀ (p : Pair ρ) qs, p.rule ∈ place.rules →
          (p :: qs).filter (keep ·.rule) = (if place.rules.all keep then [p] else []) ++
            qs.filter (keep ·.rule) := by
        intro p qs hp
        rw [← hkeep [p] (by simpa using hp), ← List.filter_append, List.singleton_append]
      rw [List.filter_cons]
      cases place with
      | one rules =>
          obtain ⟨p, qs, rfl, hp, hqs⟩ := h
          rw [hone p qs hp]
          split
          · exact ⟨p, _, rfl, hp, ih hqs hrest⟩
          · exact ih hqs hrest
      | maybe rules =>
          rcases h with ⟨p, qs, rfl, hp, hqs⟩ | hps
          · rw [hone p qs hp]
            split
            · exact .inl ⟨p, _, rfl, hp, ih hqs hrest⟩
            · exact ih hqs hrest
          · split
            · exact .inr (ih hps hrest)
            · exact ih hps hrest
      | many rules =>
          obtain ⟨qs, rest, rfl, hqs, hps⟩ := h
          rw [List.filter_append, hkeep qs hqs]
          split
          · exact ⟨qs, _, rfl, hqs, ih hps hrest⟩
          · exact ih hps hrest

end Arranged

variable [DecidableEq ρ]

/-- The places that are left when a pair of the rule is put at the first one that it can have. -/
def seat (r : ρ) : List (Place ρ) → Option (List (Place ρ))
  | [] => none
  | .one rules :: places => if r ∈ rules then some places else none
  | .maybe rules :: places => if r ∈ rules then some places else seat r places
  | .many rules :: places => if r ∈ rules then some (.many rules :: places) else seat r places

def vacates : List (Place ρ) → List (Place ρ) → Bool
  | [], rest => rest = []
  | .one rules :: places, rest => .one rules :: places = rest
  | .maybe rules :: places, rest => .maybe rules :: places = rest || vacates places rest
  | .many rules :: places, rest => .many rules :: places = rest || vacates places rest

/-- The places that are left after a match of the expression, given those that a call of a rule leaves. -/
def Expr.fills (calls : ρ → List (Place ρ) → Option (List (Place ρ))) :
    Expr ρ → List (Place ρ) → Option (List (Place ρ))
  | seq a b, places => (a.fills calls places).bind (b.fills calls)
  | alt a b, places => if a.fills calls places = b.fills calls places then a.fills calls places else none
  | opt a, places => (a.fills calls places).bind fun rest => if vacates places rest then some rest else none
  | many a, places => if a.fills calls places = some places then some places else none
  | again a, places => if a.fills calls places = some places then some places else none
  | push a, places => a.fills calls places
  | call r, places => calls r places
  | _, places => some places

def Grammar.seats (g : Grammar ρ) : Nat → ρ → List (Place ρ) → Option (List (Place ρ))
  | 0, r, places => if g.kind r = .silent then none else seat r places
  | n + 1, r, places =>
    if g.kind r = .silent then (g.body r).fills (g.seats n) places else seat r places

variable {g : Grammar ρ} {places rest : List (Place ρ)} {ps : List (Pair ρ)}

theorem Arranged.seat {p : Pair ρ} (h : seat p.rule places = some rest) (hps : Arranged rest ps) :
    Arranged places (p :: ps) := by
  induction places with
  | nil => cases h
  | cons place places ih =>
      cases place with
      | one rules =>
          simp only [Peg.seat, Option.ite_none_right_eq_some, Option.some.injEq] at h
          obtain ⟨hp, rfl⟩ := h
          exact ⟨p, ps, rfl, hp, hps⟩
      | maybe rules =>
          rw [Peg.seat] at h
          by_cases hp : p.rule ∈ rules
          · rw [if_pos hp] at h
            cases h
            exact .inl ⟨p, ps, rfl, hp, hps⟩
          · rw [if_neg hp] at h
            exact .inr (ih h)
      | many rules =>
          rw [Peg.seat] at h
          by_cases hp : p.rule ∈ rules
          · rw [if_pos hp] at h
            cases h
            obtain ⟨qs, more, rfl, hqs, hmore⟩ := hps
            exact ⟨p :: qs, more, rfl, List.forall_mem_cons.mpr ⟨hp, hqs⟩, hmore⟩
          · rw [if_neg hp] at h
            exact ⟨[], p :: ps, rfl, by simp, ih h⟩

theorem Arranged.vacates (h : vacates places rest) (hps : Arranged rest ps) : Arranged places ps := by
  induction places with
  | nil =>
      rw [of_decide_eq_true h] at hps
      exact hps
  | cons place places ih =>
      cases place with
      | one rules => rwa [of_decide_eq_true h]
      | maybe rules =>
          rw [Peg.vacates, Bool.or_eq_true, decide_eq_true_eq] at h
          rcases h with rfl | h
          · exact hps
          · exact .inr (ih h)
      | many rules =>
          rw [Peg.vacates, Bool.or_eq_true, decide_eq_true_eq] at h
          rcases h with rfl | h
          · exact hps
          · exact ⟨[], ps, rfl, by simp, ih h⟩

/-- The pairs that a match leaves, and pairs that have the places which it leaves, are arranged together. -/
theorem Derives.arranged {n : Nat} {c : Context} {e : Expr ρ} {s t : State ρ} (h : Derives g c e s t)
    (hc : c.leavesPair) (he : e.fills (g.seats n) places = Option.some rest) :
    ∃ ps, t.pairs = ps.reverse ++ s.pairs ∧
      ∀ qs, Arranged rest qs → Arranged places (ps ++ qs) := by
  induction h generalizing n places rest with
  | word | caseless | char | start | finish | top | pop | ahead | notAhead =>
      cases he
      exact ⟨[], rfl, fun _ hqs => hqs⟩
  | seq _ _ iha ihb =>
      obtain ⟨middle, ha, hb⟩ := Option.bind_eq_some_iff.mp he
      obtain ⟨ps, hps, harranged⟩ := iha hc ha
      obtain ⟨qs, hqs, harranged'⟩ := ihb hc hb
      refine ⟨ps ++ qs, by rw [hqs, pairs_skip, hps, List.reverse_append, List.append_assoc], ?_⟩
      intro more hmore
      rw [List.append_assoc]
      exact harranged _ (harranged' _ hmore)
  | first _ ih =>
      simp only [Expr.fills, Option.ite_none_right_eq_some] at he
      exact ih hc he.2
  | second _ _ ih =>
      simp only [Expr.fills, Option.ite_none_right_eq_some] at he
      exact ih hc (he.1 ▸ he.2)
  | present _ ih =>
      simp only [Expr.fills, Option.bind_eq_some_iff, Option.ite_none_right_eq_some, Option.some.injEq] at he
      obtain ⟨_, ha, _, rfl⟩ := he
      exact ih hc ha
  | absent =>
      simp only [Expr.fills, Option.bind_eq_some_iff, Option.ite_none_right_eq_some, Option.some.injEq] at he
      obtain ⟨_, _, hvacates, rfl⟩ := he
      exact ⟨[], rfl, fun _ hqs => hqs.vacates hvacates⟩
  | none | last =>
      simp only [Expr.fills, Option.ite_none_right_eq_some, Option.some.injEq] at he
      obtain ⟨_, rfl⟩ := he
      exact ⟨[], rfl, fun _ hqs => hqs⟩
  | some _ _ iha ihb | next _ _ iha ihb =>
      have hround := he
      simp only [Expr.fills, Option.ite_none_right_eq_some, Option.some.injEq] at hround
      obtain ⟨ha, rfl⟩ := hround
      obtain ⟨ps, hps, harranged⟩ := iha hc ha
      obtain ⟨qs, hqs, harranged'⟩ := ihb hc he
      refine ⟨ps ++ qs, by simp [hqs, hps], ?_⟩
      intro more hmore
      rw [List.append_assoc]
      exact harranged _ (harranged' _ hmore)
  | push _ ih => exact ih hc he
  | silent hkind _ ih =>
      cases n with
      | zero => simp [Expr.fills, Grammar.seats, hkind] at he
      | succ n =>
          simp only [Expr.fills, Grammar.seats, hkind, if_true] at he
          exact ih hc he
  | @pair c s t r hkind _ _ =>
      have he : Peg.seat r places = Option.some rest := by
        cases n <;> simpa [Expr.fills, Grammar.seats, hkind] using he
      exact ⟨[_], rfl, fun qs hqs => Arranged.seat he hqs⟩
  | hidden _ hleaves =>
      rw [Context.leavesPair_outside _ _ hc] at hleaves
      cases hleaves

/-- The children of a pair have the places that the body of its rule fills; the others may stay empty. -/
theorem Grown.arranged {text : List Char} {p : Pair ρ} {n : Nat} (h : Grown g text p)
    (hp : (g.kind p.rule).branches)
    (he : ((g.body p.rule).fills (g.seats n) places).any (Peg.vacates · [])) :
    Arranged places p.children := by
  obtain ⟨rest, hfills, hvacates⟩ := (Option.any_eq_true _ _).mp he
  cases h with
  | mk _ hleaves hpairs _ h _ =>
      obtain ⟨ps, hps, harranged⟩ := h.arranged (Context.leavesPair_inside hp hleaves) hfills
      rw [hpairs, List.append_nil] at hps
      rw [hps, List.reverse_reverse, ← List.append_nil ps]
      exact harranged [] (Arranged.vacates hvacates rfl)

end LiquidTemplate.Peg
