namespace LiquidTemplate

variable {ε α β γ σ : Type}

@[simp] theorem ok_bind (a : α) (f : α → Except ε β) : (Except.ok a >>= f) = f a := rfl

@[simp] theorem ok_map (f : α → β) (a : α) : f <$> (Except.ok a : Except ε α) = .ok (f a) := rfl

theorem bind_eq_ok {x : Except ε α} {f : α → Except ε β} {b : β} :
    x >>= f = .ok b ↔ ∃ a, x = .ok a ∧ f a = .ok b := by
  constructor
  · intro h
    cases x with
    | error e => cases h
    | ok a => exact ⟨a, rfl, h⟩
  · rintro ⟨a, rfl, h⟩
    exact h

theorem error_of_bind {x : Except ε α} {f : α → Except ε β} {e : ε} (h : x >>= f = .error e) :
    x = .error e ∨ ∃ a, x = .ok a ∧ f a = .error e := by
  cases x with
  | error e' =>
      cases h
      exact .inl rfl
  | ok a => exact .inr ⟨a, rfl, h⟩

theorem map_eq_ok {x : Except ε α} {f : α → β} {b : β} :
    f <$> x = .ok b ↔ ∃ a, x = .ok a ∧ f a = b := by
  constructor
  · intro h
    cases x with
    | error e => cases h
    | ok a => exact ⟨a, rfl, Except.ok.inj h⟩
  · rintro ⟨a, rfl, rfl⟩
    rfl

theorem pure_eq_ok {a b : α} : (pure a : Except ε α) = .ok b ↔ a = b :=
  ⟨Except.ok.inj, congrArg _⟩

theorem toOption_eq_some {x : Except ε α} {a : α} : x.toOption = some a ↔ x = .ok a := by
  cases x with
  | error e => constructor <;> intro h <;> cases h
  | ok b =>
      constructor
      · exact fun h => congrArg _ (Option.some.inj h)
      · exact fun h => congrArg _ (Except.ok.inj h)

theorem mapM_cons_ok {f : α → Except ε β} {x : α} {xs : List α} {ys : List β}
    (h : (x :: xs).mapM f = .ok ys) : ∃ y zs, f x = .ok y ∧ xs.mapM f = .ok zs ∧ ys = y :: zs := by
  rw [List.mapM_cons] at h
  obtain ⟨y, hy, h⟩ := bind_eq_ok.mp h
  obtain ⟨zs, hzs, h⟩ := bind_eq_ok.mp h
  exact ⟨y, zs, hy, hzs, (pure_eq_ok.mp h).symm⟩

theorem mapM_congr {f g : α → Except ε β} {xs : List α} (h : ∀ x ∈ xs, f x = g x) :
    xs.mapM f = xs.mapM g := by
  induction xs with
  | nil => rfl
  | cons x xs ih =>
      rw [List.mapM_cons, List.mapM_cons, h x (by simp), ih fun y hy => h y (by simp [hy])]

theorem mem_mapM_ok {f : α → Except ε β} {xs : List α} {ys : List β} (h : xs.mapM f = .ok ys)
    {y : β} (hy : y ∈ ys) : ∃ x ∈ xs, f x = .ok y := by
  induction xs generalizing ys with
  | nil =>
      cases h
      cases hy
  | cons x xs ih =>
      obtain ⟨z, zs, hz, hzs, rfl⟩ := mapM_cons_ok h
      rcases List.mem_cons.mp hy with rfl | hy
      · exact ⟨x, by simp, hz⟩
      · obtain ⟨w, hw, hfw⟩ := ih hzs hy
        exact ⟨w, by simp [hw], hfw⟩

theorem forall_mapM_ok {P : β → Prop} {f : α → Except ε β} {xs : List α} {ys : List β}
    (hf : ∀ x ∈ xs, ∀ y, f x = .ok y → P y) (h : xs.mapM f = .ok ys) : ∀ y ∈ ys, P y := by
  intro y hy
  obtain ⟨x, hx, hfx⟩ := mem_mapM_ok h hy
  exact hf x hx y hfx

theorem mem_optionMapM_ok {f : α → Except ε β} {x : Option α} {y : Option β} (h : x.mapM f = .ok y)
    {b : β} (hb : b ∈ y) : ∃ a ∈ x, f a = .ok b := by
  cases x with
  | none =>
      cases h
      cases hb
  | some a =>
      rw [Option.mapM_some] at h
      obtain ⟨c, hc, rfl⟩ := map_eq_ok.mp h
      cases hb
      exact ⟨a, rfl, hc⟩

theorem ok_of_mem_mapM {f : α → Except ε β} {xs : List α} {ys : List β} (h : xs.mapM f = .ok ys)
    {x : α} (hx : x ∈ xs) : ∃ y, f x = .ok y := by
  induction xs generalizing ys with
  | nil => cases hx
  | cons w xs ih =>
      obtain ⟨z, zs, hz, hzs, rfl⟩ := mapM_cons_ok h
      rcases List.mem_cons.mp hx with rfl | hx
      · exact ⟨z, hz⟩
      · exact ih hzs hx

theorem map_mapM_ok {f : α → Except ε β} {k : β → γ} {l : α → γ} {xs : List α} {ys : List β}
    (hf : ∀ x ∈ xs, ∀ y, f x = .ok y → k y = l x) (h : xs.mapM f = .ok ys) :
    ys.map k = xs.map l := by
  induction xs generalizing ys with
  | nil =>
      cases h
      rfl
  | cons x xs ih =>
      obtain ⟨y, zs, hy, hzs, rfl⟩ := mapM_cons_ok h
      rw [List.map_cons, List.map_cons, hf x (by simp) y hy, ih (fun z hz => hf z (by simp [hz])) hzs]

/-- A fold that reads an item which may be missing, where `put` puts what was read. -/
theorem foldlM_toList_append {f : σ → α → Except ε σ} {read : α → Except ε β} (put : Option β → σ) {o : Option α}
    (h : ∀ a ∈ o, f (put none) a = (fun b => put (some b)) <$> read a) (xs : List α) :
    (o.toList ++ xs).foldlM f (put none) = o.mapM read >>= fun b => xs.foldlM f (put b) := by
  cases o with
  | none => rfl
  | some a =>
      rw [Option.toList_some, List.singleton_append, List.foldlM_cons, h a rfl, Option.mapM_some, bind_map_left,
        bind_map_left]

/-- A fold that reads each item and puts it to those before it, where `put` puts all of a list. -/
theorem foldlM_collect {f : σ → α → Except ε σ} {read : α → Except ε β} (put : σ → List β → σ) {xs : List α}
    (h : ∀ x ∈ xs, ∀ s, f s x = (put s [·]) <$> read x) (hnil : ∀ s, put s [] = s)
    (happend : ∀ s ys zs, put (put s ys) zs = put s (ys ++ zs)) (s : σ) :
    xs.foldlM f s = put s <$> xs.mapM read := by
  induction xs generalizing s with
  | nil => rw [List.foldlM_nil, List.mapM_nil, map_pure, hnil]
  | cons x xs ih =>
      obtain ⟨hx, hxs⟩ := List.forall_mem_cons.mp h
      rw [List.foldlM_cons, List.mapM_cons, hx s]
      cases read x with
      | error e => rfl
      | ok y =>
          rw [ok_map, ok_bind, ok_bind, ih hxs]
          cases xs.mapM read with
          | error e => rfl
          | ok ys => exact congrArg Except.ok (happend s [y] ys)

def Succeeds (x : Except ε α) : Prop := ∃ a, x = .ok a

theorem succeeds_ok (a : α) : Succeeds (.ok a : Except ε α) := ⟨a, rfl⟩

theorem succeeds_bind {x : Except ε α} {f : α → Except ε β} (hx : Succeeds x) (hf : ∀ a, Succeeds (f a)) :
    Succeeds (x >>= f) := by
  obtain ⟨a, rfl⟩ := hx
  exact hf a

theorem succeeds_map {x : Except ε α} {f : α → β} (hx : Succeeds x) : Succeeds (f <$> x) := by
  obtain ⟨a, rfl⟩ := hx
  exact ⟨f a, rfl⟩

theorem succeeds_mapM {f : α → Except ε β} {xs : List α} (hf : ∀ x ∈ xs, Succeeds (f x)) :
    Succeeds (xs.mapM f) := by
  induction xs with
  | nil => exact succeeds_ok []
  | cons x xs ih =>
      obtain ⟨hx, hxs⟩ := List.forall_mem_cons.mp hf
      rw [List.mapM_cons]
      apply succeeds_bind hx
      intro y
      apply succeeds_bind (ih hxs)
      intro ys
      exact succeeds_ok _

theorem succeeds_optionMapM {f : α → Except ε β} {x : Option α} (hf : ∀ a ∈ x, Succeeds (f a)) :
    Succeeds (x.mapM f) := by
  cases x with
  | none => exact succeeds_ok none
  | some a =>
      rw [Option.mapM_some]
      exact succeeds_map (hf a rfl)

def ErrorsIn (P : ε → Prop) (x : Except ε α) : Prop := ∀ e, x = .error e → P e

section ErrorsIn

variable {P : ε → Prop}

theorem errorsIn_ok (a : α) : ErrorsIn P (.ok a : Except ε α) := by
  intro e h
  cases h

theorem errorsIn_error {e : ε} (h : P e) : ErrorsIn P (.error e : Except ε α) := by
  intro e' h'
  cases h'
  exact h

theorem errorsIn_bind {x : Except ε α} {f : α → Except ε β} (hx : ErrorsIn P x)
    (hf : ∀ a, x = .ok a → ErrorsIn P (f a)) : ErrorsIn P (x >>= f) := by
  intro e h
  cases x with
  | error e' =>
      cases h
      exact hx e rfl
  | ok a => exact hf a rfl e h

theorem errorsIn_map {x : Except ε α} {f : α → β} (hx : ErrorsIn P x) : ErrorsIn P (f <$> x) := by
  intro e h
  cases x with
  | error e' =>
      cases h
      exact hx e rfl
  | ok a => cases h

theorem errorsIn_mapM {f : α → Except ε β} {xs : List α} (hf : ∀ x ∈ xs, ErrorsIn P (f x)) :
    ErrorsIn P (xs.mapM f) := by
  induction xs with
  | nil => exact errorsIn_ok []
  | cons x xs ih =>
      obtain ⟨hx, hxs⟩ := List.forall_mem_cons.mp hf
      rw [List.mapM_cons]
      apply errorsIn_bind hx
      intro y _
      apply errorsIn_bind (ih hxs)
      intro ys _
      exact errorsIn_ok _

theorem Succeeds.errorsIn {x : Except ε α} (h : Succeeds x) : ErrorsIn P x := by
  obtain ⟨a, rfl⟩ := h
  exact errorsIn_ok a

theorem ErrorsIn.mono {Q : ε → Prop} {x : Except ε α} (h : ErrorsIn P x) (hPQ : ∀ e, P e → Q e) :
    ErrorsIn Q x :=
  fun e he => hPQ e (h e he)

end ErrorsIn

end LiquidTemplate
