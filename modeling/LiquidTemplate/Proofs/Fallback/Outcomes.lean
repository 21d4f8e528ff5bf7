import Mathlib.Data.List.Forall2
import LiquidTemplate.Error
import LiquidTemplate.Options
import LiquidTemplate.Proofs.Except

namespace LiquidTemplate

def Error.Syntactic (e : Error) : Prop :=
  ∃ span, e = .unreadable .placeholder span ∨ ∃ surprises, e = .unreadable (.unmatched surprises) span

variable {α β γ : Type}

/-- The results of reading something strictly, tolerantly, and when completions are asked for.  Either it
is read, and the same each time; or it is an error, which the others pass over and keep text for; or it
is an error each time. -/
inductive Outcomes (room : Prop) (alike : α → α → Prop) (structured : α → Prop) :
    Except Error α → Except Error α → Except Error α → Prop
  | read {a : α} : alike a a → structured a → Outcomes room alike structured (.ok a) (.ok a) (.ok a)
  | kept {e : Error} {a b : α} : e.Syntactic → alike a b → (room → ¬structured a) →
      Outcomes room alike structured (.error e) (.ok a) (.ok b)
  | failed {e e' : Error} : e.Syntactic → e'.Syntactic →
      Outcomes room alike structured (.error e) (.error e') (.error e')

namespace Outcomes

variable {room : Prop} {alike : α → α → Prop} {structured : α → Prop} {x y z : Except Error α}

theorem strict_iff (h : Outcomes room alike structured x y z) (hroom : room) (a : α) :
    x = .ok a ↔ y = .ok a ∧ structured a := by
  cases h with
  | read _ hstructured =>
      constructor
      · intro hx
        cases hx
        exact ⟨rfl, hstructured⟩
      · exact And.left
  | kept _ _ hkept =>
      constructor
      · intro hx
        cases hx
      · rintro ⟨⟨⟩, hstructured⟩
        exact absurd hstructured (hkept hroom)
  | failed =>
      constructor
      · intro hx
        cases hx
      · rintro ⟨⟨⟩, _⟩

theorem completion (h : Outcomes room alike structured x y z) {a : α} (hx : x = .ok a) : z = .ok a := by
  cases h with
  | read => exact hx
  | kept | failed => cases hx

theorem tolerant_completion (h : Outcomes room alike structured x y z) :
    (∃ a b, y = .ok a ∧ z = .ok b ∧ alike a b) ∨ ∃ e, y = .error e ∧ z = .error e := by
  cases h with
  | read halike _ => exact .inl ⟨_, _, rfl, rfl, halike⟩
  | kept _ halike _ => exact .inl ⟨_, _, rfl, rfl, halike⟩
  | failed => exact .inr ⟨_, rfl, rfl⟩

theorem errorsIn (h : Outcomes room alike structured x y z) :
    ErrorsIn Error.Syntactic x ∧ ErrorsIn Error.Syntactic y ∧ ErrorsIn Error.Syntactic z := by
  cases h with
  | read => exact ⟨errorsIn_ok _, errorsIn_ok _, errorsIn_ok _⟩
  | kept he => exact ⟨errorsIn_error he, errorsIn_ok _, errorsIn_ok _⟩
  | failed he he' => exact ⟨errorsIn_error he, errorsIn_error he', errorsIn_error he'⟩

variable {alike' : β → β → Prop} {structured' : β → Prop} {x' y' z' : Except Error β}
  {alike'' : γ → γ → Prop} {structured'' : γ → Prop}

theorem map {g : α → β} (h : Outcomes room alike structured x y z)
    (halike : ∀ a b, alike a b → alike' (g a) (g b)) (hread : ∀ a, structured a → structured' (g a))
    (hkept : room → ∀ a, structured' (g a) → structured a) :
    Outcomes room alike' structured' (g <$> x) (g <$> y) (g <$> z) := by
  cases h with
  | read h hstructured => exact .read (halike _ _ h) (hread _ hstructured)
  | kept he h hno => exact .kept he (halike _ _ h) fun hroom hall => hno hroom (hkept hroom _ hall)
  | failed he he' => exact .failed he he'

/-- Two things are read one after the other: the first error counts, and what is kept of the one or the
other is kept of both. -/
theorem map₂ {g : α → β → γ} (h : Outcomes room alike structured x y z)
    (h' : Outcomes room alike' structured' x' y' z')
    (halike : ∀ a b a' b', alike a b → alike' a' b' → alike'' (g a a') (g b b'))
    (hstructured : ∀ a a', structured'' (g a a') ↔ structured a ∧ structured' a') :
    Outcomes room alike'' structured'' (x >>= fun a => x' >>= fun a' => pure (g a a'))
      (y >>= fun a => y' >>= fun a' => pure (g a a')) (z >>= fun a => z' >>= fun a' => pure (g a a')) := by
  cases h with
  | read h hread =>
      cases h' with
      | read h' hread' => exact .read (halike _ _ _ _ h h') ((hstructured _ _).mpr ⟨hread, hread'⟩)
      | kept he h' hno =>
          exact .kept he (halike _ _ _ _ h h') fun hroom hall => hno hroom ((hstructured _ _).mp hall).2
      | failed he he' => exact .failed he he'
  | kept he h hno =>
      cases h' with
      | read h' _ | kept _ h' _ =>
          exact .kept he (halike _ _ _ _ h h') fun hroom hall => hno hroom ((hstructured _ _).mp hall).1
      | failed _ he' => exact .failed he he'
  | failed he he' => exact .failed he he'

end Outcomes

def Lenient (room : Prop) (alike : α → α → Prop) (structured : α → Prop) (f : Mode → Except Error α) : Prop :=
  Outcomes room alike structured (f .strict) (f .tolerant) (f .completion)

namespace Lenient

variable {room : Prop} {alike : α → α → Prop} {structured : α → Prop} {f : Mode → Except Error α}
  {alike' : β → β → Prop} {structured' : β → Prop} {f' : Mode → Except Error β}
  {alike'' : γ → γ → Prop} {structured'' : γ → Prop}

theorem errorsIn (h : Lenient room alike structured f) (mode : Mode) : ErrorsIn Error.Syntactic (f mode) := by
  obtain ⟨hstrict, htolerant, hcompletion⟩ := Outcomes.errorsIn h
  cases mode with
  | strict => exact hstrict
  | tolerant => exact htolerant
  | completion => exact hcompletion

theorem ok {a : α} (halike : alike a a) (hstructured : structured a) :
    Lenient room alike structured fun _ => .ok a :=
  .read halike hstructured

theorem same {x : Except Error α} (hx : ErrorsIn Error.Syntactic x)
    (hok : ∀ a, x = .ok a → alike a a ∧ structured a) : Lenient room alike structured fun _ => x := by
  cases x with
  | error e => exact .failed (hx e rfl) (hx e rfl)
  | ok a => exact .read (hok a rfl).1 (hok a rfl).2

theorem of_same {weaker : α → Prop} {x : Except Error α} (h : Lenient room alike structured fun _ => x)
    (hweaker : ∀ a, structured a → weaker a) : Lenient room Eq weaker fun _ => x := by
  refine same (h.errorsIn .strict) fun a ha => ⟨rfl, ?_⟩
  subst ha
  cases h with
  | read _ hstructured => exact hweaker a hstructured

theorem map {g : α → β} (h : Lenient room alike structured f)
    (halike : ∀ a b, alike a b → alike' (g a) (g b)) (hread : ∀ a, structured a → structured' (g a))
    (hkept : room → ∀ a, structured' (g a) → structured a) :
    Lenient room alike' structured' fun mode => g <$> f mode :=
  Outcomes.map h halike hread hkept

theorem map₂ {g : α → β → γ} (h : Lenient room alike structured f) (h' : Lenient room alike' structured' f')
    (halike : ∀ a b a' b', alike a b → alike' a' b' → alike'' (g a a') (g b b'))
    (hstructured : ∀ a a', structured'' (g a a') ↔ structured a ∧ structured' a') :
    Lenient room alike'' structured'' fun mode => do
      let a ← f mode
      let a' ← f' mode
      return g a a' :=
  Outcomes.map₂ h h' halike hstructured

theorem mapM {g : Mode → γ → Except Error α} {cs : List γ}
    (h : ∀ c ∈ cs, Lenient room alike structured fun mode => g mode c) :
    Lenient room (List.Forall₂ alike) (fun as => ∀ a ∈ as, structured a) fun mode => cs.mapM (g mode) := by
  induction cs with
  | nil => exact .read .nil (by simp)
  | cons c cs ih =>
      obtain ⟨hc, hcs⟩ := List.forall_mem_cons.mp h
      simp only [List.mapM_cons]
      exact map₂ hc (ih hcs) (fun _ _ _ _ => .cons) fun _ _ => List.forall_mem_cons

end Lenient

end LiquidTemplate
