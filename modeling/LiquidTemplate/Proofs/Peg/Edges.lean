import LiquidTemplate.Proofs.Peg.Parts

namespace LiquidTemplate.Peg

open State Text

variable {ρ : Type} {g : Grammar ρ} {c : Context} {e : Expr ρ} {s t : State ρ}

inductive Edge where
  | front
  | back

namespace Edge

def char? : Edge → List Char → Option Char
  | front, w => w.head?
  | back, w => w.getLast?

def outer {α : Type} : Edge → α → α → α
  | front, a, _ => a
  | back, _, b => b

def inner {α : Type} : Edge → α → α → α
  | front, _, b => b
  | back, a, _ => a

theorem char?_append {d : Edge} {u v : List Char} {x : Char} (h : x ∈ d.char? (u ++ v)) :
    x ∈ d.char? (d.outer u v) ∨ d.outer u v = [] ∧ x ∈ d.char? (d.inner u v) := by
  cases d with
  | front =>
      cases u with
      | nil => exact .inr ⟨rfl, h⟩
      | cons y u => exact .inl h
  | back =>
      rcases List.eq_nil_or_concat v with rfl | ⟨v, y, rfl⟩
      · rw [List.append_nil] at h
        exact .inr ⟨rfl, h⟩
      · left
        simpa [char?, outer] using h

theorem mem_of_char? {d : Edge} {w : List Char} {x : Char} (h : x ∈ d.char? w) : x ∈ w := by
  cases d with
  | front => exact List.mem_of_head? h
  | back => exact List.mem_of_getLast? h

end Edge

/-- Whether the character at an end of what a match consumes passes a test, unless it is a blank
between two parts. -/
def Expr.edges (d : Edge) (test : Char → Bool) (solid known : ρ → Bool) : Expr ρ → Prop
  | word w => ∀ x ∈ d.char? w, test x
  | char f => ∀ x, f x → test x
  | start | finish | ahead _ | notAhead _ => True
  | seq a b =>
    d.outer (a.edges d test solid known) (b.edges d test solid known) ∧
      (d.outer (a.eats solid) (b.eats solid) ∨
        d.inner (a.edges d test solid known) (b.edges d test solid known))
  | alt a b => a.edges d test solid known ∧ b.edges d test solid known
  | opt a => a.edges d test solid known
  | many a => a.edges d test solid known
  | again a => a.edges d test solid known
  | call r => known r
  | _ => False

namespace State

theorem consumed_trans {u : State ρ} (hst : s.Reaches t) (htu : t.Reaches u) :
    s.consumed u = s.consumed t ++ t.consumed u := by
  obtain ⟨hrest, hoffset⟩ := hst.consumed
  obtain ⟨hrest', hoffset'⟩ := htu.consumed
  apply consumed_eq
  · rw [List.append_assoc, ← hrest', ← hrest]
  · rw [byteLength_append, hoffset', hoffset, Nat.add_assoc]

theorem consumed_self (s : State ρ) (a : Attempts ρ) : s.consumed { s with attempts := a } = [] :=
  consumed_eq rfl rfl

theorem consumed_skip (s : State ρ) (c : Context) (blank : Char → Bool) :
    ∀ x ∈ s.consumed (s.skip c blank), blank x := by
  obtain ⟨v, hv, hblank⟩ := s.takes_skip c blank
  rw [hv.consumed_eq]
  exact hblank

end State

/-- What is at the ends of a sequence, from what is at the ends of its parts. -/
theorem Edge.char?_seq {d : Edge} {Q : Char → Prop} {u v w : List Char} (hv : ∀ x ∈ v, Q x)
    (houter : ∀ x ∈ d.char? (d.outer u w), Q x)
    (hinner : d.outer u w = [] → ∀ x ∈ d.char? (d.inner u w), Q x) :
    ∀ x ∈ d.char? (u ++ (v ++ w)), Q x := by
  have hmid : ∀ x ∈ d.char? v, Q x := fun x hx => hv x (mem_of_char? hx)
  intro x hx
  cases d with
  | front =>
      rcases char?_append hx with hx | ⟨hu, hx⟩
      · exact houter x hx
      · rcases char?_append hx with hx | ⟨_, hx⟩
        · exact hmid x hx
        · exact hinner hu x hx
  | back =>
      rw [← List.append_assoc] at hx
      rcases char?_append hx with hx | ⟨hw, hx⟩
      · exact houter x hx
      · rcases char?_append hx with hx | ⟨_, hx⟩
        · exact hmid x hx
        · exact hinner hw x hx

section Edges

variable {d : Edge} {test : Char → Bool} {solid known : ρ → Bool}
  (hsolid : ∀ r, solid r → (g.body r).eats solid)

include hsolid

theorem Derives.consumed_ne_nil (h : Derives g c e s t) (he : e.eats solid) : s.consumed t ≠ [] := by
  have hlt := h.lt hsolid he
  obtain ⟨_, hoffset⟩ := h.reaches.consumed
  intro hnil
  rw [hnil, byteLength_nil] at hoffset
  omega

/-- The ends of what a match consumes, if the bodies of the known rules have such ends. -/
theorem Derives.edges (hknown : ∀ r, known r → (g.body r).edges d test solid known)
    (h : Derives g c e s t) (he : e.edges d test solid known) :
    ∀ x ∈ d.char? (s.consumed t), test x ∨ g.blank x := by
  have hnone : ∀ x ∈ d.char? [], test x ∨ g.blank x := by cases d <;> simp [Edge.char?]
  -- A repetition goes on with the same expression, so either end comes from a round.
  have hround : ∀ {s t u : State ρ}, s.Reaches t → t.Reaches u →
      (∀ x ∈ d.char? (s.consumed t), test x ∨ g.blank x) →
      (∀ x ∈ d.char? (t.consumed u), test x ∨ g.blank x) →
      ∀ x ∈ d.char? (s.consumed u), test x ∨ g.blank x := by
    intro s t u hst htu hs ht x hx
    rw [consumed_trans hst htu] at hx
    cases d with
    | front =>
        rcases Edge.char?_append hx with hx | ⟨_, hx⟩
        · exact hs x hx
        · exact ht x hx
    | back =>
        rcases Edge.char?_append hx with hx | ⟨_, hx⟩
        · exact ht x hx
        · exact hs x hx
  induction h with
  | word h =>
      rw [consumed_eq (stripWord?_eq_some h) rfl]
      exact fun x hx => .inl (he x hx)
  | @char c s f x xs hrest hx =>
      rw [consumed_eq (w := [x]) hrest (by simp [State.advance])]
      intro y hy
      rw [List.mem_singleton.mp (Edge.mem_of_char? hy)]
      exact .inl (he x hx)
  | @start c s | @finish c s =>
      rw [consumed_self s s.attempts]
      exact hnone
  | absent | none | last | ahead | notAhead =>
      rw [consumed_self]
      exact hnone
  | @seq c s t u a b ha hb iha ihb =>
      have hskip := reaches_skip t c g.blank
      rw [consumed_trans ha.reaches (hskip.trans hb.reaches), consumed_trans hskip hb.reaches]
      obtain ⟨houter, hinner⟩ := he
      refine Edge.char?_seq (fun x hx => .inr (consumed_skip t c g.blank x hx)) ?_ ?_
      · cases d with
        | front => exact iha houter
        | back => exact ihb houter
      · intro hnil
        cases d with
        | front => exact ihb (hinner.resolve_left fun heats => ha.consumed_ne_nil hsolid heats hnil)
        | back => exact iha (hinner.resolve_left fun heats => hb.consumed_ne_nil hsolid heats hnil)
  | first _ ih => exact ih he.1
  | second _ _ ih => exact ih he.2
  | present _ ih => exact ih he
  | some ha hb iha ihb => exact hround ha.reaches hb.reaches (iha he) (ihb he)
  | @next c s t u a ha hb iha ihb =>
      have hskip : ∀ x ∈ d.char? (s.consumed (s.skip c g.blank)), test x ∨ g.blank x :=
        fun x hx => .inr (consumed_skip s c g.blank x (Edge.mem_of_char? hx))
      have hreach := reaches_skip s c g.blank
      exact hround (hreach.trans ha.reaches) hb.reaches (hround hreach ha.reaches hskip (iha he)) (ihb he)
  | silent _ _ ih => exact ih (hknown _ he)
  | pair _ _ _ ih | hidden _ _ _ ih => exact ih (hknown _ he)
  | caseless | push | top | pop => cases he

end Edges

end LiquidTemplate.Peg
