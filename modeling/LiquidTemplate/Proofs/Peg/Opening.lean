import LiquidTemplate.Proofs.Peg.Consumption
import LiquidTemplate.Proofs.Peg.Trial

namespace LiquidTemplate.Peg

open Relation State

variable {ρ : Type} {g : Grammar ρ}

def Expr.asks [DecidableEq ρ] (r : ρ) : Expr ρ → Bool
  | seq a b => a.asks r || b.asks r
  | alt a b => a.asks r || b.asks r
  | opt a => a.asks r
  | many a => a.asks r
  | again a => a.asks r
  | ahead a => a.asks r
  | notAhead a => a.asks r
  | push a => a.asks r
  | call q => q = r
  | _ => false

/-- Whether an expression takes the remembered texts as they are and leaves them so. -/
def Expr.still (needs leaves : ρ → Nat) (e : Expr ρ) : Bool := e.remembers needs leaves 0 = some 0

/-- Whether the expression is a sequence that remembers what the rule matched, and of which the other parts
leave the remembered texts as they are. -/
def Expr.pushes [DecidableEq ρ] (needs leaves : ρ → Nat) (name : ρ) : Expr ρ → Bool
  | seq a b => a.pushes needs leaves name && b.still needs leaves ||
      a.still needs leaves && b.pushes needs leaves name
  | push (call q) => q = name && (call q).still needs leaves
  | _ => false

theorem Derives.stack_eq {needs leaves : ρ → Nat} (hg : Balanced g needs leaves) {c : Context} {e : Expr ρ}
    {s t : State ρ} (h : Derives g c e s t) (he : e.still needs leaves) : t.stack = s.stack :=
  (h.swaps hg (of_decide_eq_true he) (Nat.zero_le _)).below

/-- What is matched on the way to something else is not remembered. -/
theorem Derives.stack_until0 {c : Context} {stop : Expr ρ} {s t : State ρ} (h : Derives g c (.until0 stop) s t) :
    t.stack = s.stack := by
  refine Derives.many_induct (P := fun s t => t.stack = s.stack) (fun _ _ => rfl) ?_ h
  rintro s s' t u hs hround hrest
  cases hround with
  | seq hahead hany =>
      cases hahead
      cases hany
      rw [hrest]
      rcases hs with rfl | rfl <;> simp [advance]

theorem Derives.call_stack {c : Context} {r : ρ} {s t : State ρ} (h : Derives g c (.call r) s t) :
    ∃ c' s' t', Derives g c' (g.body r) s' t' ∧ s'.stack = s.stack ∧ t'.stack = t.stack := by
  cases h with
  | silent _ h => exact ⟨_, _, _, h, rfl, rfl⟩
  | pair _ _ h => exact ⟨_, _, _, h, rfl, rfl⟩
  | hidden _ _ h => exact ⟨_, _, _, h, rfl, rfl⟩

namespace Trial

variable {t u v : Trial ρ}

/-- The second run is the first one or begun during it without another rule in between. -/
def Within (g : Grammar ρ) (t u : Trial ρ) : Prop :=
  ReflTransGen (fun t u => Calls g t u ∧ ∀ r, t.expr ≠ .call r) t u

theorem Within.tried (h : Within g t u) : Tried g t u := ReflTransGen.mono (fun _ _ h => h.1) _ _ h

/-- A run that is begun during another one is begun by the match of some rule's body, if no rule is
between the two. -/
theorem Tried.split (h : Tried g t u) :
    Within g t u ∨ ∃ v w r, Tried g t v ∧ v.expr = .call r ∧ Calls g v w ∧ Within g w u := by
  induction h with
  | refl => exact .inl .refl
  | @tail u u' h hcalls ih =>
      by_cases hcall : ∃ r, u.expr = .call r
      · obtain ⟨r, hr⟩ := hcall
        exact .inr ⟨u, u', r, h, hr, hcalls, .refl⟩
      · have hplain : ∀ r, u.expr ≠ .call r := fun r hr => hcall ⟨r, hr⟩
        rcases ih with hin | ⟨v, w, r, hv, hr, hw, hin⟩
        · exact .inl (hin.tail ⟨hcalls, hplain⟩)
        · exact .inr ⟨v, w, r, hv, hr, hw, hin.tail ⟨hcalls, hplain⟩⟩

theorem Calls.of_call (h : Calls g t u) {r : ρ} (ht : t.expr = .call r) :
    u.expr = g.body r ∧ u.state.offset = t.state.offset ∧ u.state.stack = t.state.stack := by
  cases h with
  | silent | pair | hidden =>
      cases ht
      exact ⟨rfl, rfl, rfl⟩
  | _ => cases ht

theorem Within.of_call (h : Within g t u) {r : ρ} (ht : t.expr = .call r) : u = t := by
  rcases h.cases_head with rfl | ⟨_, hstep, _⟩
  · rfl
  · exact absurd ht (hstep.2 r)

theorem Within.seq {n : Nat} {c : Context} {a b : Expr ρ} {s : State ρ}
    {r : ρ}
    (h : Within g ⟨n, c, .seq a b, s⟩ u) (hu : u.expr = .call r) :
    ∃ m, n = m + 1 ∧ (Within g ⟨m, c, a, s⟩ u ∨
      ∃ t, g.run m c a s = .matched t ∧ Within g ⟨m, c, b, t.skip c g.blank⟩ u) := by
  rcases h.cases_head with rfl | ⟨_, ⟨hcalls, _⟩, hin⟩
  · cases hu
  · cases hcalls with
    | seqFirst => exact ⟨_, rfl, .inl hin⟩
    | seqSecond h => exact ⟨_, rfl, .inr ⟨_, h, hin⟩⟩

section Asking

variable [DecidableEq ρ] {r : ρ}

theorem Within.asks (h : Within g t u) (hu : u.expr = .call r) : t.expr.asks r := by
  induction h using ReflTransGen.head_induction_on with
  | refl =>
      rw [hu]
      exact decide_eq_true rfl
  | head hstep _ ih =>
      obtain ⟨hcalls, hplain⟩ := hstep
      cases hcalls with
      | silent | pair | hidden => exact absurd rfl (hplain _)
      | seqFirst | altFirst => exact Bool.or_eq_true_iff.mpr (.inl ih)
      | seqSecond | altSecond => exact Bool.or_eq_true_iff.mpr (.inr ih)
      | _ => exact ih

theorem Within.first {n : Nat} {c : Context} {a b : Expr ρ} {s : State ρ}
    (h : Within g ⟨n, c, .seq a b, s⟩ u) (hu : u.expr = .call r) (hb : b.asks r = false) :
    ∃ m, n = m + 1 ∧ Within g ⟨m, c, a, s⟩ u := by
  obtain ⟨m, rfl, hin | ⟨t, _, hin⟩⟩ := h.seq hu
  · exact ⟨m, rfl, hin⟩
  · have hasks := hin.asks hu
    rw [hb] at hasks
    cases hasks

theorem Within.second {n : Nat} {c : Context} {a b : Expr ρ} {s : State ρ}
    (h : Within g ⟨n, c, .seq a b, s⟩ u) (hu : u.expr = .call r) (ha : a.asks r = false) :
    ∃ m t, n = m + 1 ∧ g.run m c a s = .matched t ∧ Within g ⟨m, c, b, t.skip c g.blank⟩ u := by
  obtain ⟨m, rfl, hin | ⟨t, hrun, hin⟩⟩ := h.seq hu
  · have hasks := hin.asks hu
    rw [ha] at hasks
    cases hasks
  · exact ⟨m, t, rfl, hrun, hin⟩

end Asking

theorem matched_seq {n : Nat} {c : Context} {a b : Expr ρ} {s t : State ρ}
    (h : g.run n c (.seq a b) s = .matched t) :
    ∃ m u, n = m + 1 ∧ g.run m c a s = .matched u ∧ g.run m c b (u.skip c g.blank) = .matched t := by
  cases n with
  | zero => cases h
  | succ m =>
      simp only [Grammar.run] at h
      split at h
      · exact ⟨m, _, rfl, ‹_›, h⟩
      · cases h
      · cases h

theorem matched_call {n : Nat} {c : Context} {r : ρ} {s t : State ρ}
    (h : g.run n c (.call r) s = .matched t) :
    ∃ w u, Calls g ⟨n, c, .call r, s⟩ w ∧ w.expr = g.body r ∧ w.outcome g = .matched u ∧
      w.state.offset = s.offset ∧ w.state.stack = s.stack ∧ u.offset = t.offset ∧ u.stack = t.stack := by
  cases n with
  | zero => cases h
  | succ m =>
      simp only [Grammar.run] at h
      split at h
      · rename_i hkind
        exact ⟨_, t, .silent hkind, rfl, h, rfl, rfl, rfl, rfl⟩
      · rename_i hkind
        cases hleaves : (c.outside (g.kind r)).leavesPair with
        | true =>
            rw [hleaves] at h
            split at h
            · rename_i u hbody
              cases h
              exact ⟨_, u, .pair hkind hleaves, rfl, hbody, rfl, rfl, rfl, rfl⟩
            · cases h
            · cases h
        | false =>
            rw [hleaves] at h
            split at h
            · rename_i u hbody
              refine ⟨_, u, .hidden hkind hleaves, rfl, hbody, rfl, rfl, ?_⟩
              simp only [Bool.false_eq_true, if_false] at h
              split at h <;>
              · cases h
                exact ⟨rfl, rfl⟩
            · cases h
            · cases h

/-- During the run, which came to a match, the rule matched with the remembered texts of its beginning, and
what it matched was pushed on top of these. -/
structure Pushes (g : Grammar ρ) (name : ρ) (w : Trial ρ) (t : State ρ) (written : List Char) : Prop where
  tried : ∃ x y, Tried g w x ∧ x.expr = .push (.call name) ∧ x.outcome g = .matched y ∧
    w.state.offset ≤ x.state.offset ∧ x.state.stack = w.state.stack ∧ y.offset ≤ t.offset ∧
    written = x.state.consumed y
  stack_eq : t.stack = written :: w.state.stack

section Pushing

variable [DecidableEq ρ] {needs leaves : ρ → Nat}

theorem pushes_of_matched (hg : Balanced g needs leaves) {name : ρ} {e : Expr ρ} {n : Nat} {c : Context}
    {s t : State ρ} (he : e.pushes needs leaves name) (h : g.run n c e s = .matched t) :
    ∃ written, Pushes g name ⟨n, c, e, s⟩ t written := by
  induction e generalizing n s t with
  | seq a b iha ihb =>
      obtain ⟨m, u, rfl, ha, hb⟩ := matched_seq h
      have hskip := reaches_skip u c g.blank
      have hfirst := (Derives.of_run ha).reaches
      have hsecond := (Derives.of_run hb).reaches
      rcases Bool.or_eq_true_iff.mp he with he | he <;> obtain ⟨he, he'⟩ := Bool.and_eq_true_iff.mp he
      · obtain ⟨written, ⟨x, y, hx, hexpr, hy, hlo, hstack, hhi, hwritten⟩, hu⟩ := iha he ha
        refine ⟨written, ⟨x, y, hx.head .seqFirst, hexpr, hy, hlo, hstack, ?_, hwritten⟩, ?_⟩
        · exact Nat.le_trans hhi (hskip.trans hsecond).le
        · rw [(Derives.of_run hb).stack_eq hg he', stack_skip, hu]
      · obtain ⟨written, ⟨x, y, hx, hexpr, hy, hlo, hstack, hhi, hwritten⟩, hu⟩ := ihb he' hb
        have hstill : (u.skip c g.blank).stack = s.stack := by
          rw [stack_skip, (Derives.of_run ha).stack_eq hg he]
        refine ⟨written, ⟨x, y, hx.head (.seqSecond ha), hexpr, hy, ?_, hstack.trans hstill, hhi, hwritten⟩,
          by rw [hu, hstill]⟩
        exact Nat.le_trans (hfirst.trans hskip).le hlo
  | push a =>
      cases a with
      | call q =>
          obtain ⟨hname, hstill⟩ := Bool.and_eq_true_iff.mp he
          obtain rfl := of_decide_eq_true hname
          refine ⟨s.consumed t, ⟨_, t, .refl, rfl, h, Nat.le_refl _, rfl, Nat.le_refl _, rfl⟩, ?_⟩
          cases n with
          | zero => cases h
          | succ n =>
              simp only [Grammar.run] at h
              split at h
              · rename_i u hu
                cases h
                change s.consumed u :: u.stack = s.consumed u :: s.stack
                rw [(Derives.of_run hu).stack_eq hg hstill]
              · cases h
              · cases h
      | _ => cases he
  | _ => cases he

theorem pushes_of_matched_call (hg : Balanced g needs leaves) {name r : ρ} {n : Nat} {c : Context} {s t : State ρ}
    (he : (g.body r).pushes needs leaves name) (h : g.run n c (.call r) s = .matched t) :
    ∃ written, Pushes g name ⟨n, c, .call r, s⟩ t written := by
  obtain ⟨⟨m, c', e, s'⟩, u, hcalls, rfl, hu, hs, hsstack, ht, htstack⟩ := matched_call h
  obtain ⟨written, ⟨x, y, hx, hexpr, hy, hlo, hstack, hhi, hwritten⟩, hpushed⟩ := pushes_of_matched hg he hu
  refine ⟨written, ⟨x, y, hx.head hcalls, hexpr, hy, hs ▸ hlo, hstack.trans hsstack, ht ▸ hhi, hwritten⟩, ?_⟩
  rw [← htstack, hpushed]
  exact congrArg (written :: ·) hsstack

end Pushing

end Trial

end LiquidTemplate.Peg
