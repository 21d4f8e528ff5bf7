import LiquidTemplate.Proofs.Peg.Provenance

namespace LiquidTemplate.Peg

open State

variable {ρ : Type} {g : Grammar ρ} {c : Context} {e : Expr ρ} {s t : State ρ}

def Expr.within (known : ρ → Bool) : Expr ρ → Bool
  | seq a b => a.within known && b.within known
  | alt a b => a.within known && b.within known
  | opt a => a.within known
  | many a => a.within known
  | again a => a.within known
  | push a => a.within known
  | call r => known r
  | _ => true

/-- The rule whose pair a match of the expression leaves first, if that is plain to see. -/
def Expr.leads (still : ρ → Bool) : Expr ρ → Option ρ
  | seq a b => if a.within still then b.leads still else a.leads still
  | push a => a.leads still
  | call r => some r
  | _ => Option.none

def Expr.trails (still : ρ → Bool) : Expr ρ → Option ρ
  | seq a b => if b.within still then a.trails still else b.trails still
  | push a => a.trails still
  | call r => some r
  | _ => Option.none

def Closed (g : Grammar ρ) (known : ρ → Bool) : Prop :=
  ∀ r, known r → g.kind r = .silent → (g.body r).within known

def Still (g : Grammar ρ) (still : ρ → Bool) : Prop :=
  ∀ r, still r → g.kind r = .silent ∧ (g.body r).within still

theorem Context.leavesPair_outside (c : Context) (kind : Kind) (h : c.leavesPair) :
    (c.outside kind).leavesPair := by
  cases kind <;> simp_all [Context.leavesPair, Context.outside]

theorem Derives.rules {known : ρ → Bool} (hknown : Closed g known) (h : Derives g c e s t)
    (hc : c.leavesPair) (he : e.within known) :
    ∃ new, t.pairs = new ++ s.pairs ∧ ∀ p ∈ new, known p.rule ∧ g.kind p.rule ≠ .silent := by
  induction h with
  | word | caseless | char | start | finish | absent | none | last | ahead | notAhead | top | pop =>
      exact ⟨[], rfl, by simp⟩
  | seq _ _ iha ihb =>
      simp only [Expr.within, Bool.and_eq_true] at he
      obtain ⟨new, hnew, hrules⟩ := iha hc he.1
      obtain ⟨new', hnew', hrules'⟩ := ihb hc he.2
      exact ⟨new' ++ new, by rw [hnew', pairs_skip, hnew, List.append_assoc],
        List.forall_mem_append.mpr ⟨hrules', hrules⟩⟩
  | first _ ih =>
      simp only [Expr.within, Bool.and_eq_true] at he
      exact ih hc he.1
  | second _ _ ih =>
      simp only [Expr.within, Bool.and_eq_true] at he
      exact ih hc he.2
  | present _ ih | push _ ih => exact ih hc he
  | some _ _ iha ihb =>
      obtain ⟨new, hnew, hrules⟩ := iha hc he
      obtain ⟨new', hnew', hrules'⟩ := ihb hc he
      exact ⟨new' ++ new, by rw [hnew', hnew, List.append_assoc],
        List.forall_mem_append.mpr ⟨hrules', hrules⟩⟩
  | next _ _ iha ihb =>
      obtain ⟨new, hnew, hrules⟩ := iha hc he
      obtain ⟨new', hnew', hrules'⟩ := ihb hc he
      exact ⟨new' ++ new, by rw [hnew', hnew, pairs_skip, List.append_assoc],
        List.forall_mem_append.mpr ⟨hrules', hrules⟩⟩
  | silent hkind _ ih => exact ih hc (hknown _ he hkind)
  | pair hkind => exact ⟨[_], rfl, by simpa using ⟨he, hkind⟩⟩
  | hidden _ hleaves =>
      rw [Context.leavesPair_outside _ _ hc] at hleaves
      cases hleaves

theorem Derives.quiet {still : ρ → Bool} (hstill : Still g still) (h : Derives g c e s t)
    (hc : c.leavesPair) (he : e.within still) : t.pairs = s.pairs := by
  obtain ⟨new, hnew, hrules⟩ := h.rules (fun r hr _ => (hstill r hr).2) hc he
  cases new with
  | nil => exact hnew
  | cons p new =>
      obtain ⟨hp, hkind⟩ := hrules p (by simp)
      exact absurd (hstill _ hp).1 hkind

theorem Derives.call_pair {r : ρ} (h : Derives g c (.call r) s t) (hkind : g.kind r ≠ .silent)
    (hc : c.leavesPair) :
    ∃ p, t.pairs = p :: s.pairs ∧ p.rule = r ∧ p.start = s.offset ∧ p.stop = t.offset := by
  cases h with
  | silent hsilent => exact absurd hsilent hkind
  | pair => exact ⟨_, rfl, rfl, rfl, rfl⟩
  | hidden _ hleaves =>
      rw [Context.leavesPair_outside c _ hc] at hleaves
      cases hleaves

theorem Grammar.parse_rule {r : ρ} {text : List Char} {pairs : List (Pair ρ)}
    (h : g.parse r text = .ok pairs) (hkind : g.kind r ≠ .silent) : ∀ p ∈ pairs, p.rule = r := by
  unfold Grammar.parse at h
  split at h
  · rename_i s hrun
    cases h
    obtain ⟨p, hp, hrule, _⟩ := (Derives.of_run hrun).call_pair hkind rfl
    intro q hq
    rw [hp] at hq
    simp only [Grammar.initial, List.reverse_singleton, List.mem_singleton] at hq
    rw [hq, hrule]
  · cases h
  · cases h

theorem Derives.leads {still : ρ → Bool} (hstill : Still g still) (h : Derives g c e s t)
    (hc : c.leavesPair) {r : ρ} (he : e.leads still = .some r) (hkind : g.kind r ≠ .silent) :
    ∃ new p, t.pairs = new ++ p :: s.pairs ∧ p.rule = r := by
  induction e generalizing s t with
  | seq a b iha ihb =>
      cases h with
      | seq ha hb =>
          rw [Expr.leads] at he
          split at he
          · rename_i hquiet
            obtain ⟨new, p, hpairs, hrule⟩ := ihb hb he
            rw [pairs_skip, ha.quiet hstill hc hquiet] at hpairs
            exact ⟨new, p, hpairs, hrule⟩
          · obtain ⟨new, p, hpairs, hrule⟩ := iha ha he
            obtain ⟨new', hnew', _⟩ := hb.row
            rw [pairs_skip, hpairs] at hnew'
            exact ⟨new' ++ new, p, by rw [hnew', List.append_assoc], hrule⟩
  | push a ih =>
      cases h with
      | push ha =>
          obtain ⟨new, p, hpairs, hrule⟩ := ih ha he
          exact ⟨new, p, hpairs, hrule⟩
  | call r' =>
      cases he
      obtain ⟨p, hpairs, hrule, _⟩ := h.call_pair hkind hc
      exact ⟨[], p, hpairs, hrule⟩
  | _ => cases he

theorem Derives.trails {still : ρ → Bool} (hstill : Still g still) (h : Derives g c e s t)
    (hc : c.leavesPair) {r : ρ} (he : e.trails still = .some r) (hkind : g.kind r ≠ .silent) :
    ∃ new p, t.pairs = p :: new ++ s.pairs ∧ p.rule = r := by
  induction e generalizing s t with
  | seq a b iha ihb =>
      cases h with
      | seq ha hb =>
          rw [Expr.trails] at he
          split at he
          · rename_i hquiet
            obtain ⟨new, p, hpairs, hrule⟩ := iha ha he
            have hsame := hb.quiet hstill hc hquiet
            rw [pairs_skip] at hsame
            exact ⟨new, p, by rw [hsame, hpairs], hrule⟩
          · obtain ⟨new, p, hpairs, hrule⟩ := ihb hb he
            obtain ⟨new', hnew', _⟩ := ha.row
            rw [pairs_skip, hnew', ← List.append_assoc] at hpairs
            exact ⟨new ++ new', p, hpairs, hrule⟩
  | push a ih =>
      cases h with
      | push ha =>
          obtain ⟨new, p, hpairs, hrule⟩ := ih ha he
          exact ⟨new, p, hpairs, hrule⟩
  | call r' =>
      cases he
      obtain ⟨p, hpairs, hrule, _⟩ := h.call_pair hkind hc
      exact ⟨[], p, hpairs, hrule⟩
  | _ => cases he

def Kind.branches : Kind → Bool
  | .silent | .atomic => false
  | _ => true

theorem Context.leavesPair_inside {kind : Kind} (hkind : kind.branches)
    (h : (c.outside kind).leavesPair) : (c.inside kind).leavesPair := by
  cases kind with
  | silent | atomic => cases hkind
  | plain | compound | spaced => exact h

namespace Grown

variable {text : List Char} {p : Pair ρ} {still : ρ → Bool} {r : ρ}

theorem child_rules {known : ρ → Bool} (h : Grown g text p) (hknown : Closed g known)
    (hp : (g.kind p.rule).branches) (he : (g.body p.rule).within known) :
    ∀ q ∈ p.children, known q.rule ∧ g.kind q.rule ≠ .silent := by
  cases h with
  | mk _ hleaves hpairs _ h _ =>
      obtain ⟨new, hnew, hrules⟩ := h.rules hknown (Context.leavesPair_inside hp hleaves) he
      rw [hpairs, List.append_nil] at hnew
      intro q hq
      rw [hnew] at hq
      exact hrules q (List.mem_reverse.mp hq)

theorem head_child (h : Grown g text p) (hstill : Still g still) (hp : (g.kind p.rule).branches)
    (he : (g.body p.rule).leads still = some r) (hkind : g.kind r ≠ .silent) :
    ∃ q rest, p.children = q :: rest ∧ q.rule = r := by
  cases h with
  | mk _ hleaves hpairs _ h _ =>
      obtain ⟨new, q, hnew, hq⟩ := h.leads hstill (Context.leavesPair_inside hp hleaves) he hkind
      rw [hpairs] at hnew
      exact ⟨q, new.reverse, by simp [hnew], hq⟩

theorem last_child (h : Grown g text p) (hstill : Still g still) (hp : (g.kind p.rule).branches)
    (he : (g.body p.rule).trails still = some r) (hkind : g.kind r ≠ .silent) :
    ∃ init q, p.children = init ++ [q] ∧ q.rule = r := by
  cases h with
  | mk _ hleaves hpairs _ h _ =>
      obtain ⟨new, q, hnew, hq⟩ := h.trails hstill (Context.leavesPair_inside hp hleaves) he hkind
      rw [hpairs] at hnew
      exact ⟨new.reverse, q, by simp [hnew], hq⟩

end Grown

theorem State.skip_of_ne_spaced (s : State ρ) (blank : Char → Bool) (hc : c.atomicity ≠ .spaced) :
    s.skip c blank = s := by
  unfold State.skip
  split
  · contradiction
  · rfl

theorem Derives.seq_meets {a b : Expr ρ} (h : Derives g c (.seq a b) s t) (hc : c.atomicity ≠ .spaced) :
    ∃ u, Derives g c a s u ∧ Derives g c b u t := by
  cases h with
  | @seq _ _ u _ _ _ ha hb =>
      rw [State.skip_of_ne_spaced u g.blank hc] at hb
      exact ⟨u, ha, hb⟩

end LiquidTemplate.Peg
