import Mathlib.Data.List.TakeWhile
import LiquidTemplate.Proofs.Peg.Consumption

namespace LiquidTemplate.Peg

open State Text

variable {ρ : Type} {g : Grammar ρ} {c : Context} {e : Expr ρ} {s t : State ρ}

theorem State.takes_skip (s : State ρ) (c : Context) (blank : Char → Bool) :
    ∃ v, s.Takes (s.skip c blank) v [] ∧ ∀ x ∈ v, blank x := by
  by_cases hc : c.atomicity = .spaced
  · refine ⟨s.rest.takeWhile blank, ⟨?_, ?_, ?_⟩, ?_⟩
    · simp [State.skip, hc]
    · simp [State.skip, hc]
    · simp
    · intro x hx
      exact List.mem_takeWhile_imp hx
  · refine ⟨[], ?_, by simp⟩
    rw [State.skip_of_ne_spaced s blank hc]
    exact .idle s.attempts

theorem State.forall_head?_skip (s : State ρ) (hc : c.atomicity = .spaced) {blank : Char → Bool} :
    ∀ x ∈ (s.skip c blank).rest.head?, blank x = false := by
  intro x hx
  have hrest : (s.skip c blank).rest = s.rest.dropWhile blank := by simp [State.skip, hc]
  rw [hrest] at hx
  have hnot := List.head?_dropWhile_not blank s.rest
  rw [Option.mem_def.mp hx] at hnot
  simpa using hnot

theorem Derives.takes (h : Derives g c e s t) : ∃ w ps, s.Takes t w ps ∧ Row s.offset t.offset ps := by
  obtain ⟨w, hrest, hoffset⟩ := h.reaches
  obtain ⟨new, hnew, hrow⟩ := h.row
  exact ⟨w, new.reverse, ⟨hrest, hoffset, by rw [List.reverse_reverse, hnew]⟩, hrow⟩

theorem Derives.seq_takes {a b : Expr ρ} (h : Derives g c (.seq a b) s t) :
    ∃ u w ps, Derives g c a s u ∧ u.Takes t w ps := by
  cases h with
  | @seq _ _ u _ _ _ ha hb =>
      obtain ⟨v, hv, _⟩ := u.takes_skip c g.blank
      obtain ⟨w, ps, hw, _⟩ := hb.takes
      exact ⟨u, v ++ w, [] ++ ps, ha, hv.trans hw⟩

def Expr.opens : Expr ρ → Option (List Char)
  | word w => some w
  | seq a _ => a.opens
  | _ => Option.none

theorem Derives.takes_opens {w : List Char} (h : Derives g c e s t) (he : e.opens = .some w) :
    ∃ u v ps, s.Takes u w [] ∧ u.Takes t v ps ∧ Row u.offset t.offset ps := by
  induction e generalizing s t with
  | word w =>
      cases he
      exact ⟨t, [], [], h.takes_word, .idle t.attempts, Nat.le_refl _⟩
  | seq a b iha _ =>
      cases h with
      | @seq _ _ u' _ _ _ ha hb =>
          obtain ⟨u, v, ps, hu, hv, hrow⟩ := iha ha he
          obtain ⟨v', hskip, _⟩ := u'.takes_skip c g.blank
          obtain ⟨v'', qs, hb, hrow'⟩ := hb.takes
          refine ⟨u, _, _, hu, (hv.trans hskip).trans hb, ?_⟩
          rw [List.append_nil]
          exact hrow.append (hrow'.weaken (reaches_skip u' c g.blank).le (Nat.le_refl _))
  | _ => cases he

/-- The body of a pair's rule takes the pair's text and leaves the pair's children. -/
theorem Grown.derives {text : List Char} {p : Pair ρ} (h : Grown g text p)
    (hp : (g.kind p.rule).branches) :
    ∃ (c : Context) (s t : State ρ), (c.inside (g.kind p.rule)).leavesPair ∧ s.In text ∧
      (p.start = s.offset ∧ p.stop = t.offset) ∧
      Derives g (c.inside (g.kind p.rule)) (g.body p.rule) s t ∧ s.Takes t p.text p.children := by
  cases h with
  | @mk c s t r _ hleaves hpairs hs h _ =>
      obtain ⟨hrest, hoffset⟩ := h.reaches.consumed
      refine ⟨c, s, t, Context.leavesPair_inside hp hleaves, hs, ⟨rfl, rfl⟩, h, hrest, hoffset, ?_⟩
      rw [hpairs, List.append_nil, List.reverse_reverse]

theorem Grammar.parse_ok {r : ρ} {text : List Char} {pairs : List (Pair ρ)} (h : g.parse r text = .ok pairs)
    (hr : (g.kind r).branches) :
    ∃ p t, pairs = [p] ∧ p.rule = r ∧ p.start = 0 ∧
      Derives g (Context.top.inside (g.kind r)) (g.body r) (Grammar.initial text) t ∧
      (Grammar.initial text).Takes t p.text p.children := by
  unfold Grammar.parse at h
  split at h
  · rename_i u hrun
    cases h
    cases Derives.of_run hrun with
    | silent hkind =>
        rw [hkind] at hr
        cases hr
    | @pair _ _ t _ _ _ h =>
        obtain ⟨hrest, hoffset⟩ := h.reaches.consumed
        exact ⟨_, t, rfl, rfl, rfl, h, hrest, hoffset, by simp [Grammar.initial]⟩
    | hidden _ hleaves =>
        rw [Context.leavesPair_outside _ _ rfl] at hleaves
        cases hleaves
  · cases h
  · cases h

theorem Derives.rest_finish (h : Derives g c .finish s t) : s.rest = [] ∧ t = s := by
  cases h with
  | finish hrest => exact ⟨hrest, rfl⟩

/-- A rule for the end of the text matches there only. -/
theorem Derives.rest_call_finish {r : ρ} (hr : g.body r = .finish) (h : Derives g c (.call r) s t) :
    s.rest = [] ∧ t.rest = [] := by
  cases h with
  | silent _ h | pair _ _ h | hidden _ _ h =>
      rw [hr] at h
      obtain ⟨hrest, rfl⟩ := h.rest_finish
      exact ⟨hrest, hrest⟩

/-- A rule that ends where the text ends matches the whole text. -/
theorem Grammar.parse_whole {r eoi : ρ} {a : Expr ρ} {text : List Char} {pairs : List (Pair ρ)}
    (h : g.parse r text = .ok pairs) (hkind : (g.kind r).branches) (hbody : g.body r = .seq a (.call eoi))
    (heoi : g.body eoi = .finish) :
    ∃ p, pairs = [p] ∧ p.rule = r ∧ Grown g text p ∧ p.start = 0 ∧ p.text = text := by
  have hgrown := (Grammar.grown_parse h).1
  obtain ⟨p, t, rfl, hrule, hstart, hderives, htakes⟩ := Grammar.parse_ok h hkind
  rw [hbody] at hderives
  cases hderives with
  | seq _ hfinish =>
      have htext := htakes.rest_eq
      rw [(hfinish.rest_call_finish heoi).2, List.append_nil] at htext
      exact ⟨p, rfl, hrule, hgrown p (by simp), hstart, htext.symm⟩

section Starts

variable {text : List Char} {p : Pair ρ} {a b : Expr ρ}

theorem Grown.starts_word {w : List Char} (h : Grown g text p) (hp : (g.kind p.rule).branches)
    (he : (g.body p.rule).opens = some w) : w <+: p.text ∧ Row (p.start + byteLength w) p.stop p.children := by
  obtain ⟨c, s, t, _, _, ⟨hstart, hstop⟩, h, htakes⟩ := h.derives hp
  obtain ⟨u, v, ps, hu, hv, hrow⟩ := h.takes_opens he
  obtain ⟨htext, hchildren⟩ := htakes.unique (hu.trans hv)
  constructor
  · rw [htext]
    exact List.prefix_append _ _
  · rwa [hchildren, hstart, hstop, ← hu.offset_eq]

theorem Grown.starts_child {r : ρ} (h : Grown g text p) (hp : (g.kind p.rule).branches)
    (hbody : g.body p.rule = .seq (.seq (.call r) a) b) (hr : g.kind r ≠ .silent) :
    ∃ q rest, p.children = q :: rest ∧ q.text <+: p.text := by
  obtain ⟨c, s, t, hc, _, _, h, htakes⟩ := h.derives hp
  rw [hbody] at h
  obtain ⟨u, v, ps, h, hu⟩ := h.seq_takes
  obtain ⟨u', v', qs, h, hu'⟩ := h.seq_takes
  obtain ⟨q, hq, _⟩ := h.takes_call hr hc
  obtain ⟨htext, hchildren⟩ := htakes.unique ((hq.trans hu').trans hu)
  refine ⟨q, qs ++ ps, by simp [hchildren], ?_⟩
  rw [htext, List.append_assoc]
  exact List.prefix_append _ _

end Starts

def Expr.picks (known : ρ → Bool) : Expr ρ → Bool
  | alt a b => a.picks known && b.picks known
  | call r => known r
  | _ => false

/-- A choice between rules leaves one pair, of the rule that is chosen. -/
theorem Derives.takes_pick {known : ρ → Bool}
    (hknown : ∀ r, known r → g.kind r = .silent → (g.body r).picks known) (h : Derives g c e s t)
    (hc : c.leavesPair) (he : e.picks known) :
    ∃ p r, s.Takes t p.text [p] ∧ known p.rule ∧ g.kind p.rule ≠ .silent ∧ p.start = s.offset ∧
      Derives g c (.call p.rule) { s with attempts := r } t := by
  induction h with
  | first _ ih =>
      simp only [Expr.picks, Bool.and_eq_true] at he
      exact ih hc he.1
  | second _ _ ih =>
      simp only [Expr.picks, Bool.and_eq_true] at he
      obtain ⟨p, r, hp, hrule⟩ := ih hc he.2
      exact ⟨p, r, ⟨hp.rest_eq, hp.offset_eq, hp.pairs_eq⟩, hrule⟩
  | silent hkind _ ih => exact ih hc (hknown _ he hkind)
  | @pair c s t r hkind hleaves h =>
      obtain ⟨p, hp, hrule, hstart, _⟩ := (Derives.pair hkind hleaves h).takes_call hkind hc
      subst hrule
      exact ⟨p, s.attempts, hp, he, hkind, hstart, .pair hkind hleaves h⟩
  | hidden _ hleaves =>
      rw [Context.leavesPair_outside _ _ hc] at hleaves
      cases hleaves
  | _ => cases he

theorem Derives.forall_many {text : List Char} {a : Expr ρ} {P : Pair ρ → Prop}
    (ha : ∀ {s t}, s.In text → Derives g c a s t → ∃ w ps, s.Takes t w ps ∧ ∀ p ∈ ps, P p)
    (hs : s.In text) (h : Derives g c (.many a) s t) :
    ∃ w ps, s.Takes t w ps ∧ ∀ p ∈ ps, P p := by
  have hjoin : ∀ {s t u : State ρ}, (∃ w ps, s.Takes t w ps ∧ ∀ p ∈ ps, P p) →
      (∃ w ps, t.Takes u w ps ∧ ∀ p ∈ ps, P p) → ∃ w ps, s.Takes u w ps ∧ ∀ p ∈ ps, P p := by
    rintro s t u ⟨v, ps, hst, hps⟩ ⟨w, qs, htu, hqs⟩
    exact ⟨v ++ w, ps ++ qs, hst.trans htu, List.forall_mem_append.mpr ⟨hps, hqs⟩⟩
  refine h.many_induct (P := fun s t => s.In text → ∃ w ps, s.Takes t w ps ∧ ∀ p ∈ ps, P p) ?_ ?_ hs
  · intro s s' r _ _ _
    exact ⟨[], [], .idle _, by simp⟩
  · intro s s' t u hs' hfirst ih hs
    have hskip : ∃ v, s.Takes s' v [] := by
      rcases hs' with rfl | rfl
      · exact ⟨[], .idle s'.attempts⟩
      · obtain ⟨v, hv, _⟩ := s.takes_skip c g.blank
        exact ⟨v, hv⟩
    obtain ⟨v, hv⟩ := hskip
    have hin := hs.reaches ⟨v, hv.rest_eq, hv.offset_eq⟩
    exact hjoin (hjoin ⟨v, [], hv, by simp⟩ (ha hin hfirst)) (ih (hin.reaches hfirst.reaches))

end LiquidTemplate.Peg
