import LiquidTemplate.Proofs.Peg.Placement

namespace LiquidTemplate.Peg

open State

variable {ρ : Type}

def State.In (text : List Char) (s : State ρ) : Prop :=
  ∃ before, text = before ++ s.rest ∧ Text.byteLength before = s.offset

theorem State.In.reaches {text : List Char} {s t : State ρ} (hs : s.In text) (h : s.Reaches t) :
    t.In text := by
  obtain ⟨before, htext, hoffset⟩ := hs
  obtain ⟨w, hw, ht⟩ := h
  exact ⟨before ++ w, by rw [htext, hw, List.append_assoc],
    by rw [Text.byteLength_append, hoffset, ht]⟩

/-- Where a pair comes from: its rule's body was matched in the text, and so were the rules of all
pairs below it. -/
inductive Grown (g : Grammar ρ) (text : List Char) : Pair ρ → Prop
  | mk {c : Context} {s t : State ρ} {r : ρ} : g.kind r ≠ .silent →
      (c.outside (g.kind r)).leavesPair → s.pairs = [] → s.In text →
      Derives g (c.inside (g.kind r)) (g.body r) s t → (∀ p ∈ t.pairs, Grown g text p) →
      Grown g text ⟨r, s.offset, t.offset, s.consumed t, t.pairs.reverse⟩

/-- A match in the text leaves only pairs that come from it. -/
theorem Derives.grown {g : Grammar ρ} {text : List Char} {c : Context} {e : Expr ρ} {s t : State ρ}
    (h : Derives g c e s t) (hs : s.In text) (hpairs : ∀ p ∈ s.pairs, Grown g text p) :
    ∀ p ∈ t.pairs, Grown g text p := by
  induction h with
  | word | caseless | char | start | finish | absent | none | last | ahead | notAhead | top | pop =>
      exact hpairs
  | @seq c s t u a b ha _ iha ihb =>
      refine ihb (hs.reaches (ha.reaches.trans (reaches_skip t c g.blank))) ?_
      rw [pairs_skip]
      exact iha hs hpairs
  | first _ ih | present _ ih | silent _ _ ih => exact ih hs hpairs
  | second _ _ ih | push _ ih | hidden _ _ _ ih => exact ih hs hpairs
  | some ha _ iha ihb => exact ihb (hs.reaches ha.reaches) (iha hs hpairs)
  | @next c s t u a ha _ iha ihb =>
      have hskip := hs.reaches (reaches_skip s c g.blank)
      refine ihb (hskip.reaches ha.reaches) (iha hskip ?_)
      rw [pairs_skip]
      exact hpairs
  | @pair c s t r hkind hleaves h ih =>
      intro p hp
      rcases List.mem_cons.mp hp with rfl | hp
      · exact Grown.mk (s := { s with pairs := [] }) hkind hleaves rfl hs h (ih hs (by simp))
      · exact hpairs p hp

namespace Grown

variable {g : Grammar ρ} {text : List Char} {p : Pair ρ}

theorem text_eq (h : Grown g text p) : ∃ before after, text = before ++ (p.text ++ after) ∧
    Text.byteLength before = p.start ∧ p.stop = p.start + Text.byteLength p.text := by
  cases h with
  | mk _ _ _ hs h _ =>
      obtain ⟨before, htext, hoffset⟩ := hs
      obtain ⟨hrest, hstop⟩ := h.reaches.consumed
      exact ⟨before, _, by rw [htext, hrest], hoffset, hstop⟩

theorem row (h : Grown g text p) : Row p.start p.stop p.children := by
  cases h with
  | mk _ _ hpairs _ h _ =>
      obtain ⟨new, hnew, hrow⟩ := h.row
      rw [hpairs, List.append_nil] at hnew
      rw [hnew]
      exact hrow

theorem children (h : Grown g text p) : ∀ q ∈ p.children, Grown g text q := by
  cases h with
  | mk _ _ _ _ _ hpairs => simpa using hpairs

/-- What holds of a pair whenever it holds of the pairs in it holds of all pairs. -/
theorem induct {motive : ∀ p, Grown g text p → Prop}
    (step : ∀ p (h : Grown g text p), (∀ q (hq : q ∈ p.children), motive q (h.children q hq)) → motive p h)
    {p : Pair ρ} (h : Grown g text p) : motive p h := by
  induction h with
  | mk hkind hleaves hpairs hs h hgrown ih =>
      refine step _ (.mk hkind hleaves hpairs hs h hgrown) ?_
      intro q hq
      exact ih q (List.mem_reverse.mp hq)

theorem stop_le (h : Grown g text p) : p.stop ≤ Text.byteLength text := by
  obtain ⟨before, after, htext, hstart, hstop⟩ := h.text_eq
  rw [htext, Text.byteLength_append, Text.byteLength_append]
  omega

end Grown

mutual

theorem Grown.flatten {g : Grammar ρ} {text : List Char} :
    ∀ {p q : Pair ρ}, Grown g text p → q ∈ p.flatten → Grown g text q
  | ⟨r, start, stop, word, children⟩, q, hp, hq => by
      rw [Pair.flatten] at hq
      rcases List.mem_cons.mp hq with rfl | hq
      · exact hp
      · exact Grown.flattenAll hp.children hq

theorem Grown.flattenAll {g : Grammar ρ} {text : List Char} :
    ∀ {ps : List (Pair ρ)} {q : Pair ρ}, (∀ p ∈ ps, Grown g text p) → q ∈ Pair.flattenAll ps →
      Grown g text q
  | [], q, _, hq => by
      rw [Pair.flattenAll] at hq
      cases hq
  | p :: ps, q, hps, hq => by
      obtain ⟨hp, hrest⟩ := List.forall_mem_cons.mp hps
      rw [Pair.flattenAll] at hq
      rcases List.mem_append.mp hq with hq | hq
      · exact Grown.flatten hp hq
      · exact Grown.flattenAll hrest hq

end

/-- The pairs of a parse come from the text and stand in order in it. -/
theorem Grammar.grown_parse {g : Grammar ρ} {rule : ρ} {text : List Char} {pairs : List (Pair ρ)}
    (h : g.parse rule text = .ok pairs) :
    (∀ p ∈ pairs, Grown g text p) ∧ Row 0 (Text.byteLength text) pairs := by
  unfold Grammar.parse at h
  split at h
  · rename_i s hrun
    cases h
    have hderives := Derives.of_run hrun
    have hin : (Grammar.initial text : State ρ).In text := ⟨[], rfl, rfl⟩
    refine ⟨by simpa using hderives.grown hin (by simp [Grammar.initial]), ?_⟩
    obtain ⟨new, hnew, hrow⟩ := hderives.row
    obtain ⟨before, htext, hoffset⟩ := hin.reaches hderives.reaches
    rw [show s.pairs = new by simpa [Grammar.initial] using hnew]
    refine hrow.weaken (Nat.zero_le _) ?_
    rw [htext, Text.byteLength_append, hoffset]
    exact Nat.le_add_right _ _
  · cases h
  · cases h

/-- Whether a match of the expression cannot be empty, given the rules of which that is known. -/
def Expr.eats (solid : ρ → Bool) : Expr ρ → Bool
  | word w => !w.isEmpty
  | caseless w => !w.isEmpty
  | char _ => true
  | seq a b => a.eats solid || b.eats solid
  | alt a b => a.eats solid && b.eats solid
  | push a => a.eats solid
  | call r => solid r
  | _ => false

theorem byteLength_pos {w : List Char} (h : w ≠ []) : 0 < Text.byteLength w := by
  cases w with
  | nil => exact absurd rfl h
  | cons c cs =>
      have := c.utf8Size_pos
      rw [Text.byteLength_cons]
      omega

/-- An expression that eats moves forward, if the bodies of the known rules eat. -/
theorem Derives.lt {g : Grammar ρ} {solid : ρ → Bool}
    (hsolid : ∀ r, solid r → (g.body r).eats solid) {c : Context} {e : Expr ρ} {s t : State ρ}
    (h : Derives g c e s t) (he : e.eats solid) : s.offset < t.offset := by
  induction h with
  | word | caseless =>
      exact Nat.lt_add_of_pos_right (byteLength_pos (by simpa [Expr.eats] using he))
  | @char c s test x xs =>
      exact Nat.lt_add_of_pos_right x.utf8Size_pos
  | @seq c s t u a b ha hb iha ihb =>
      have hskip := (reaches_skip t c g.blank).le
      simp only [Expr.eats, Bool.or_eq_true] at he
      rcases he with he | he
      · exact Nat.lt_of_lt_of_le (iha he) (Nat.le_trans hskip hb.reaches.le)
      · exact Nat.lt_of_le_of_lt (Nat.le_trans ha.reaches.le hskip) (ihb he)
  | first _ ih =>
      simp only [Expr.eats, Bool.and_eq_true] at he
      exact ih he.1
  | second _ _ ih =>
      simp only [Expr.eats, Bool.and_eq_true] at he
      exact ih he.2
  | push _ ih => exact ih he
  | silent _ _ ih => exact ih (hsolid _ he)
  | pair _ _ _ ih | hidden _ _ _ ih => exact ih (hsolid _ he)
  | start | finish | present | absent | none | some | last | next | ahead | notAhead | top | pop =>
      cases he

theorem Grown.lt {g : Grammar ρ} {text : List Char} {p : Pair ρ} (h : Grown g text p)
    {solid : ρ → Bool} (hsolid : ∀ r, solid r → (g.body r).eats solid) (hp : solid p.rule) :
    p.start < p.stop := by
  cases h with
  | mk _ _ _ _ h _ => exact h.lt hsolid (hsolid _ hp)

end LiquidTemplate.Peg
