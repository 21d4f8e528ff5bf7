import LiquidTemplate.Proofs.Peg.Shape

namespace LiquidTemplate.Peg

variable {ρ : Type} {g : Grammar ρ} {c : Context} {s t u : State ρ}

theorem State.consumed_eq {w : List Char} (hrest : s.rest = w ++ t.rest)
    (hoffset : t.offset = s.offset + Text.byteLength w) : s.consumed t = w := by
  obtain ⟨h, _⟩ := State.Reaches.consumed ⟨w, hrest, hoffset⟩
  rw [hrest] at h
  exact (List.append_cancel_right h).symm

structure State.Takes (s t : State ρ) (w : List Char) (ps : List (Pair ρ)) : Prop where
  rest_eq : s.rest = w ++ t.rest
  offset_eq : t.offset = s.offset + Text.byteLength w
  pairs_eq : t.pairs = ps.reverse ++ s.pairs

namespace State.Takes

variable {v w : List Char} {ps qs : List (Pair ρ)}

theorem idle (a : Attempts ρ) : s.Takes { s with attempts := a } [] [] := ⟨rfl, rfl, rfl⟩

theorem trans (hst : s.Takes t v ps) (htu : t.Takes u w qs) : s.Takes u (v ++ w) (ps ++ qs) := by
  constructor
  · rw [hst.rest_eq, htu.rest_eq, List.append_assoc]
  · rw [htu.offset_eq, hst.offset_eq, Text.byteLength_append, Nat.add_assoc]
  · rw [htu.pairs_eq, hst.pairs_eq, List.reverse_append, List.append_assoc]

theorem consumed_eq (h : s.Takes t w ps) : s.consumed t = w :=
  State.consumed_eq h.rest_eq h.offset_eq

theorem unique (h : s.Takes t v ps) (h' : s.Takes t w qs) : v = w ∧ ps = qs := by
  constructor
  · rw [← h.consumed_eq, h'.consumed_eq]
  · have hpairs := h.pairs_eq
    rw [h'.pairs_eq] at hpairs
    exact (List.reverse_inj.mp (List.append_cancel_right hpairs)).symm

theorem rest_of {more : List Char} (h : s.Takes t w ps) (hs : s.rest = w ++ more) : t.rest = more :=
  List.append_cancel_left (h.rest_eq.symm.trans hs)

theorem word_of {more : List Char} (h : s.Takes t w ps) (hs : s.rest = v ++ more) (ht : t.rest = more) :
    w = v := by
  have heq := h.rest_eq
  rw [hs, ht] at heq
  exact (List.append_cancel_right heq).symm

end State.Takes

theorem Derives.takes_word {w : List Char} (h : Derives g c (.word w) s t) : s.Takes t w [] := by
  cases h with
  | word hrest => exact ⟨Text.stripWord?_eq_some hrest, rfl, rfl⟩

theorem Derives.takes_opt {a : Expr ρ} (h : Derives g c (.opt a) s t) :
    Derives g c a s t ∨ s.Takes t [] [] := by
  cases h with
  | present h => exact .inl h
  | absent => exact .inr (.idle _)

theorem Derives.takes_call {r : ρ} (h : Derives g c (.call r) s t) (hkind : g.kind r ≠ .silent)
    (hc : c.leavesPair) :
    ∃ p, s.Takes t p.text [p] ∧ p.rule = r ∧ p.start = s.offset ∧ p.stop = t.offset ∧
      ∃ s' t', Derives g (c.inside (g.kind r)) (g.body r) s' t' ∧ s'.consumed t' = p.text := by
  cases h with
  | silent hsilent => exact absurd hsilent hkind
  | pair _ _ h =>
      obtain ⟨hrest, hoffset⟩ := h.reaches.consumed
      exact ⟨_, ⟨hrest, hoffset, rfl⟩, rfl, rfl, rfl, _, _, h, rfl⟩
  | hidden _ hleaves =>
      rw [Context.leavesPair_outside c _ hc] at hleaves
      cases hleaves

/-- The body of a rule that leaves a pair is matched with the names that are remembered, and leaves its own. -/
theorem Derives.call_inner {r : ρ} (h : Derives g c (.call r) s t) (hkind : g.kind r ≠ .silent)
    (hc : c.leavesPair) :
    ∃ u, Derives g (c.inside (g.kind r)) (g.body r) { s with pairs := [] } u ∧
      s.Takes t (s.consumed u) [⟨r, s.offset, u.offset, s.consumed u, u.pairs.reverse⟩] ∧
      u.offset = t.offset ∧ u.stack = t.stack := by
  cases h with
  | silent hsilent => exact absurd hsilent hkind
  | pair _ _ h =>
      obtain ⟨hrest, hoffset⟩ := h.reaches.consumed
      exact ⟨_, h, ⟨hrest, hoffset, rfl⟩, rfl, rfl⟩
  | hidden _ hleaves =>
      rw [Context.leavesPair_outside c _ hc] at hleaves
      cases hleaves

/-- What a failed round starts with, and each round before it keeps, holds of a repetition. Before each
round but the first one blanks are skipped, where they are allowed. -/
theorem Derives.many_induct {a : Expr ρ} {P : State ρ → State ρ → Prop}
    (hstop : ∀ {s s' r}, s' = s ∨ s' = s.skip c g.blank → Fails g c a s' r → P s { s with attempts := r })
    (hround : ∀ {s s' t u}, s' = s ∨ s' = s.skip c g.blank → Derives g c a s' t → P t u → P s u)
    (h : Derives g c (.many a) s t) : P s t := by
  -- The further rounds are an expression of their own, so the induction is on both.
  have hrounds : ∀ {c' e s t}, Derives g c' e s t → c' = c → (e = .many a ∨ e = .again a) → P s t := by
    intro c' e s t h hc he
    induction h with
    | none hfails =>
        subst hc
        rcases he with he | he
        · cases he
          exact hstop (.inl rfl) hfails
        · cases he
    | last hfails =>
        subst hc
        rcases he with he | he
        · cases he
        · cases he
          exact hstop (.inr rfl) hfails
    | some hfirst _ _ ih =>
        subst hc
        rcases he with he | he
        · cases he
          exact hround (.inl rfl) hfirst (ih rfl (.inr rfl))
        · cases he
    | next hfirst _ _ ih =>
        subst hc
        rcases he with he | he
        · cases he
        · cases he
          exact hround (.inr rfl) hfirst (ih rfl (.inr rfl))
    | _ => rcases he with he | he <;> cases he
  exact hrounds h rfl (.inl rfl)

theorem Derives.takes_many {a : Expr ρ} {Round : List Char → Prop} (hc : c.atomicity ≠ .spaced)
    (ha : ∀ {s t}, Derives g c a s t → ∃ w, s.Takes t w [] ∧ Round w)
    (h : Derives g c (.many a) s t) :
    ∃ ws : List (List Char), s.Takes t ws.flatten [] ∧ ∀ w ∈ ws, Round w := by
  refine h.many_induct (P := fun s t => ∃ ws : List (List Char), s.Takes t ws.flatten [] ∧ ∀ w ∈ ws, Round w)
    ?_ ?_
  · intro s s' r _ _
    exact ⟨[], .idle _, by simp⟩
  · rintro s s' t u hs hfirst ⟨ws, hws, hrounds⟩
    rw [State.skip_of_ne_spaced _ _ hc, or_self] at hs
    subst hs
    obtain ⟨w, hw, hround⟩ := ha hfirst
    exact ⟨w :: ws, hw.trans hws, List.forall_mem_cons.mpr ⟨hround, hrounds⟩⟩

theorem Derives.takes_plus {a : Expr ρ} {Round : List Char → Prop} (hc : c.atomicity ≠ .spaced)
    (ha : ∀ {s t}, Derives g c a s t → ∃ w, s.Takes t w [] ∧ Round w)
    (h : Derives g c (.plus a) s t) :
    ∃ w ws, s.Takes t (w ++ List.flatten ws) [] ∧ Round w ∧ ∀ w ∈ ws, Round w := by
  obtain ⟨u, hfirst, hrest⟩ := h.seq_meets hc
  obtain ⟨w, hw, hround⟩ := ha hfirst
  obtain ⟨ws, hws, hrounds⟩ := hrest.takes_many hc ha
  exact ⟨w, ws, hw.trans hws, hround, hrounds⟩

def Expr.letters : Expr ρ → Option (List Char)
  | word [x] => some [x]
  | alt a b => a.letters.bind fun xs => b.letters.map (xs ++ ·)
  | _ => Option.none

theorem Expr.letters_alt {a b : Expr ρ} {zs : List Char} (h : (alt a b).letters = some zs) :
    ∃ xs ys, a.letters = some xs ∧ b.letters = some ys ∧ zs = xs ++ ys := by
  obtain ⟨xs, hxs, h⟩ := Option.bind_eq_some_iff.mp h
  obtain ⟨ys, hys, h⟩ := Option.map_eq_some_iff.mp h
  exact ⟨xs, ys, hxs, hys, h.symm⟩

theorem Expr.letters_word {w zs : List Char} (h : (word w : Expr ρ).letters = some zs) :
    ∃ x, w = [x] ∧ zs = [x] := by
  unfold Expr.letters at h
  split at h
  · rename_i x heq
    cases heq
    cases h
    exact ⟨x, rfl, rfl⟩
  · rename_i heq
    cases heq
  · cases h

def Expr.test? : Expr ρ → Option (Char → Bool)
  | word [x] => some (· == x)
  | char test => some test
  | alt a b => a.test?.bind fun f => b.test?.map fun f' x => f x || f' x
  | _ => Option.none

theorem Expr.test?_alt {a b : Expr ρ} {f : Char → Bool} (h : (alt a b).test? = some f) :
    ∃ f₁ f₂, a.test? = some f₁ ∧ b.test? = some f₂ ∧ f = fun x => f₁ x || f₂ x := by
  obtain ⟨f₁, hf₁, h⟩ := Option.bind_eq_some_iff.mp h
  obtain ⟨f₂, hf₂, h⟩ := Option.map_eq_some_iff.mp h
  exact ⟨f₁, f₂, hf₁, hf₂, h.symm⟩

theorem Expr.test?_word {w : List Char} {f : Char → Bool} (h : (word w : Expr ρ).test? = some f) :
    ∃ x, w = [x] ∧ f = (· == x) := by
  unfold Expr.test? at h
  split at h
  · rename_i x heq
    cases heq
    cases h
    exact ⟨x, rfl, rfl⟩
  · rename_i heq
    cases heq
  · rename_i heq
    cases heq
  · cases h

theorem Derives.takes_test {e : Expr ρ} {f : Char → Bool} (he : e.test? = .some f) (h : Derives g c e s t) :
    ∃ x, s.Takes t [x] [] ∧ f x := by
  induction e generalizing s f with
  | word w =>
      obtain ⟨x, rfl, rfl⟩ := Expr.test?_word he
      exact ⟨x, h.takes_word, beq_self_eq_true x⟩
  | char test =>
      cases he
      cases h with
      | @char _ _ _ x rest hrest hx => exact ⟨x, ⟨hrest, by simp [State.advance], rfl⟩, hx⟩
  | alt a b iha ihb =>
      obtain ⟨f₁, f₂, hf₁, hf₂, rfl⟩ := Expr.test?_alt he
      cases h with
      | first h =>
          obtain ⟨x, htakes, hx⟩ := iha hf₁ h
          exact ⟨x, htakes, by simp [hx]⟩
      | second _ h =>
          obtain ⟨x, htakes, hx⟩ := ihb hf₂ h
          exact ⟨x, ⟨htakes.rest_eq, htakes.offset_eq, htakes.pairs_eq⟩, by simp [hx]⟩
  | _ => cases he

theorem Expr.test?_of_letters {e : Expr ρ} {xs : List Char} (he : e.letters = some xs) :
    ∃ f, e.test? = some f ∧ ∀ x, f x ↔ x ∈ xs := by
  induction e generalizing xs with
  | word w =>
      obtain ⟨y, rfl, rfl⟩ := Expr.letters_word he
      exact ⟨(· == y), rfl, by simp⟩
  | alt a b iha ihb =>
      obtain ⟨ys, zs, hys, hzs, rfl⟩ := Expr.letters_alt he
      obtain ⟨f₁, hf₁, hmem₁⟩ := iha hys
      obtain ⟨f₂, hf₂, hmem₂⟩ := ihb hzs
      refine ⟨fun x => f₁ x || f₂ x, by simp [test?, hf₁, hf₂], ?_⟩
      intro x
      rw [Bool.or_eq_true, hmem₁, hmem₂, List.mem_append]
  | _ => cases he

theorem Derives.takes_letter {e : Expr ρ} {xs : List Char} (he : e.letters = .some xs)
    (h : Derives g c e s t) : ∃ x ∈ xs, s.Takes t [x] [] := by
  obtain ⟨f, hf, hmem⟩ := Expr.test?_of_letters he
  obtain ⟨x, htakes, hx⟩ := h.takes_test hf
  exact ⟨x, (hmem x).mp hx, htakes⟩

theorem Fails.alt {a b : Expr ρ} {r : Attempts ρ} (h : Fails g c (.alt a b) s r) :
    ∃ r', Fails g c a s r' ∧ Fails g c b { s with attempts := r' } r := by
  obtain ⟨n, h⟩ := h
  cases n with
  | zero => cases h
  | succ n =>
      simp only [Grammar.run] at h
      split at h
      · cases h
      · rename_i r' ha
        exact ⟨r', ⟨n, ha⟩, n, h⟩
      · cases h

theorem Fails.silent {rule : ρ} {r : Attempts ρ} (h : Fails g c (.call rule) s r)
    (hkind : g.kind rule = .silent) : Fails g c (g.body rule) s r := by
  obtain ⟨n, h⟩ := h
  cases n with
  | zero => cases h
  | succ n =>
      simp only [Grammar.run, hkind] at h
      exact ⟨n, h⟩

theorem stripWord?_append (w rest : List Char) : Text.stripWord? w (w ++ rest) = some rest := by
  induction w with
  | nil => cases rest <;> rfl
  | cons x w ih => simp [Text.stripWord?, ih]

theorem Fails.not_word {w : List Char} {r : Attempts ρ} (h : Fails g c (.word w) s r) (rest : List Char) :
    s.rest ≠ w ++ rest := by
  obtain ⟨n, h⟩ := h
  intro hrest
  cases n with
  | zero => cases h
  | succ n => simp [Grammar.run, hrest, stripWord?_append, State.advanceWord] at h

theorem Fails.not_test {e : Expr ρ} {f : Char → Bool} {x : Char} {rest : List Char} {r : Attempts ρ}
    (he : e.test? = some f) (h : Fails g c e s r) (hrest : s.rest = x :: rest) : f x = false := by
  induction e generalizing s f r with
  | word w =>
      obtain ⟨y, rfl, rfl⟩ := Expr.test?_word he
      rw [beq_eq_false_iff_ne]
      rintro rfl
      exact h.not_word rest hrest
  | char test =>
      cases he
      obtain ⟨n, h⟩ := h
      cases n with
      | zero => cases h
      | succ n =>
          simp only [Grammar.run, hrest] at h
          split at h
          · cases h
          · rename_i hx
            exact Bool.eq_false_iff.mpr hx
  | alt a b iha ihb =>
      obtain ⟨f₁, f₂, hf₁, hf₂, rfl⟩ := Expr.test?_alt he
      obtain ⟨r', ha, hb⟩ := h.alt
      rw [Bool.or_eq_false_iff]
      exact ⟨iha hf₁ ha hrest, ihb hf₂ hb hrest⟩
  | _ => cases he

/-- A choice between letters fails only at other letters. -/
theorem Fails.not_letter {e : Expr ρ} {xs rest : List Char} {x : Char} {r : Attempts ρ}
    (he : e.letters = some xs) (h : Fails g c e s r) (hrest : s.rest = x :: rest) : x ∉ xs := by
  obtain ⟨f, hf, hmem⟩ := Expr.test?_of_letters he
  rw [← hmem, h.not_test hf hrest]
  exact Bool.false_ne_true

structure Trimmed (xs w : List Char) : Prop where
  head : ∀ x ∈ w.head?, x ∉ xs
  last : ∀ x ∈ w.getLast?, x ∉ xs

theorem trimmed_nil (xs : List Char) : Trimmed xs [] := ⟨by simp, by simp⟩

section Words

variable {xs : List Char} {blank w : ρ} {stop : Expr ρ}

theorem Derives.takes_silent_letter (hblank : g.kind blank = .silent)
    (hxs : (g.body blank).letters = .some xs) (h : Derives g c (.call blank) s t) :
    ∃ v, s.Takes t v [] ∧ ∀ x ∈ v, x ∈ xs := by
  cases h with
  | silent _ h =>
      obtain ⟨x, hx, htakes⟩ := h.takes_letter hxs
      exact ⟨[x], htakes, by simpa using hx⟩
  | pair hkind | hidden hkind => exact absurd hblank hkind

theorem Derives.takes_blanks (hc : c.atomicity ≠ .spaced) (hblank : g.kind blank = .silent)
    (hxs : (g.body blank).letters = .some xs) (h : Derives g c (.many (.call blank)) s t) :
    ∃ v, s.Takes t v [] ∧ ∀ x ∈ v, x ∈ xs := by
  obtain ⟨vs, hvs, hrounds⟩ := h.takes_many hc (Derives.takes_silent_letter hblank hxs)
  refine ⟨vs.flatten, hvs, ?_⟩
  intro x hx
  obtain ⟨v, hv, hx⟩ := List.mem_flatten.mp hx
  exact hrounds v hv x hx

/-- A run of characters up to a stop that matches at some letters has none of these. -/
theorem Derives.takes_until (hc : c.atomicity ≠ .spaced)
    (hstop : ∀ {c s r x rest}, Fails g c stop s r → s.rest = x :: rest → x ∉ xs)
    (h : Derives g c (.until1 stop) s t) :
    ∃ v, s.Takes t v [] ∧ v ≠ [] ∧ ∀ x ∈ v, x ∉ xs := by
  have hround : ∀ {s t}, Derives g c (.seq (.notAhead stop) .any) s t →
      ∃ v, s.Takes t v [] ∧ v ≠ [] ∧ ∀ x ∈ v, x ∉ xs := by
    intro s t h
    obtain ⟨u, hahead, hany⟩ := h.seq_meets hc
    cases hahead with
    | notAhead hfails =>
        cases hany with
        | @char _ _ _ x rest hrest =>
            have hx := hstop hfails hrest
            exact ⟨[x], ⟨hrest, by simp [State.advance], rfl⟩, by simp, by simpa using hx⟩
  obtain ⟨v, vs, hvs, ⟨hne, hv⟩, hrounds⟩ := h.takes_plus hc hround
  refine ⟨v ++ vs.flatten, hvs, by simp [hne], ?_⟩
  intro x hx
  rcases List.mem_append.mp hx with hx | hx
  · exact hv x hx
  · obtain ⟨v', hv', hx⟩ := List.mem_flatten.mp hx
    exact (hrounds v' hv').2 x hx

/-- Words with blanks between them neither start nor end with a letter that the words do not have. -/
theorem Derives.takes_words {ys : List Char} (hc : c.atomicity ≠ .spaced) (hblank : g.kind blank = .silent)
    (hys : (g.body blank).letters = .some ys) (hw : g.kind w = .silent) (hbody : g.body w = .until1 stop)
    (hstop : ∀ {c s r x rest}, Fails g c stop s r → s.rest = x :: rest → x ∉ xs)
    (h : Derives g c (.seq (.call w) (.many (.seq (.plus (.call blank)) (.call w)))) s t) :
    ∃ v, s.Takes t v [] ∧ Trimmed xs v := by
  have hword : ∀ {s t}, Derives g c (.call w) s t →
      ∃ v, s.Takes t v [] ∧ v ≠ [] ∧ ∀ x ∈ v, x ∉ xs := by
    intro s t h
    cases h with
    | silent _ h =>
        rw [hbody] at h
        exact h.takes_until hc hstop
    | pair hkind | hidden hkind => exact absurd hw hkind
  have hround : ∀ {s t}, Derives g c (.seq (.plus (.call blank)) (.call w)) s t →
      ∃ v, s.Takes t v [] ∧ ∃ before v', v = before ++ v' ∧ v' ≠ [] ∧ ∀ x ∈ v', x ∉ xs := by
    intro s t h
    obtain ⟨u, hblanks, h⟩ := h.seq_meets hc
    obtain ⟨b, bs, hbs, _⟩ := hblanks.takes_plus hc (Derives.takes_silent_letter hblank hys)
    obtain ⟨v, hv, hne, hnone⟩ := hword h
    exact ⟨_, hbs.trans hv, _, v, rfl, hne, hnone⟩
  obtain ⟨u, hfirst, hmore⟩ := h.seq_meets hc
  obtain ⟨v, hv, hne, hnone⟩ := hword hfirst
  obtain ⟨vs, hvs, hrounds⟩ := hmore.takes_many hc hround
  have hlast : ∃ before v', v ++ vs.flatten = before ++ v' ∧ v' ≠ [] ∧ ∀ x ∈ v', x ∉ xs := by
    rcases List.eq_nil_or_concat vs with rfl | ⟨init, last, rfl⟩
    · exact ⟨[], v, by simp, hne, hnone⟩
    · obtain ⟨before, v', rfl, hne', hnone'⟩ := hrounds last (by simp)
      exact ⟨v ++ init.flatten ++ before, v', by simp, hne', hnone'⟩
  refine ⟨v ++ vs.flatten, hv.trans hvs, ?_, ?_⟩
  · intro x hx
    rw [List.head?_append, List.head?_eq_some_head hne, Option.some_or] at hx
    cases hx
    exact hnone _ (List.head_mem hne)
  · intro x hx
    obtain ⟨before, v', heq, hne', hnone'⟩ := hlast
    rw [heq, List.getLast?_append, List.getLast?_eq_some_getLast hne', Option.some_or] at hx
    cases hx
    exact hnone' _ (List.getLast_mem hne')

end Words

end LiquidTemplate.Peg
