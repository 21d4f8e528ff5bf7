import LiquidTemplate.Token

namespace LiquidTemplate

namespace Text

def Boundary (text : List Char) (n : Nat) : Prop :=
  ∃ before after, text = before ++ after ∧ byteLength before = n

def Sits (text : List Char) (n : Nat) (part : List Char) : Prop :=
  ∃ before after, text = before ++ (part ++ after) ∧ byteLength before = n

theorem Boundary.le {text : List Char} {n : Nat} (h : Boundary text n) : n ≤ byteLength text := by
  obtain ⟨before, after, rfl, rfl⟩ := h
  rw [byteLength_append]
  omega

theorem Sits.self (text : List Char) : Sits text 0 text := ⟨[], [], by simp, rfl⟩

theorem Sits.trans {text part sub : List Char} {m n : Nat} (h : Sits text m part)
    (hsub : Sits part n sub) : Sits text (m + n) sub := by
  obtain ⟨before, after, rfl, rfl⟩ := h
  obtain ⟨before', after', rfl, rfl⟩ := hsub
  exact ⟨before ++ before', after' ++ after, by simp [List.append_assoc], byteLength_append _ _⟩

theorem Sits.boundary {text part : List Char} {n : Nat} (h : Sits text n part) :
    Boundary text n := by
  obtain ⟨before, after, rfl, rfl⟩ := h
  exact ⟨before, part ++ after, rfl, rfl⟩

theorem Sits.boundary_end {text part : List Char} {n : Nat} (h : Sits text n part) :
    Boundary text (n + byteLength part) := by
  obtain ⟨before, after, rfl, rfl⟩ := h
  exact ⟨before ++ part, after, by rw [List.append_assoc], byteLength_append _ _⟩

theorem Boundary.sits_nil {text : List Char} {n : Nat} (h : Boundary text n) : Sits text n [] := by
  obtain ⟨before, after, rfl, rfl⟩ := h
  exact ⟨before, after, rfl, rfl⟩

end Text

namespace Span

open Text

theorem lo_lt (s : Span) : s.lo < limit := Int64.toNatClampNeg_lt s.start

theorem hi_lt (s : Span) : s.hi < limit := Int64.toNatClampNeg_lt s.stop

/-- The span lies between two offsets of the text and cuts no character. It may be empty. -/
structure Inside (text : List Char) (lo hi : Nat) (s : Span) : Prop where
  start_nonneg : 0 ≤ s.start
  stop_nonneg : 0 ≤ s.stop
  le_lo : lo ≤ s.lo
  lo_le_hi : s.lo ≤ s.hi
  hi_le : s.hi ≤ hi
  boundary_lo : Boundary text s.lo
  boundary_hi : Boundary text s.hi

def Holds (text : List Char) (s : Span) (word : List Char) : Prop :=
  Sits text s.lo word ∧ s.lo + byteLength word = s.hi

/-- Spans in order between two offsets of the text: none is empty, and none reaches into the
next. -/
def Row (text : List Char) : Nat → Nat → List Span → Prop
  | lo, hi, [] => lo ≤ hi
  | lo, hi, s :: ss => s.Inside text lo hi ∧ s.lo < s.hi ∧ Row text s.hi hi ss

namespace Inside

variable {text : List Char} {lo hi : Nat} {s : Span}

theorem weaken (h : s.Inside text lo hi) {lo' hi' : Nat} (hlo : lo' ≤ s.lo) (hhi : s.hi ≤ hi') :
    s.Inside text lo' hi' :=
  { h with le_lo := hlo, hi_le := hhi }

theorem isUnset (h : s.Inside text lo hi) : s.isUnset = false := by
  rw [Span.isUnset, beq_eq_false_iff_ne]
  rintro rfl
  exact absurd h.start_nonneg (by decide)

end Inside

theorem Holds.slice_eq {source : String} {s : Span} {word : List Char}
    (h : s.Holds source.toList word) : s.slice source = String.ofList word := by
  obtain ⟨⟨before, after, hsource, hlo⟩, hhi⟩ := h
  rw [slice, hsource, ← hhi, ← hlo, slice?_append]
  rfl

section Between

variable {text : List Char} {a b : Nat}

theorem nonneg_ofNat {n : Nat} (h : n < limit) : 0 ≤ Int64.ofNat n := by
  rw [Int64.le_iff_toInt_le, Int64.toInt_ofNat_of_lt h]
  exact Int.natCast_nonneg n

theorem inside_between (htext : byteLength text < limit) (hab : a ≤ b) (ha : Boundary text a)
    (hb : Boundary text b) : (between a b).Inside text a b := by
  have hb' : b < limit := Nat.lt_of_le_of_lt hb.le htext
  have ha' : a < limit := Nat.lt_of_le_of_lt hab hb'
  have hlo := lo_between b ha'
  have hhi := hi_between a hb'
  exact {
    start_nonneg := nonneg_ofNat ha'
    stop_nonneg := nonneg_ofNat hb'
    le_lo := Nat.le_of_eq hlo.symm
    lo_le_hi := by rw [hlo, hhi]; exact hab
    hi_le := Nat.le_of_eq hhi
    boundary_lo := by rw [hlo]; exact ha
    boundary_hi := by rw [hhi]; exact hb }

theorem lo_between_of_boundary (htext : byteLength text < limit) (ha : Boundary text a) :
    (between a b).lo = a :=
  lo_between b (Nat.lt_of_le_of_lt ha.le htext)

theorem hi_between_of_boundary (htext : byteLength text < limit) (hb : Boundary text b) :
    (between a b).hi = b :=
  hi_between a (Nat.lt_of_le_of_lt hb.le htext)

theorem between_spec (htext : byteLength text < limit) (hab : a ≤ b) (ha : Boundary text a)
    (hb : Boundary text b) :
    (between a b).Inside text a b ∧ (between a b).lo = a ∧ (between a b).hi = b :=
  ⟨inside_between htext hab ha hb, lo_between_of_boundary htext ha, hi_between_of_boundary htext hb⟩

theorem lo_point (htext : byteLength text < limit) (ha : Boundary text a) : (point a).lo = a :=
  lo_between_of_boundary htext ha

theorem hi_point (htext : byteLength text < limit) (ha : Boundary text a) : (point a).hi = a :=
  hi_between_of_boundary htext ha

theorem inside_point (htext : byteLength text < limit) (ha : Boundary text a) :
    (point a).Inside text a a :=
  inside_between htext (Nat.le_refl a) ha ha

end Between

namespace Row

variable {text : List Char} {lo mid hi : Nat} {ss : List Span}

theorem le (h : Row text lo hi ss) : lo ≤ hi := by
  induction ss generalizing lo with
  | nil => exact h
  | cons s ss ih =>
      obtain ⟨hs, _, hrest⟩ := h
      exact Nat.le_trans hs.le_lo (Nat.le_trans hs.lo_le_hi (ih hrest))

theorem weaken (h : Row text lo hi ss) {lo' hi' : Nat} (hlo : lo' ≤ lo) (hhi : hi ≤ hi') :
    Row text lo' hi' ss := by
  induction ss generalizing lo lo' with
  | nil => exact Nat.le_trans hlo (Nat.le_trans h hhi)
  | cons s ss ih =>
      obtain ⟨hs, hlt, hrest⟩ := h
      exact ⟨hs.weaken (Nat.le_trans hlo hs.le_lo) (Nat.le_trans hs.hi_le hhi), hlt,
        ih hrest (Nat.le_refl _)⟩

theorem singleton {s : Span} (h : s.Inside text lo hi) (hlt : s.lo < s.hi) :
    Row text lo hi [s] :=
  ⟨h, hlt, h.hi_le⟩

theorem inside (h : Row text lo hi ss) : ∀ s ∈ ss, s.Inside text lo hi := by
  induction ss generalizing lo with
  | nil => simp
  | cons s ss ih =>
      obtain ⟨hs, _, hrest⟩ := h
      refine List.forall_mem_cons.mpr ⟨hs, ?_⟩
      intro t ht
      have hinside := ih hrest t ht
      exact hinside.weaken (Nat.le_trans (Nat.le_trans hs.le_lo hs.lo_le_hi) hinside.le_lo) hinside.hi_le

theorem apart (h : Row text lo hi ss) : ss.Pairwise fun s t => s.hi ≤ t.lo := by
  induction ss generalizing lo with
  | nil => exact .nil
  | cons s ss ih =>
      obtain ⟨_, _, hrest⟩ := h
      exact .cons (fun t ht => (hrest.inside t ht).le_lo) (ih hrest)

end Row

end Span

structure Block.Placed (text : List Char) (b : Block) : Prop where
  span : b.span.Inside text 0 (Text.byteLength text)
  opening : b.opening.Inside text b.span.lo b.span.hi
  closing : b.closing.Inside text b.opening.hi b.span.hi
  lo_eq : b.opening.lo = b.span.lo
  hi_eq : b.closing.hi = b.span.hi

theorem Block.placed_between {text : List Char} (htext : Text.byteLength text < Span.limit)
    {opening closing : Span} (hopening : opening.Inside text 0 (Text.byteLength text))
    (hclosing : closing.Inside text opening.hi (Text.byteLength text)) :
    Block.Placed text ⟨.between opening.lo closing.hi, opening, closing⟩ := by
  have hle : opening.lo ≤ closing.hi :=
    Nat.le_trans hopening.lo_le_hi (Nat.le_trans hclosing.le_lo hclosing.lo_le_hi)
  have hspan := Span.inside_between htext hle hopening.boundary_lo hclosing.boundary_hi
  have hlo : (Span.between opening.lo closing.hi).lo = opening.lo :=
    Span.lo_between_of_boundary htext hopening.boundary_lo
  have hhi : (Span.between opening.lo closing.hi).hi = closing.hi :=
    Span.hi_between_of_boundary htext hclosing.boundary_hi
  refine ⟨hspan.weaken (Nat.zero_le _) hspan.boundary_hi.le, ?_, ?_, hlo.symm, hhi.symm⟩
  · exact hopening.weaken (Nat.le_of_eq hlo)
      (by rw [hhi]; exact Nat.le_trans hclosing.le_lo hclosing.lo_le_hi)
  · exact hclosing.weaken hclosing.le_lo (Nat.le_of_eq hhi.symm)

end LiquidTemplate
