import LiquidTemplate.Proofs.Fallback.Reading
import LiquidTemplate.Proofs.Nesting.Bound
import LiquidTemplate.Proofs.Origin.Names

namespace LiquidTemplate

open Text

namespace Nesting

variable {o : Options} {b : Nesting} {t : Token} {ts before : List Token} {stop : Nat} {e : Error}
  {cause : Misnesting} {span span' : Span}

/-- The lists of tokens that are built by themselves in building one: that list, and those in its tokens at
any depth, each with the options for it and the offset where it ends. -/
inductive Within (r : Options × Nat × List Token) : Options × Nat × List Token → Prop
  | self : Within r r
  | inside {o : Options} {stop : Nat} {ts : List Token} {t : Token} {r' : Options × Nat × List Token} :
      Within r (o, stop, ts) → t ∈ ts → r' ∈ t.regions o → Within r r'

/-- Building the list fails after the tokens `before`: at the next token, whose own lists are built, or at the
end. -/
inductive FailsAfter : Options × Nat × List Token → List Token → Error → Prop
  | step {o : Options} {stop : Nat} {before after : List Token} {t : Token} {b : Nesting} {item : Item}
      {e : Error} : feed o {} before = .ok b → complete o t = .ok item → b.step o.mode item = .error e →
      FailsAfter (o, stop, before ++ t :: after) before e
  | finish {o : Options} {stop : Nat} {ts : List Token} {b : Nesting} {e : Error} :
      feed o {} ts = .ok b → b.finish o stop = .error e → FailsAfter (o, stop, ts) ts e

theorem Within.trans {r r' r'' : Options × Nat × List Token} (h : Within r r') (h' : Within r' r'') :
    Within r r'' := by
  induction h' with
  | self => exact h
  | inside _ ht hr ih => exact .inside ih ht hr

theorem feed_error (h : feed o b ts = .error e) :
    ∃ before t after b', ts = before ++ t :: after ∧ feed o b before = .ok b' ∧
      (complete o t = .error e ∨ ∃ item, complete o t = .ok item ∧ b'.step o.mode item = .error e) := by
  induction ts generalizing b with
  | nil => cases h
  | cons t ts ih =>
      rw [feed] at h
      rcases error_of_bind h with ht | ⟨item, ht, h⟩
      · exact ⟨[], t, ts, b, rfl, rfl, .inl ht⟩
      rcases error_of_bind h with hstep | ⟨b₁, hstep, h⟩
      · exact ⟨[], t, ts, b, rfl, rfl, .inr ⟨item, ht, hstep⟩⟩
      · obtain ⟨before, t', after, b', rfl, hbefore, hfail⟩ := ih h
        exact ⟨t :: before, t', after, b', rfl, (feed_cons ht hstep).trans hbefore, hfail⟩

/-- A step that needs a list of tokens built first fails with that list, or after it. -/
theorem error_of_build {α : Type} {k : List Node → Except Error α}
    (h : (feed o {} ts >>= fun b => b.finish o stop >>= k) = .error e) :
    Node.ofTokens o stop ts = .error e ∨ ∃ nodes, k nodes = .error e := by
  rcases error_of_bind h with hfeed | ⟨b, hfeed, h⟩
  · exact .inl (by rw [Node.ofTokens, hfeed]; rfl)
  rcases error_of_bind h with hfinish | ⟨nodes, _, h⟩
  · exact .inl (by rw [Node.ofTokens, hfeed]; exact hfinish)
  · exact .inr ⟨nodes, h⟩

/-- A token that cannot be completed has a list in it that cannot be built. -/
theorem region_of_complete_error (h : complete o t = .error e) :
    ∃ r ∈ t.regions o, Node.ofTokens r.1 r.2.1 r.2.2 = .error e := by
  cases t with
  | rawElement element attributes body =>
      rw [complete] at h
      rcases error_of_build h with h | ⟨nodes, h⟩
      · exact ⟨_, List.mem_cons_self, h⟩
      rcases error_of_build h with h | ⟨nodes', h⟩
      · exact ⟨_, List.mem_cons_of_mem _ List.mem_cons_self, h⟩
      · cases h
  | voidElement | selfClosing | elementOpen | valueAttribute | statements | rawTag =>
      rw [complete] at h
      rcases error_of_build h with h | ⟨nodes, h⟩
      · exact ⟨_, List.mem_cons_self, h⟩
      · cases h
  | tag t =>
      rw [complete] at h
      split at h <;> cases h
  | _ => cases h

theorem mem_regions {r : Options × Nat × List Token} (h : r ∈ t.regions o) :
    r.2.2 ⊆ t.nested ∧ sizeOf r.2.2 < sizeOf t := by
  cases t with
  | rawElement e attributes body =>
      simp only [Token.regions, List.mem_cons, List.not_mem_nil, or_false] at h
      rcases h with rfl | rfl
      · refine ⟨List.subset_append_left _ _, ?_⟩
        simp only [Token.rawElement.sizeOf_spec]
        omega
      · refine ⟨List.subset_append_right _ _, ?_⟩
        simp only [Token.rawElement.sizeOf_spec]
        omega
  | voidElement | selfClosing | elementOpen | valueAttribute | statements | rawTag =>
      rw [List.mem_singleton.mp h]
      refine ⟨List.Subset.refl _, ?_⟩
      simp only [Token.voidElement.sizeOf_spec, Token.selfClosing.sizeOf_spec, Token.elementOpen.sizeOf_spec,
        Token.valueAttribute.sizeOf_spec, Token.statements.sizeOf_spec, Token.rawTag.sizeOf_spec]
      omega
  | _ => cases h

/-- An error in building a list of tokens is noticed in that list or in a list in one of its tokens. -/
theorem failsAfter_of_error {o : Options} {stop : Nat} {ts : List Token}
    (h : Node.ofTokens o stop ts = .error e) :
    ∃ r before, Within (o, stop, ts) r ∧ FailsAfter r before e := by
  rcases ofTokens_error h with hfeed | ⟨b, hfeed, hfinish⟩
  · obtain ⟨before, t, after, b, hts, hbefore, ht | ⟨item, ht, hstep⟩⟩ := feed_error hfeed
    · obtain ⟨⟨o', stop', ts'⟩, hregion, herror⟩ := region_of_complete_error ht
      have hmem : t ∈ ts := by simp [hts]
      have hsize := Nat.lt_trans (mem_regions hregion).2 (List.sizeOf_lt_of_mem hmem)
      obtain ⟨r, before', hwithin, hfails⟩ := failsAfter_of_error herror
      exact ⟨r, before', .trans (.inside .self hmem hregion) hwithin, hfails⟩
    · subst hts
      exact ⟨_, before, .self, .step hbefore ht hstep⟩
  · exact ⟨_, ts, .self, .finish hfeed hfinish⟩
termination_by sizeOf ts

/-- What an error about nesting tells of the constructs that are open: the one that it blames is among them,
and nothing is open where it says that something was not opened. -/
structure Tells (b : Nesting) (cause : Misnesting) : Prop where
  blamed : ∀ u, cause.unclosed? = some u → u ∈ b.openings
  unopened : ∀ container name, cause = .closeUnopened container name → b.stack = []

theorem tells_tooDeep : b.Tells .tooDeep := ⟨by simp [Misnesting.unclosed?], by simp⟩

theorem tells_branchOutside {name : String} : b.Tells (.branchOutside name) :=
  ⟨by simp [Misnesting.unclosed?], by simp⟩

theorem unclosed_mem {f : Frame} (h : f ∈ b.stack) : f.unclosed ∈ b.openings :=
  List.mem_flatMap.mpr ⟨f, h, f.unclosed_mem⟩

theorem tells_misclosed {container : Container} {name : String}
    (h : b.misclosed container name span = .misnested cause span') : b.Tells cause ∧ span' = span := by
  obtain ⟨roots, stack⟩ := b
  cases stack with
  | nil =>
      cases h
      exact ⟨⟨by simp [Misnesting.unclosed?], fun _ _ _ => rfl⟩, rfl⟩
  | cons f rest =>
      cases h
      refine ⟨⟨?_, by simp⟩, rfl⟩
      intro u hu
      cases hu
      exact unclosed_mem List.mem_cons_self

theorem openFrame_error {f : Frame} (h : b.openFrame f span = .error (.misnested cause span')) :
    cause = .tooDeep := by
  unfold openFrame at h
  split at h
  · cases h
    rfl
  · cases h

theorem openTag_error {head : TagHead} (h : b.openTag head = .error (.misnested cause span)) :
    cause = .tooDeep := by
  unfold openTag at h
  split at h
  · split at h
    · cases h
      rfl
    · exact openFrame_error h
  · exact openFrame_error h

theorem tells_openBranch {name : String} {head : TagHead}
    (h : b.openBranch name head = .error (.misnested cause span)) : b.Tells cause ∧ span = head.span := by
  unfold openBranch at h
  split at h
  · cases h
    exact ⟨tells_branchOutside, rfl⟩
  · cases h
  · rename_i f rest _ hclose
    cases h
    obtain ⟨es, _, hstack, _⟩ := Frame.closeElements_split head.span.lo [] b.stack
    refine ⟨⟨?_, by simp⟩, rfl⟩
    intro u hu
    cases hu
    apply unclosed_mem
    rw [hstack, hclose]
    simp

theorem tells_closeTag {close : TagClose} (h : b.closeTag close = .error (.misnested cause span)) :
    b.Tells cause ∧ span = close.span := by
  unfold closeTag at h
  split at h
  · split at h
    · cases h
    · exact tells_misclosed (Except.error.inj h)
  · exact tells_misclosed (Except.error.inj h)

theorem tells_closeElement {mode : Mode} {name : List Piece}
    (h : b.closeElement mode name span = .error (.misnested cause span')) : b.Tells cause ∧ span' = span := by
  unfold closeElement at h
  split at h
  · exact tells_misclosed (Except.error.inj h)
  · split at h
    · cases h
    · split at h
      · cases h
      · exact tells_misclosed (Except.error.inj h)

/-- An error at a token that blames a construct has the token's span. -/
theorem tells_step {item : Item} (ht : complete o t = .ok item)
    (h : b.step o.mode item = .error (.misnested cause span)) :
    b.Tells cause ∧ (cause.unclosed?.isSome → span = t.span) := by
  have hdeep : cause = .tooDeep → b.Tells cause ∧ (cause.unclosed?.isSome → span = t.span) := by
    rintro rfl
    exact ⟨tells_tooDeep, by simp [Misnesting.unclosed?]⟩
  by_cases hleaf : t.isLeaf
  · obtain ⟨node, rfl, _⟩ := complete_leaf hleaf ht
    cases h
  cases t with
  | elementOpen name attributes span =>
      obtain ⟨nodes, rfl⟩ := complete_elementOpen ht
      exact hdeep (openFrame_error h)
  | elementClose name span =>
      cases ht
      exact (tells_closeElement h).imp_right fun hspan _ => hspan
  | tagOpen tag =>
      cases ht
      exact hdeep (openTag_error h)
  | tagClose close =>
      cases ht
      exact (tells_closeTag h).imp_right fun hspan _ => hspan
  | tag tag =>
      have hname : TagName.isBranch tag.name := by simpa [Token.isLeaf] using hleaf
      rw [complete_branch o hname] at ht
      cases ht
      exact (tells_openBranch h).imp_right fun hspan _ => hspan
  | _ => exact absurd rfl hleaf

theorem tells_finish (h : b.finish o stop = .error (.misnested cause span)) :
    b.Tells cause ∧ span = .point stop := by
  obtain ⟨roots, stack⟩ := b
  cases stack with
  | nil => cases h
  | cons f rest =>
      simp only [finish] at h
      split at h
      · cases h
      · cases h
        refine ⟨⟨?_, by simp⟩, rfl⟩
        intro u hu
        cases hu
        exact unclosed_mem List.mem_cons_self

variable {text : List Char} {r : Options × Nat × List Token}

structure Lies (text : List Char) (r : Options × Nat × List Token) : Prop where
  stop_lt : r.2.1 < Span.limit
  tokensIn : ∃ lo, TokensIn text lo r.2.1 r.2.2
  made : ∀ t ∈ r.2.2, t.All (Token.Made text)

theorem tokensIn_regions (ht : t.Placed text) (h : r ∈ t.regions o) :
    r.2.1 < Span.limit ∧ ∃ lo, TokensIn text lo r.2.1 r.2.2 := by
  cases t with
  | rawElement e attributes body =>
      rw [Token.Placed] at ht
      obtain ⟨_, _, hattributes, _, hbody⟩ := ht
      simp only [Token.regions, List.mem_cons, List.not_mem_nil, or_false] at h
      rcases h with rfl | rfl
      · exact ⟨Span.hi_lt _, _, hattributes⟩
      · exact ⟨Span.hi_lt _, _, hbody⟩
  | voidElement | selfClosing | elementOpen | statements =>
      rw [Token.Placed] at ht
      rw [List.mem_singleton.mp h]
      exact ⟨Span.hi_lt _, _, ht.2⟩
  | valueAttribute | rawTag =>
      rw [Token.Placed] at ht
      rw [List.mem_singleton.mp h]
      exact ⟨Span.hi_lt _, _, ht.2.2⟩
  | _ => cases h

theorem Within.lies {r' : Options × Nat × List Token} (h : Within r r') (hr : Lies text r) : Lies text r' := by
  induction h with
  | self => exact hr
  | @inside o stop ts t r' _ ht hregion ih =>
      obtain ⟨lo, hin⟩ := ih.tokensIn
      obtain ⟨hstop, hregion'⟩ := tokensIn_regions ((tokensIn_iff.mp hin).2 t ht) hregion
      refine ⟨hstop, hregion', ?_⟩
      intro u hu
      cases ih.made t ht with
      | mk _ hnested => exact hnested u ((mem_regions hregion).1 hu)

theorem hi_le_of_tokensIn {lo hi : Nat} (h : TokensIn text lo hi ts) (ht : t ∈ ts) : t.span.hi ≤ hi := by
  induction ts generalizing lo with
  | nil => cases ht
  | cons first ts ih =>
      rw [TokensIn] at h
      obtain ⟨hspan, _, _, hrest⟩ := h
      rcases List.mem_cons.mp ht with rfl | ht
      · exact hspan.hi_le
      · exact ih hrest ht

theorem lo_le_of_tokensIn {lo hi : Nat} {after : List Token} (h : TokensIn text lo hi (before ++ t :: after)) :
    lo ≤ t.span.lo := by
  induction before generalizing lo with
  | nil =>
      rw [List.nil_append, TokensIn] at h
      exact h.1.le_lo
  | cons first before ih =>
      rw [List.cons_append, TokensIn] at h
      obtain ⟨hspan, _, _, hrest⟩ := h
      exact Nat.le_trans hspan.le_lo (Nat.le_trans hspan.lo_le_hi (ih hrest))

theorem hi_le_lo_of_tokensIn {lo hi : Nat} {after : List Token} {t' : Token}
    (h : TokensIn text lo hi (before ++ t' :: after)) (ht : t ∈ before) : t.span.hi ≤ t'.span.lo := by
  induction before generalizing lo with
  | nil => cases ht
  | cons first before ih =>
      rw [List.cons_append, TokensIn] at h
      obtain ⟨_, _, _, hrest⟩ := h
      rcases List.mem_cons.mp ht with rfl | ht
      · exact lo_le_of_tokensIn hrest
      · exact ih hrest ht

/-- The construct was opened by one of the tokens, which ends at or before the offset, and no token after that
one closes it. -/
def Blamed (before : List Token) (offset : Nat) (u : Unclosed) : Prop :=
  ∃ pre t post, before = pre ++ t :: post ∧ t.opening? = some u ∧ u.opening = t.span ∧ t.span.hi ≤ offset ∧
    ∀ xs, xs <+: post → u ∈ Token.openings (pre ++ t :: xs)

theorem blamed_of_mem {offset : Nat} {u : Unclosed} (h : feed o {} before = .ok b) (hu : u ∈ b.openings)
    (hbefore : ∀ t ∈ before, t.span.hi ≤ offset ∧ t.All (Token.Made text)) :
    u.name ≠ "" ∧ Blamed before offset u := by
  rw [openings_feed h] at hu
  obtain ⟨pre, t, post, rfl, ht, hopen⟩ := Token.opened_of_mem hu
  obtain ⟨hoffset, hall⟩ := hbefore t (by simp)
  cases hall with
  | mk hmade _ =>
      exact ⟨hmade.opening_named ht, pre, t, post, rfl, ht, Token.span_opening? ht, hoffset, hopen⟩

/-- A failure in a text blames what is open in the list of tokens where it is noticed. -/
theorem FailsAfter.tells (hr : Lies text r) (h : FailsAfter r before (.misnested cause span)) :
    (∀ u, cause.unclosed? = some u → u.name ≠ "" ∧ Blamed before span.lo u) ∧
      ∀ container name, cause = .closeUnopened container name →
        ∀ b, feed r.1 {} before = .ok b → b.stack = [] := by
  obtain ⟨hstop, ⟨lo, hin⟩, hmade⟩ := hr
  cases h with
  | @step o stop _ after t b item _ hfeed ht hstep =>
      obtain ⟨htells, hspan⟩ := tells_step ht hstep
      constructor
      · intro u hu
        refine blamed_of_mem hfeed (htells.blamed u hu) fun s hs => ⟨?_, hmade s (by simp [hs])⟩
        rw [hspan (by simp [hu])]
        exact hi_le_lo_of_tokensIn hin hs
      · intro container name hcause b' hb'
        cases hfeed.symm.trans hb'
        exact htells.unopened container name hcause
  | @finish o stop _ b _ hfeed hfinish =>
      obtain ⟨htells, rfl⟩ := tells_finish hfinish
      constructor
      · intro u hu
        refine blamed_of_mem hfeed (htells.blamed u hu) fun s hs => ⟨?_, hmade s hs⟩
        rw [Span.point, Span.lo_between _ hstop]
        exact hi_le_of_tokensIn hin hs
      · intro container name hcause b' hb'
        cases hfeed.symm.trans hb'
        exact htells.unopened container name hcause

end Nesting

open Nesting

/-- The texts of a template that cannot be read are reported as such, and not as nested wrongly. -/
theorem Token.read_ne_misnested {region : Region} {entry : Entry} {text : List Char} {cause : Misnesting}
    {span : Span} : Token.read region entry text ≠ .error (.misnested cause span) := by
  intro h
  obtain ⟨_, h | ⟨_, h⟩⟩ := syntactic_read region entry text _ h
  · cases h
  · cases h

/-- An error about nesting is noticed in a list of tokens that is built by itself, at one of its tokens or at
its end.  A construct that it blames was opened by an earlier token of the list, is named as that token says,
and is open from there on.  Something is said to be closed before it was opened only if nothing is open. -/
theorem Document.blames_parse {o : Options} {entry : Entry} {source : String} {cause : Misnesting} {span : Span}
    (hsource : byteLength source.toList < Span.limit)
    (h : Document.parse o entry source = .error (.misnested cause span)) :
    ∃ ts r before, Token.read ⟨0, o.mode⟩ entry source.toList = .ok ts ∧
      Within (o, byteLength source.toList, ts) r ∧ FailsAfter r before (.misnested cause span) ∧
      (∀ u, cause.unclosed? = some u → u.name ≠ "" ∧ Blamed before span.lo u) ∧
      ∀ container name, cause = .closeUnopened container name →
        ∀ b, feed r.1 {} before = .ok b → b.stack = [] := by
  rw [parse] at h
  rcases error_of_bind h with hread | ⟨ts, hread, h⟩
  · exact absurd hread Token.read_ne_misnested
  rcases error_of_bind h with hnodes | ⟨_, _, h⟩
  · obtain ⟨r, before, hwithin, hfails⟩ := failsAfter_of_error hnodes
    have hlies : Lies source.toList (o, byteLength source.toList, ts) :=
      ⟨hsource, ⟨0, Token.tokensIn_read hsource hread⟩, Token.all_made hsource hread⟩
    exact ⟨ts, r, before, hread, hwithin, hfails, hfails.tells (hwithin.lies hlies)⟩
  · cases h

def openAmongAttributes : String := "<p \x7b% for a in b %\x7d>"

theorem Document.blames_openAmongAttributes :
    byteLength openAmongAttributes.toList < Span.limit ∧
    parse {} .liquidHtml openAmongAttributes =
      .error (.misnested (.endBefore ⟨.tag, "for", .between 3 19⟩) (.point 20)) ∧
    (∃ r before, FailsAfter r before (.misnested (.endBefore ⟨.tag, "for", .between 3 19⟩) (.point 20)) ∧
      Blamed before (Span.point 20).lo ⟨.tag, "for", .between 3 19⟩) ∧
    byteLength "</c>".toList < Span.limit ∧
    parse {} .liquidHtml "</c>" = .error (.misnested (.closeUnopened .element "c") (.between 0 4)) ∧
    ∃ r before, FailsAfter r before (.misnested (.closeUnopened .element "c") (.between 0 4)) ∧
      ∀ b, feed r.1 {} before = .ok b → b.stack = [] := by
  have hsource : byteLength openAmongAttributes.toList < Span.limit := by decide +kernel
  have hclosing : byteLength "</c>".toList < Span.limit := by decide +kernel
  have herror : ∀ {source : String} {e : Error},
      (match parse {} .liquidHtml source with | .error e' => e' == e | .ok _ => false) = true →
      parse {} .liquidHtml source = .error e := by
    intro source e h
    split at h
    · rename_i heq
      rw [heq, beq_iff_eq.mp h]
    · cases h
  have hparse : parse {} .liquidHtml openAmongAttributes =
      .error (.misnested (.endBefore ⟨.tag, "for", .between 3 19⟩) (.point 20)) := herror (by decide +kernel)
  have hparse' : parse {} .liquidHtml "</c>" =
      .error (.misnested (.closeUnopened .element "c") (.between 0 4)) := herror (by decide +kernel)
  obtain ⟨_, r, before, _, _, hfails, hblamed, _⟩ := blames_parse hsource hparse
  obtain ⟨_, r', before', _, _, hfails', _, hunopened⟩ := blames_parse hclosing hparse'
  exact ⟨hsource, hparse, ⟨r, before, hfails, (hblamed _ rfl).2⟩, hclosing, hparse', r', before', hfails',
    hunopened _ _ rfl⟩

end LiquidTemplate
