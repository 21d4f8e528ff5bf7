import LiquidTemplate.Proofs.Geometry.Markup
import LiquidTemplate.Proofs.Token.Reader

namespace LiquidTemplate

open Text
open Peg (Pair Grown)

namespace Token

variable {text : List Char} {region : Region} {p : Pair Rule}

structure From (text : List Char) (offset : Nat) (p : Pair Rule) (t : Token) : Prop where
  span_eq : t.span = p.span offset
  solid : p.rule.solid
  placed : t.Placed text

def ReadsIn (text : List Char) (read : ReadText) : Prop :=
  ∀ (region : Region) (entry : Entry) (part : List Char) (ts : List Token),
    Sits text region.offset part → read region entry part = .ok ts →
      TokensIn text region.offset (region.offset + byteLength part) ts

theorem tokensIn_mapM (htext : byteLength text < Span.limit) {offset lo hi : Nat}
    {ps : List (Pair Rule)} {f : Pair Rule → Except Error Token} {ts : List Token}
    (hps : ∀ p ∈ ps, Seated text offset p) (hrow : Peg.Row lo hi ps)
    (hf : ∀ p ∈ ps, ∀ t, f p = .ok t → From text offset p t) (h : ps.mapM f = .ok ts) :
    TokensIn text (offset + lo) (offset + hi) ts := by
  have hspans := map_mapM_ok (fun p hp t ht => (hf p hp t ht).span_eq) h
  have hsolid : ∀ p ∈ ps, p.rule.solid := by
    intro p hp
    obtain ⟨t, ht⟩ := ok_of_mem_mapM h hp
    exact (hf p hp t ht).solid
  refine tokensIn_iff.mpr ⟨?_, ?_⟩
  · rw [hspans]
    exact Seated.row_spans htext hps hrow hsolid
  · intro t ht
    obtain ⟨p, hp, ht⟩ := mem_mapM_ok h ht
    exact (hf p hp t ht).placed

theorem tokensIn_children (htext : byteLength text < Span.limit) {offset : Nat}
    {ps : List (Pair Rule)} {f : Pair Rule → Except Error Token} {ts : List Token}
    (hp : Seated text offset p) (hps : ps.Sublist p.children)
    (hf : ∀ {q t}, Seated text offset q → f q = .ok t → From text offset q t)
    (h : ps.mapM f = .ok ts) : TokensIn text (p.span offset).lo (p.span offset).hi ts := by
  have hseated : ∀ q ∈ ps, Seated text offset q := fun q hq => hp.child (hps.subset hq)
  rw [hp.lo_span htext, hp.hi_span htext]
  exact tokensIn_mapM htext hseated (hp.row.sublist hps) (fun q hq t ht => hf (hseated q hq) ht) h

theorem solid_of_mem {rules : List Rule} (hrules : ∀ r ∈ rules, r.solid) (h : p.rule ∈ rules) : p.rule.solid :=
  hrules _ h

theorem span_outputOfPair {o : Output} (hp : Grown grammar text p) (hrule : p.rule = .liquidDrop)
    (h : outputOfPair region p = .ok o) : o.span = p.span region.offset := by
  obtain ⟨m, rfl, _⟩ := outputOfPair_ok hp hrule h
  rfl

theorem pieceOfPair_ok {piece : Piece} (hp : Grown grammar text p) (h : pieceOfPair region p = .ok piece) :
    piece.span = p.span region.offset ∧ p.rule.solid := by
  rcases pieceOfPair_cases h with ⟨hrule, o, ho, rfl⟩ | ⟨hrule | hrule, rfl⟩
  · exact ⟨span_outputOfPair hp hrule ho, by rw [hrule]; rfl⟩
  · exact ⟨rfl, by rw [hrule]; rfl⟩
  · exact ⟨rfl, by rw [hrule]; rfl⟩

theorem row_pieces (htext : byteLength text < Span.limit) {name : List Piece}
    (hp : Seated text region.offset p) (h : nameOfPair region p = .ok name) :
    Span.Row text (p.span region.offset).lo (p.span region.offset).hi (name.map Piece.span) := by
  obtain ⟨_, _, hgrown⟩ := id hp
  have hspans := map_mapM_ok (fun r hmem piece hr => (pieceOfPair_ok (hgrown.children r hmem) hr).1) h
  have hsolid : ∀ r ∈ p.children, r.rule.solid := by
    intro r hr
    obtain ⟨piece, hpiece⟩ := ok_of_mem_mapM h hr
    exact (pieceOfPair_ok (hgrown.children r hr) hpiece).2
  rw [hspans, hp.lo_span htext, hp.hi_span htext]
  exact Seated.row_spans htext (fun r hr => hp.child hr) hp.row hsolid

theorem row_nameOfPair (htext : byteLength text < Span.limit) {q : Pair Rule} {name : List Piece}
    (hp : Seated text region.offset p) (hq : q ∈ p.children) (h : nameOfPair region q = .ok name) :
    Span.Row text (p.span region.offset).lo (p.span region.offset).hi (name.map Piece.span) := by
  have hinside := hp.inside_child htext hq
  exact (row_pieces htext (hp.child hq) h).weaken hinside.le_lo hinside.hi_le

theorem sits_trim (body : List Char) :
    Sits body (byteLength body - byteLength (trimStart body)) (trim body) := by
  obtain ⟨before, hbefore⟩ : ∃ before, body = before ++ trimStart body :=
    ⟨body.takeWhile isBlank, List.takeWhile_append_dropWhile.symm⟩
  obtain ⟨after, hafter⟩ : ∃ after, trimStart body = trim body ++ after := by
    refine ⟨((trimStart body).reverse.takeWhile isBlank).reverse, ?_⟩
    rw [trim, trimEnd, ← List.reverse_append, List.takeWhile_append_dropWhile, List.reverse_reverse]
  refine ⟨before, after, hbefore.trans (by rw [← hafter]), ?_⟩
  have hlength := congrArg byteLength hbefore
  rw [byteLength_append] at hlength
  omega

theorem tokensIn_verbatim (htext : byteLength text < Span.limit) {body : List Char} {start : Nat}
    (hbody : Sits text start body) :
    TokensIn text start (start + byteLength body) (verbatim body start) := by
  unfold verbatim
  split
  · exact tokensIn_iff.mpr ⟨Nat.le_add_right _ _, by simp⟩
  · rename_i hne
    obtain ⟨before, after, hbefore, hlength⟩ := sits_trim body
    have htrim := hbody.trans ⟨before, after, hbefore, hlength⟩
    obtain ⟨hspan, hlo, hhi⟩ :=
      Span.between_spec htext (Nat.le_add_right _ _) htrim.boundary htrim.boundary_end
    have hpos := Peg.byteLength_pos hne
    have hend := congrArg byteLength hbefore
    rw [byteLength_append, byteLength_append] at hend
    refine tokensIn_iff.mpr ⟨Span.Row.singleton (hspan.weaken ?_ ?_) ?_, ?_⟩
    · omega
    · omega
    · change (Span.between _ _).lo < (Span.between _ _).hi
      omega
    · simp [Token.Placed]

theorem placed_blockAround (htext : byteLength text < Span.limit) {span body : Span} {lo hi : Nat}
    (hspan : span.Inside text lo hi) (hbody : body.Inside text span.lo span.hi) :
    (blockAround span body).Placed text := by
  obtain ⟨hopening, hlo, hmid⟩ :=
    Span.between_spec htext hbody.le_lo hspan.boundary_lo hbody.boundary_lo
  obtain ⟨hclosing, hmid', hhi⟩ :=
    Span.between_spec htext hbody.hi_le hbody.boundary_hi hspan.boundary_hi
  have hle := Nat.le_trans hbody.lo_le_hi hbody.hi_le
  have hle' := hbody.lo_le_hi
  refine ⟨hspan.weaken (Nat.zero_le _) hspan.boundary_hi.le, hopening.weaken ?_ ?_,
    hclosing.weaken ?_ ?_, hlo, hhi⟩
  · exact Nat.le_of_eq hlo.symm
  · rw [hmid]
    exact hle
  · change (Span.between span.lo body.lo).hi ≤ _
    omega
  · exact Nat.le_of_eq hhi

theorem inside_blockAround (htext : byteLength text < Span.limit) {span body : Span}
    (hbody : body.Inside text span.lo span.hi) :
    body.Inside text (blockAround span body).opening.hi (blockAround span body).closing.lo :=
  hbody.weaken
    (Nat.le_of_eq (Span.hi_between_of_boundary htext hbody.boundary_lo))
    (Nat.le_of_eq (Span.lo_between_of_boundary htext hbody.boundary_hi).symm)

theorem placed_rawTag (htext : byteLength text < Span.limit) {offset : Nat} {opening body closing : Pair Rule}
    {rest : List (Pair Rule)} (hp : Seated text offset p) (hrule : p.rule = .liquidRawTag)
    (hchildren : p.children = opening :: body :: closing :: rest) :
    Block.Placed text ⟨p.span offset, opening.span offset, closing.span offset⟩ ∧
      (body.span offset).Inside text (opening.span offset).hi (closing.span offset).lo := by
  have ⟨_, _, hgrown⟩ := hp
  obtain ⟨_, _, _, hchildren', ⟨_, hstart⟩, _, _, hstop⟩ := rawTag_children hgrown hrule
  cases hchildren.symm.trans hchildren'
  have hopening : opening ∈ p.children := by simp [hchildren]
  have hbody : body ∈ p.children := by simp [hchildren]
  have hclosing : closing ∈ p.children := by simp [hchildren]
  have hrow := hp.row
  rw [hchildren] at hrow
  obtain ⟨_, _, hbefore, _, hafter, _⟩ := hrow
  have hplo := hp.lo_span htext
  have hphi := hp.hi_span htext
  have holo := (hp.child hopening).lo_span htext
  have hohi := (hp.child hopening).hi_span htext
  have hblo := (hp.child hbody).lo_span htext
  have hbhi := (hp.child hbody).hi_span htext
  have hclo := (hp.child hclosing).lo_span htext
  have hchi := (hp.child hclosing).hi_span htext
  have hspan := hp.inside_span htext
  refine ⟨⟨?_, ?_, ?_, ?_, ?_⟩, ?_⟩
  · exact hspan.weaken (Nat.zero_le _) hspan.boundary_hi.le
  · exact hp.inside_child htext hopening
  · exact (hp.inside_child htext hclosing).weaken (by simp only; omega) (by simp only; omega)
  · simp only
    omega
  · simp only
    omega
  · exact (hp.inside_child htext hbody).weaken (by omega) (by omega)

section Readers

/-- The markup of a tag stands in the tag, where its span says. -/
theorem MarkupAt.holds (htext : byteLength text < Span.limit) {name : Pair Rule} {markup : List Char} {s : Span}
    (hp : Seated text region.offset p) (hname : name ∈ p.children) (h : MarkupAt region.offset p name markup s) :
    s.Inside text (p.span region.offset).lo (p.span region.offset).hi ∧ s.Holds text markup := by
  cases h with
  | found hm =>
      have hmem := List.mem_of_find?_eq_some hm
      exact ⟨hp.inside_child htext hmem, (hp.child hmem).fills_span htext⟩
  | missing =>
      have hinside := hp.inside_child htext hname
      have hlo := Span.lo_point htext hinside.boundary_hi
      have hhi := Span.hi_point htext hinside.boundary_hi
      have hpoint := Span.inside_point htext hinside.boundary_hi
      refine ⟨hpoint.weaken ?_ ?_, ⟨?_, ?_⟩⟩
      · rw [hlo]
        exact Nat.le_trans hinside.le_lo hinside.lo_le_hi
      · rw [hhi]
        exact hinside.hi_le
      · rw [hlo]
        exact hinside.boundary_hi.sits_nil
      · rw [hlo, hhi]
        rfl

variable {read : ReadText} (htext : byteLength text < Span.limit) (hread : ReadsIn text read)

include htext hread

/-- A tag keeps its span; its markup, or the statements in it, lie where the markup does. -/
theorem TagRead.placed {build : Tag → Token} {name : String} {markup : List Char}
    {markupSpan span : Span} {trim : Trim} {t : Token}
    (hbuild : ∀ tag : Tag, (build tag).span = tag.span ∧
      (tag.markup.Placed text → (build tag).Placed text))
    (hspan : markupSpan.Inside text span.lo span.hi) (hholds : markupSpan.Holds text markup)
    (h : TagRead read region build name markup markupSpan trim span t) :
    t.span = span ∧ t.Placed text := by
  cases h with
  | unknown | unread => exact ⟨(hbuild _).1, (hbuild _).2 trivial⟩
  | known _ _ hm => exact ⟨(hbuild _).1, (hbuild _).2 (Markup.placed_read htext hholds.1 hm)⟩
  | statements _ hbody =>
      have htokens := hread ⟨markupSpan.lo, region.mode⟩ _ _ _ hholds.1 hbody
      simp only [hholds.2] at htokens
      refine ⟨rfl, ?_⟩
      rw [Token.Placed]
      exact ⟨hspan, htokens⟩

theorem from_tagOfPair {build : Tag → Token} {t : Token}
    (hbuild : ∀ tag : Tag, (build tag).span = tag.span ∧
      (tag.markup.Placed text → (build tag).Placed text))
    (hp : Seated text region.offset p) (hrule : p.rule ∈ Rule.markedRules)
    (h : tagOfPair read region build p = .ok t) : From text region.offset p t := by
  obtain ⟨_, _, hgrown⟩ := id hp
  obtain ⟨name, markup, markupSpan, hname, hmarkup, htag⟩ := tagOfPair_parts hgrown hrule h
  obtain ⟨hinside, hholds⟩ := hmarkup.holds htext hp (List.mem_of_find?_eq_some hname)
  obtain ⟨hspan, hplaced⟩ := htag.placed htext hread hbuild hinside hholds
  exact ⟨hspan, solid_of_mem (by decide) hrule, hplaced⟩

theorem tokensIn_rawTagBody {name : String} {body : List Char} {start : Nat} {ts : List Token}
    (hsits : Sits text start body) (h : rawTagBody read region name body start = .ok ts) :
    TokensIn text start (start + byteLength body) ts := by
  rcases rawTagBody_ok h with ⟨_, h⟩ | ⟨_, h⟩ | ⟨_, rfl⟩
  · exact hread ⟨start, region.mode⟩ _ _ _ hsits h
  · exact hread ⟨start, .tolerant⟩ _ _ _ hsits h
  · exact tokensIn_verbatim htext hsits

theorem from_liquidOfPair {t : Token} (hp : Seated text region.offset p)
    (h : liquidOfPair read region p = .ok t) : From text region.offset p t := by
  have hbuild : ∀ {build : Tag → Token}, build = .tagOpen ∨ build = .tag →
      ∀ tag : Tag, (build tag).span = tag.span ∧ (tag.markup.Placed text → (build tag).Placed text) := by
    rintro _ (rfl | rfl) tag <;> exact ⟨rfl, fun hmarkup => by rwa [Token.Placed]⟩
  obtain ⟨_, _, hgrown⟩ := id hp
  cases LiquidRead.of_pair hgrown h with
  | output hrule ho => exact ⟨span_outputOfPair hgrown hrule ho, hrule ▸ rfl, by simp [Token.Placed]⟩
  | tagOpen hrule h =>
      exact from_tagOfPair htext hread (hbuild (.inl rfl)) hp (Rule.mem_markedRules_of_open hrule) h
  | tag hrule h => exact from_tagOfPair htext hread (hbuild (.inr rfl)) hp (Rule.mem_markedRules_of_tag hrule) h
  | tagClose hrule _ => exact ⟨rfl, hrule.elim (· ▸ rfl) (· ▸ rfl), by simp [Token.Placed]⟩
  | @rawTag _ body _ _ _ _ _ hrule hchildren _ _ hts =>
      obtain ⟨hsits, hend⟩ := (hp.child (q := body) (by simp [hchildren])).fills_span htext
      obtain ⟨hblock, hbody⟩ := placed_rawTag htext hp hrule hchildren
      refine ⟨rfl, hrule ▸ rfl, ?_⟩
      rw [Token.Placed, ← hend]
      exact ⟨hblock, hbody, tokensIn_rawTagBody htext hread hsits hts⟩
  | @comment body _ hrule hchildren =>
      have hmem : body ∈ p.children := by simp [hchildren]
      have hbody := hp.inside_child htext hmem
      obtain ⟨hsits, hend⟩ := (hp.child hmem).fills_span htext
      refine ⟨rfl, hrule ▸ rfl, ?_⟩
      rw [Token.Placed, ← hend]
      exact ⟨placed_blockAround htext (hp.inside_span htext) hbody, inside_blockAround htext hbody,
        tokensIn_verbatim htext hsits⟩

theorem from_valueOfPair {t : Token} (hp : Seated text region.offset p)
    (h : valueOfPair read region p = .ok t) : From text region.offset p t := by
  cases ValueRead.of_pair h with
  | text hrule => exact ⟨rfl, solid_of_mem (by decide) hrule, by simp [Token.Placed]⟩
  | liquid h => exact from_liquidOfPair htext hread hp h

theorem from_attributeOfPair {t : Token} (hp : Seated text region.offset p)
    (h : attributeOfPair read region p = .ok t) : From text region.offset p t := by
  obtain ⟨_, _, hgrown⟩ := id hp
  cases AttributeRead.of_pair hgrown h with
  | @value _ name value _ _ _ hrule hchildren hpieces hparts =>
      have hvalue : value ∈ p.children := by simp [hchildren]
      refine ⟨rfl, solid_of_mem (by decide) hrule, ?_⟩
      rw [Token.Placed]
      refine ⟨row_nameOfPair htext hp (by simp [hchildren]) hpieces, hp.inside_child htext hvalue, ?_⟩
      exact tokensIn_children htext (hp.child hvalue) (List.Sublist.refl _)
        (from_valueOfPair htext hread) hparts
  | bare hrule hchildren hpieces =>
      refine ⟨rfl, hrule ▸ rfl, ?_⟩
      rw [Token.Placed]
      exact row_nameOfPair htext hp (by simp [hchildren]) hpieces
  | liquid h => exact from_liquidOfPair htext hread hp h

theorem tokensIn_attributes {name : Pair Rule} {attributes : List (Pair Rule)} {as : List Token}
    (hp : Seated text region.offset p) (hchildren : p.children = name :: attributes)
    (h : attributes.mapM (attributeOfPair read region) = .ok as) :
    TokensIn text (p.span region.offset).lo (p.span region.offset).hi as :=
  tokensIn_children htext hp (by simp [hchildren]) (from_attributeOfPair htext hread) h

/-- The attributes of a raw element stand between its name and its body. -/
theorem tokensIn_rawAttributes {name body : Pair Rule} {rest : List (Pair Rule)} {as : List Token}
    (hp : Seated text region.offset p) (hrule : p.rule = .htmlRawTag) (hchildren : p.children = name :: rest)
    (hlast : p.children.getLast? = some body) (has : rest.dropLast.mapM (attributeOfPair read region) = .ok as) :
    TokensIn text (region.offset + name.stop) (body.span region.offset).lo as := by
  have ⟨_, _, hgrown⟩ := hp
  obtain ⟨_, attributes, _, hchildren', hlast', _, _⟩ := rawElement_children hgrown hrule
  cases hlast.symm.trans hlast'
  cases hchildren.symm.trans hchildren'
  rw [List.dropLast_concat] at has
  have hbody : Seated text region.offset body := hp.child (by simp [hchildren])
  have hseated : ∀ q ∈ attributes, Seated text region.offset q := by
    intro q hq
    exact hp.child (by simp [hchildren, hq])
  have hrow := hp.row
  rw [hchildren] at hrow
  obtain ⟨hbetween, _, _⟩ := hrow.2.2.split
  rw [hbody.lo_span htext]
  exact tokensIn_mapM htext hseated hbetween
    (fun q hq t ht => from_attributeOfPair htext hread (hseated q hq) ht) has

theorem placed_rawElement {name body : Pair Rule} {rest : List (Pair Rule)} {as ts : List Token}
    (hp : Seated text region.offset p) (hrule : p.rule = .htmlRawTag) (hchildren : p.children = name :: rest)
    (hlast : p.children.getLast? = some body) (has : rest.dropLast.mapM (attributeOfPair read region) = .ok as)
    (hts : read ⟨(body.span region.offset).lo, .tolerant⟩ .liquid body.text = .ok ts) :
    (Token.rawElement ⟨runOfPair region.offset name, body.string, body.span region.offset,
      blockAround (p.span region.offset) (body.span region.offset)⟩ as ts).Placed text := by
  have hattributes := tokensIn_rawAttributes htext hread hp hrule hchildren hlast has
  have ⟨_, _, hgrown⟩ := hp
  obtain ⟨_, _, _, hchildren', _, hname, _⟩ := rawElement_children hgrown hrule
  cases hchildren.symm.trans hchildren'
  have hnameMem : name ∈ p.children := by simp [hchildren]
  have hbodyMem : body ∈ p.children := List.mem_of_getLast? hlast
  have hinside := hp.inside_child htext hnameMem
  have hbody := hp.inside_child htext hbodyMem
  have hblock := placed_blockAround htext (hp.inside_span htext) hbody
  have hlo : (blockAround (p.span region.offset) (body.span region.offset)).opening.lo = (p.span region.offset).lo :=
    hblock.lo_eq
  have hhi : (blockAround (p.span region.offset) (body.span region.offset)).opening.hi =
      (body.span region.offset).lo := Span.hi_between_of_boundary htext hbody.boundary_lo
  have hnhi := (hp.child hnameMem).hi_span htext
  have hle := hattributes.le
  obtain ⟨hsits, hend⟩ := (hp.child hbodyMem).fills_span htext
  rw [Token.Placed]
  refine ⟨hblock, ?_, ?_, inside_blockAround htext hbody, ?_⟩
  · rw [hlo, hhi]
    refine Span.Row.singleton (hinside.weaken hinside.le_lo ?_) ?_
    · omega
    · exact (hp.child hnameMem).lo_lt_hi htext (by rw [hname]; rfl)
  · rw [hlo, hhi]
    refine hattributes.weaken ?_ (Nat.le_refl _)
    rw [← hnhi]
    exact Nat.le_trans hinside.le_lo hinside.lo_le_hi
  · rw [← hend]
    exact hread ⟨(body.span region.offset).lo, .tolerant⟩ _ _ _ hsits hts

/-- Every token of a document has the span of its pair, and its parts lie where they should. -/
theorem from_ofPair {t : Token} (hp : Seated text region.offset p)
    (h : ofPair read region p = .ok t) : From text region.offset p t := by
  obtain ⟨_, _, hgrown⟩ := id hp
  cases PairRead.of_pair hgrown h with
  | rawElement hrule hchildren hlast has hts =>
      exact ⟨rfl, hrule ▸ rfl, placed_rawElement htext hread hp hrule hchildren hlast has hts⟩
  | @voidElement name _ _ hrule hchildren has =>
      have hmem : name ∈ p.children := by simp [hchildren]
      obtain ⟨_, _, hchildren', hname⟩ := voidElement_children hgrown hrule
      cases hchildren.symm.trans hchildren'
      refine ⟨rfl, hrule ▸ rfl, ?_⟩
      rw [Token.Placed]
      refine ⟨Span.Row.singleton (hp.inside_child htext hmem) ?_, tokensIn_attributes htext hread hp hchildren has⟩
      exact (hp.child hmem).lo_lt_hi htext (by rw [hname]; rfl)
  | selfClosing hrule hchildren hpieces has | elementOpen hrule hchildren hpieces has =>
      refine ⟨rfl, hrule ▸ rfl, ?_⟩
      rw [Token.Placed]
      exact ⟨row_nameOfPair htext hp (by simp [hchildren]) hpieces, tokensIn_attributes htext hread hp hchildren has⟩
  | elementClose hrule hchildren hpieces =>
      refine ⟨rfl, hrule ▸ rfl, ?_⟩
      rw [Token.Placed]
      exact row_nameOfPair htext hp (by simp [hchildren]) hpieces
  | liquid h => exact from_liquidOfPair htext hread hp h
  | text hrule => exact ⟨rfl, solid_of_mem (by decide) hrule, by simp [Token.Placed]⟩
  | docParam hrule hspan => exact ⟨hspan, hrule ▸ rfl, by simp [Token.Placed]⟩
  | frontmatter hrule | doctype hrule | comment hrule | docExample hrule | docDescription hrule =>
      exact ⟨rfl, hrule ▸ rfl, by simp [Token.Placed]⟩

end Readers

/-- A text inside another is read to tokens in order in its place. -/
theorem readsIn_readWithin (htext : byteLength text < Span.limit) (depth : Nat) :
    ReadsIn text (readWithin depth) := by
  induction depth with
  | zero =>
      intro region entry part ts _ h
      cases h
  | succ depth ih =>
      intro region entry part ts hpart h
      rw [readWithin] at h
      split at h
      · cases h
      · rename_i pairs hparse
        obtain ⟨hgrown, hrow⟩ := Peg.Grammar.grown_parse hparse
        have hseated : ∀ q ∈ (pairs.flatMap (·.children)).filter (·.rule != .endOfInput),
            Seated text region.offset q := by
          intro q hq
          obtain ⟨p, hp, hq⟩ := List.mem_flatMap.mp (List.mem_filter.mp hq).1
          exact ⟨part, hpart, (hgrown p hp).children q hq⟩
        have hchildren := hrow.flatMap_children fun p hp => (hgrown p hp).row
        have hsome := List.filter_sublist (l := pairs.flatMap (·.children))
          (p := fun q => q.rule != .endOfInput)
        exact tokensIn_mapM htext hseated (hchildren.sublist hsome)
          (fun q hq t ht => from_ofPair htext ih (hseated q hq) ht) h

theorem tokensIn_read (htext : byteLength text < Span.limit) {mode : Mode} {entry : Entry}
    {ts : List Token} (h : Token.read ⟨0, mode⟩ entry text = .ok ts) :
    TokensIn text 0 (byteLength text) ts := by
  have htokens := readsIn_readWithin htext _ _ _ _ _ (Sits.self text) h
  rwa [Nat.zero_add] at htokens

end Token

end LiquidTemplate
