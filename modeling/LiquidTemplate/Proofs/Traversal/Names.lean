import LiquidTemplate.Proofs.Geometry.Building
import LiquidTemplate.Proofs.Nesting.Law
import LiquidTemplate.Proofs.Writing.Text

namespace LiquidTemplate

open Text
open Peg (Pair Grown)

namespace Token

variable {text : List Char}

def Leads (text : List Char) (names : List Span) (stop : Nat) (ts : List Token) : Prop :=
  Boundary text stop ∧ ∃ mid, (∀ s ∈ names, s.hi ≤ mid) ∧ TokensIn text mid stop ts

def NamesFirst (text : List Char) : Token → Prop
  | rawElement e attributes _ => Leads text [e.name.span] e.block.opening.hi attributes
  | voidElement name attributes span => Leads text [name.span] span.hi attributes
  | selfClosing name attributes span | elementOpen name attributes span =>
    Leads text (name.map Piece.span) span.hi attributes
  | valueAttribute _ name value valueSpan _ => Leads text (name.map Piece.span) valueSpan.hi value
  | _ => True

theorem namesFirst_of_isLiquid {t : Token} (h : t.isLiquid) : t.NamesFirst text := by
  cases t with
  | output | tagOpen | tag | statements | tagClose | rawTag => trivial
  | _ => cases h

section Readers

variable {read : ReadText} {region : Region} {p name : Pair Rule} {t : Token}
  (htext : byteLength text < Span.limit)

include htext

theorem hi_pieces_le {pieces : List Piece} (hname : Seated text region.offset name)
    (h : nameOfPair region name = .ok pieces) :
    ∀ s ∈ pieces.map Piece.span, s.hi ≤ region.offset + name.stop := by
  intro s hs
  rw [← hname.hi_span htext]
  exact ((row_pieces htext hname h).inside s hs).hi_le

theorem hi_runOfPair_le (hname : Seated text region.offset name) :
    ∀ s ∈ [(runOfPair region.offset name).span], s.hi ≤ region.offset + name.stop := by
  intro s hs
  rw [List.mem_singleton.mp hs]
  exact Nat.le_of_eq (hname.hi_span htext)

variable (hread : ReadsIn text read)

include hread

theorem leads_attributes {attributes : List (Pair Rule)} {names : List Span} {as : List Token}
    (hp : Seated text region.offset p) (hchildren : p.children = name :: attributes)
    (hnames : ∀ s ∈ names, s.hi ≤ region.offset + name.stop)
    (h : attributes.mapM (attributeOfPair read region) = .ok as) :
    Leads text names (p.span region.offset).hi as := by
  have hseated : ∀ q ∈ attributes, Seated text region.offset q := by
    intro q hq
    exact hp.child (by simp [hchildren, hq])
  have hrow := hp.row
  rw [hchildren] at hrow
  rw [hp.hi_span htext]
  exact ⟨hp.boundary_stop, _, hnames,
    tokensIn_mapM htext hseated hrow.2.2 (fun q hq t ht => from_attributeOfPair htext hread (hseated q hq) ht) h⟩

theorem leads_rawElement {body : Pair Rule} {rest : List (Pair Rule)} {as : List Token}
    (hp : Seated text region.offset p) (hrule : p.rule = .htmlRawTag) (hchildren : p.children = name :: rest)
    (hlast : p.children.getLast? = some body) (has : rest.dropLast.mapM (attributeOfPair read region) = .ok as) :
    Leads text [(runOfPair region.offset name).span]
      (blockAround (p.span region.offset) (body.span region.offset)).opening.hi as := by
  have hname : Seated text region.offset name := hp.child (by simp [hchildren])
  have hbody := hp.inside_child htext (List.mem_of_getLast? hlast)
  have hopening : (blockAround (p.span region.offset) (body.span region.offset)).opening.hi =
      (body.span region.offset).lo := Span.hi_between_of_boundary htext hbody.boundary_lo
  rw [hopening]
  exact ⟨hbody.boundary_lo, _, hi_runOfPair_le htext hname,
    tokensIn_rawAttributes htext hread hp hrule hchildren hlast has⟩

theorem namesFirst_attributeOfPair (hp : Seated text region.offset p)
    (h : attributeOfPair read region p = .ok t) : t.NamesFirst text := by
  obtain ⟨_, _, hgrown⟩ := id hp
  cases AttributeRead.of_pair hgrown h with
  | @value _ name value _ _ _ _ hchildren hpieces hparts =>
      have hname : Seated text region.offset name := hp.child (by simp [hchildren])
      have hvalue : Seated text region.offset value := hp.child (by simp [hchildren])
      have hrow := hp.row
      rw [hchildren] at hrow
      obtain ⟨_, _, hafter, _⟩ := hrow
      refine ⟨(hvalue.inside_span htext).boundary_hi, (value.span region.offset).lo, ?_, ?_⟩
      · intro s hs
        have hle := hi_pieces_le htext hname hpieces s hs
        rw [hvalue.lo_span htext]
        omega
      · exact tokensIn_children htext hvalue (List.Sublist.refl _) (from_valueOfPair htext hread) hparts
  | bare => trivial
  | liquid h => exact namesFirst_of_isLiquid (isLiquid_liquidOfPair hgrown h)

theorem namesFirst_ofPair (hp : Seated text region.offset p) (h : ofPair read region p = .ok t) :
    t.NamesFirst text := by
  obtain ⟨_, _, hgrown⟩ := id hp
  cases PairRead.of_pair hgrown h with
  | rawElement hrule hchildren hlast has => exact leads_rawElement htext hread hp hrule hchildren hlast has
  | voidElement _ hchildren has =>
      exact leads_attributes htext hread hp hchildren
        (hi_runOfPair_le htext (hp.child (by simp [hchildren]))) has
  | selfClosing _ hchildren hpieces has | elementOpen _ hchildren hpieces has =>
      exact leads_attributes htext hread hp hchildren
        (hi_pieces_le htext (hp.child (by simp [hchildren])) hpieces) has
  | liquid h => exact namesFirst_of_isLiquid (isLiquid_liquidOfPair hgrown h)
  | _ => trivial

end Readers

theorem namesFirst_valueOfPair {part : List Char} {read : ReadText} {region : Region} {p : Pair Rule} {t : Token}
    (hp : Grown grammar part p) (h : valueOfPair read region p = .ok t) : t.NamesFirst text := by
  cases ValueRead.of_pair h with
  | text => trivial
  | liquid h => exact namesFirst_of_isLiquid (isLiquid_liquidOfPair hp h)

theorem namesFirst_verbatim {body : List Char} {start : Nat} {t : Token} (h : t ∈ verbatim body start) :
    t.NamesFirst text := by
  rw [mem_verbatim h]
  trivial

theorem all_namesFirst_readWithin (htext : byteLength text < Span.limit) {depth : Nat}
    (hinside : HoldsInside text (readWithin depth) (fun _ => True) (NamesFirst text)) {region : Region}
    {entry : Entry} {part : List Char} {ts : List Token} (hpart : Sits text region.offset part)
    (h : readWithin (depth + 1) region entry part = .ok ts) : ∀ t ∈ ts, t.All (NamesFirst text) := by
  refine all_readWithin htext hinside hpart ?_ h
  intro p q t hp _ hq ht
  exact namesFirst_ofPair htext (readsIn_readWithin htext depth) ⟨part, hpart, hp.children q hq⟩ ht

/-- In all that is read inside the tokens of a text, names come first. The texts that are read again are
read with one level less. -/
theorem holdsInside_namesFirst (htext : byteLength text < Span.limit) (depth : Nat) :
    HoldsInside text (readWithin depth) (fun _ => True) (NamesFirst text) := by
  constructor
  case tolerant => trivial
  case ofAttribute => exact fun _ => namesFirst_attributeOfPair htext (readsIn_readWithin htext depth)
  case ofValue => exact fun _ ⟨_, _, hp⟩ => namesFirst_valueOfPair hp
  case ofVerbatim => exact fun _ => namesFirst_verbatim
  case ofRead =>
    intro offset mode entry part ts _ _ hpart h
    cases depth with
    | zero => cases h
    | succ depth => exact all_namesFirst_readWithin htext (holdsInside_namesFirst htext depth) hpart h

theorem all_namesFirst (htext : byteLength text < Span.limit) {mode : Mode} {entry : Entry} {ts : List Token}
    (h : Token.read ⟨0, mode⟩ entry text = .ok ts) : ∀ t ∈ ts, t.All (NamesFirst text) :=
  all_namesFirst_readWithin htext (holdsInside_namesFirst htext _) (Sits.self text) h

end Token

namespace Node

def Follow (names : List Span) (nodes : List Node) : Prop := ∀ s ∈ names, ∀ n ∈ nodes, s.hi ≤ n.span.lo

def NamesFirst : Node → Prop
  | element name attributes .. | selfClosing name attributes _ => Follow (name.map Piece.span) attributes
  | rawElement e _ attributes _ => Follow [e.name.span] attributes
  | voidElement name attributes _ => Follow [name.span] attributes
  | valueAttribute _ name value .. => Follow (name.map Piece.span) value
  | _ => True

end Node

def namesFirstLaw : Law where
  node := Node.NamesFirst
  part _ := True
  frame
    | .element name attributes .. => Node.Follow (name.map Piece.span) attributes
    | _ => True
  left _ _ := True
  item
    | .leaf n => n.NamesFirst
    | .openElement name attributes _ => Node.Follow (name.map Piece.span) attributes
    | _ => True

theorem namesFirst_close {f : Frame} {closing : Closing} (h : namesFirstLaw.frame f) :
    (f.close closing).NamesFirst := by
  cases f with
  | element => exact h
  | block | branched => trivial

theorem namesFirst_add {f : Frame} {nodes : List Node} (h : namesFirstLaw.frame f) :
    namesFirstLaw.frame (f.add nodes) := by
  cases f with
  | element => exact h
  | block | branched => trivial

theorem namesFirstLaw_kept (o : Options) : namesFirstLaw.Kept o where
  simple _ hitem _ := ⟨hitem, trivial⟩
  openElement hitem _ := hitem
  openBlock _ := trivial
  openBranched _ := trivial
  add hf _ := namesFirst_add hf
  dangle hf _ _ := ⟨trivial, namesFirst_add hf⟩
  leave hf _ _ := ⟨namesFirst_close (namesFirst_add hf), trivial⟩
  turn _ _ := trivial
  closeElement hf _ _ := ⟨namesFirst_close hf, trivial⟩
  closeTag hf _ _ _ := ⟨namesFirst_close (namesFirst_add hf), trivial⟩
  finish _ hf _ := ⟨namesFirst_close (namesFirst_add hf), trivial⟩

namespace Token

variable {text : List Char} (htext : byteLength text < Span.limit)

include htext

theorem Leads.follow {names : List Span} {stop : Nat} {ts : List Token} (h : Leads text names stop ts)
    {o : Options} {b : Nesting} {nodes : List Node} (hfeed : Nesting.feed o {} ts = .ok b)
    (hfinish : b.finish o stop = .ok nodes) : Node.Follow names nodes := by
  obtain ⟨hstop, mid, hnames, hts⟩ := h
  have hnodes := Node.nodesIn_ofTokens htext hts hstop (bind_eq_ok.mpr ⟨b, hfeed, hfinish⟩)
  intro s hs n hn
  have hinside := (nodesIn_iff.mp hnodes).1.inside n.span (List.mem_map_of_mem hn)
  exact Nat.le_trans (hnames s hs) hinside.le_lo

theorem NamesFirst.item {t : Token} (ht : t.NamesFirst text) {o : Options} {item : Item}
    (h : Nesting.complete o t = .ok item) : namesFirstLaw.item item := by
  cases t with
  | rawElement e attributes body =>
      simp only [Nesting.complete, bind_eq_ok, pure_eq_ok] at h
      obtain ⟨b, hfeed, nodes, hfinish, b', _, nodes', _, rfl⟩ := h
      exact Leads.follow htext ht hfeed hfinish
  | voidElement | selfClosing | elementOpen | valueAttribute =>
      simp only [Nesting.complete, bind_eq_ok, pure_eq_ok] at h
      obtain ⟨b, hfeed, nodes, hfinish, rfl⟩ := h
      exact Leads.follow htext ht hfeed hfinish
  | statements | rawTag =>
      simp only [Nesting.complete, bind_eq_ok, pure_eq_ok] at h
      obtain ⟨b, _, nodes, _, rfl⟩ := h
      trivial
  | tag tag =>
      unfold Nesting.complete at h
      split at h <;> cases h <;> trivial
  | _ =>
      cases h
      trivial

end Token

/-- In a parsed template every name stands before the attributes or the value it goes with. -/
theorem Document.all_namesFirst {o : Options} {entry : Entry} {source : String} {d : Document}
    (hsource : byteLength source.toList < Span.limit) (h : Document.parse o entry source = .ok d) :
    ∀ n ∈ d.children, n.All Node.NamesFirst := by
  unfold Document.parse at h
  obtain ⟨ts, hts, h⟩ := bind_eq_ok.mp h
  obtain ⟨children, hchildren, h⟩ := bind_eq_ok.mp h
  cases h
  have hobeys := Node.obeys_of_all (fun _ => True) (fun o _ => namesFirstLaw_kept o) trivial
    (fun ht hitem => ht.item hsource hitem) trivial (Token.all_namesFirst hsource hts) hchildren
  exact fun n hn => (hobeys n hn).all

end LiquidTemplate
