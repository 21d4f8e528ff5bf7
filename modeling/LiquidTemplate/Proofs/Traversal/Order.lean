import LiquidTemplate.Proofs.Geometry.Document
import LiquidTemplate.Proofs.Traversal.Completeness
import LiquidTemplate.Proofs.Traversal.Names

namespace LiquidTemplate

open Text

namespace Visit

def span : Visit → Span
  | node n => n.span
  | branch b => b.span

def Placed (text : List Char) : Visit → Prop
  | node n => n.Placed text ∧ n.All Node.NamesFirst
  | branch b => b.Placed text ∧ ∀ n ∈ b.children, n.All Node.NamesFirst

/-- The visited things stand between two offsets of the text, each before those after it. They may be
empty, as branches are. -/
structure InTurn (text : List Char) (lo hi : Nat) (vs : List Visit) : Prop where
  inside : ∀ v ∈ vs, v.span.Inside text lo hi
  apart : vs.Pairwise fun v w => v.span.hi ≤ w.span.lo
  placed : ∀ v ∈ vs, v.Placed text

section

variable {text : List Char} {lo mid hi lo' hi' : Nat} {v : Visit} {vs ws : List Visit} {name : List Piece}
  {nodes : List Node}

theorem inTurn_nil : InTurn text lo hi [] := ⟨by simp, .nil, by simp⟩

theorem inTurn_of_row (h : Span.Row text lo hi (vs.map span)) (hplaced : ∀ v ∈ vs, v.Placed text) :
    InTurn text lo hi vs :=
  ⟨List.forall_mem_map.mp h.inside, List.pairwise_map.mp h.apart, hplaced⟩

theorem InTurn.weaken (h : InTurn text lo hi vs) (hlo : lo' ≤ lo) (hhi : hi ≤ hi') : InTurn text lo' hi' vs := by
  refine ⟨fun v hv => ?_, h.apart, h.placed⟩
  have hinside := h.inside v hv
  exact hinside.weaken (Nat.le_trans hlo hinside.le_lo) (Nat.le_trans hinside.hi_le hhi)

theorem InTurn.append (hv : InTurn text lo hi vs) (hw : InTurn text lo hi ws)
    (h : ∀ v ∈ vs, ∀ w ∈ ws, v.span.hi ≤ w.span.lo) : InTurn text lo hi (vs ++ ws) :=
  ⟨List.forall_mem_append.mpr ⟨hv.inside, hw.inside⟩, List.pairwise_append.mpr ⟨hv.apart, hw.apart, h⟩,
    List.forall_mem_append.mpr ⟨hv.placed, hw.placed⟩⟩

theorem InTurn.join (hv : InTurn text lo mid vs) (hw : InTurn text mid hi ws) (hlo : lo ≤ mid) (hhi : mid ≤ hi) :
    InTurn text lo hi (vs ++ ws) := by
  refine (hv.weaken (Nat.le_refl _) hhi).append (hw.weaken hlo (Nat.le_refl _)) ?_
  exact fun v hmem w hmem' => Nat.le_trans (hv.inside v hmem).hi_le (hw.inside w hmem').le_lo

theorem InTurn.cons (hv : v.span.Inside text lo hi) (hplaced : v.Placed text)
    (h : InTurn text v.span.hi hi vs) : InTurn text lo hi (v :: vs) := by
  have hsingle : InTurn text lo v.span.hi [v] :=
    ⟨by simpa using hv.weaken hv.le_lo (Nat.le_refl _), by simp, by simpa using hplaced⟩
  exact hsingle.join h (Nat.le_trans hv.le_lo hv.lo_le_hi) hv.hi_le

theorem InTurn.tail (h : InTurn text lo hi (v :: vs)) : InTurn text v.span.hi hi vs := by
  obtain ⟨hfirst, hapart⟩ := List.pairwise_cons.mp h.apart
  obtain ⟨_, hinside⟩ := List.forall_mem_cons.mp h.inside
  exact ⟨fun w hw => (hinside w hw).weaken (hfirst w hw) (hinside w hw).hi_le, hapart,
    (List.forall_mem_cons.mp h.placed).2⟩

theorem span_ofPiece (p : Piece) : (Node.ofPiece p).span = p.span := by
  cases p <;> rfl

theorem inTurn_ofName (h : Span.Row text lo hi (name.map Piece.span)) : InTurn text lo hi (ofName name) := by
  apply inTurn_of_row
  · rw [ofName, List.map_map]
    have hspans : span ∘ (fun p => node (.ofPiece p)) = Piece.span := funext span_ofPiece
    rwa [hspans]
  · intro v hv
    obtain ⟨p, _, rfl⟩ := List.mem_map.mp hv
    cases p with
    | text | output => exact ⟨by simp [Node.ofPiece, Node.Placed], .mk trivial (by simp [Node.ofPiece, Node.nested])⟩

theorem inTurn_nodes (h : NodesIn text lo hi nodes) (hnames : ∀ n ∈ nodes, n.All Node.NamesFirst) :
    InTurn text lo hi (nodes.map node) := by
  obtain ⟨hrow, hplaced⟩ := nodesIn_iff.mp h
  apply inTurn_of_row
  · rwa [List.map_map]
  · exact List.forall_mem_map.mpr fun n hn => ⟨hplaced n hn, hnames n hn⟩

theorem inTurn_branches {bs : List Branch} (h : BranchesIn text lo hi bs)
    (hnames : ∀ b ∈ bs, ∀ n ∈ b.children, n.All Node.NamesFirst) : InTurn text lo hi (bs.map branch) := by
  induction bs generalizing lo with
  | nil => exact inTurn_nil
  | cons b bs ih =>
      rw [BranchesIn] at h
      obtain ⟨hspan, hplaced, hrest⟩ := h
      obtain ⟨hhere, hlater⟩ := List.forall_mem_cons.mp hnames
      exact .cons hspan ⟨hplaced, hhere⟩ (ih hrest hlater)

/-- Names and the attributes or the value after them lie in turn where both lie. -/
theorem inTurn_named (hname : Span.Row text lo hi (name.map Piece.span)) (hnodes : NodesIn text lo hi nodes)
    (hfollow : Node.Follow (name.map Piece.span) nodes) (hnames : ∀ n ∈ nodes, n.All Node.NamesFirst) :
    InTurn text lo hi (ofName name ++ nodes.map node) := by
  refine (inTurn_ofName hname).append (inTurn_nodes hnodes hnames) ?_
  intro v hv w hw
  obtain ⟨p, hp, rfl⟩ := List.mem_map.mp hv
  obtain ⟨n, hn, rfl⟩ := List.mem_map.mp hw
  change (Node.ofPiece p).span.hi ≤ n.span.lo
  rw [span_ofPiece]
  exact hfollow _ (List.mem_map_of_mem hp) n hn

/-- What lies between the start of the opening and the closing of a construct lies in the construct. -/
theorem InTurn.of_block {b : Block} (h : InTurn text b.opening.lo b.closing.lo vs) (hb : b.Placed text) :
    InTurn text b.span.lo b.span.hi vs :=
  h.weaken hb.opening.le_lo (Nat.le_trans hb.closing.lo_le_hi hb.closing.hi_le)

theorem InTurn.of_body {b : Block} (h : InTurn text b.opening.hi b.closing.lo vs) (hb : b.Placed text) :
    InTurn text b.span.lo b.span.hi vs :=
  (h.weaken hb.opening.lo_le_hi (Nat.le_refl _)).of_block hb

theorem Placed.parts_branch {b : Branch} (h : (branch b).Placed text) :
    InTurn text b.span.lo b.span.hi (branch b).parts := by
  obtain ⟨hplaced, hnames⟩ := h
  obtain ⟨head, children, closing⟩ := b
  rw [Branch.Placed] at hplaced
  obtain ⟨hblock, _, hchildren⟩ := hplaced
  have hturn := (inTurn_nodes hchildren hnames).of_body hblock
  exact hturn

/-- The parts of a node stand in turn in it. -/
theorem Placed.parts_node {n : Node} (h : (node n).Placed text) : InTurn text n.span.lo n.span.hi (node n).parts := by
  obtain ⟨hplaced, hall⟩ := h
  obtain ⟨hfirst, hnested⟩ := hall
  -- For a construct with a body, the fact is first stated with the span of its block.
  cases n with
  | element name attributes opening children closing =>
      rw [Node.Placed] at hplaced
      obtain ⟨hblock, hname, hattributes, hchildren⟩ := hplaced
      obtain ⟨hnames, hnames'⟩ := List.forall_mem_append.mp hnested
      have hopening := inTurn_named hname hattributes hfirst hnames
      have hall := hopening.join (inTurn_nodes hchildren hnames') hblock.opening.lo_le_hi hblock.closing.le_lo
      have hturn := hall.of_block hblock
      exact hturn
  | rawElement e kind attributes nodes =>
      rw [Node.Placed] at hplaced
      obtain ⟨hblock, hname, hattributes, hbody, hnodes⟩ := hplaced
      obtain ⟨hnames, hnames'⟩ := List.forall_mem_append.mp hnested
      have hopening : InTurn text _ _ (ofName [.text e.name] ++ attributes.map node) :=
        inTurn_named hname hattributes hfirst hnames
      have hnodes := (inTurn_nodes hnodes hnames').weaken hbody.le_lo hbody.hi_le
      have hall := hopening.join hnodes hblock.opening.lo_le_hi hblock.closing.le_lo
      have hturn := hall.of_block hblock
      exact hturn
  | voidElement name attributes span =>
      rw [Node.Placed] at hplaced
      have hturn : InTurn text _ _ (ofName [.text name] ++ attributes.map node) :=
        inTurn_named hplaced.1 hplaced.2 hfirst hnested
      exact hturn
  | selfClosing name attributes span =>
      rw [Node.Placed] at hplaced
      exact inTurn_named hplaced.1 hplaced.2 hfirst hnested
  | danglingClose name span | bareAttribute name span =>
      rw [Node.Placed] at hplaced
      exact inTurn_ofName hplaced
  | valueAttribute quotes name value valueSpan span =>
      rw [Node.Placed] at hplaced
      obtain ⟨hname, hspan, hvalue⟩ := hplaced
      exact inTurn_named hname ((hvalue.weaken_lo hspan.le_lo).weaken_hi hspan.hi_le) hfirst hnested
  | block head children closing =>
      rw [Node.Placed] at hplaced
      have hturn := (inTurn_nodes hplaced.2 hnested).of_body hplaced.1
      exact hturn
  | branched head first others closing =>
      rw [Node.Placed] at hplaced
      obtain ⟨hblock, hspan, hfirst', hothers⟩ := hplaced
      have hnames : ∀ b ∈ first :: others, ∀ n ∈ b.children, n.All Node.NamesFirst :=
        fun b hb n hn => hnested n (List.mem_flatMap.mpr ⟨b, hb, hn⟩)
      obtain ⟨hhere, hlater⟩ := List.forall_mem_cons.mp hnames
      have hall : InTurn text _ _ (branch first :: others.map branch) :=
        .cons hspan ⟨hfirst', hhere⟩ (inTurn_branches hothers hlater)
      have hturn := hall.of_body hblock
      exact hturn
  | statements trim span body =>
      rw [Node.Placed] at hplaced
      exact inTurn_nodes hplaced hnested
  | rawTag tag kind nodes =>
      rw [Node.Placed] at hplaced
      obtain ⟨hblock, hbody, hnodes⟩ := hplaced
      have hturn := ((inTurn_nodes hnodes hnested).weaken hbody.le_lo hbody.hi_le).of_body hblock
      exact hturn
  | _ => exact inTurn_nil

theorem Placed.parts (h : v.Placed text) : InTurn text v.span.lo v.span.hi v.parts := by
  cases v with
  | node => exact h.parts_node
  | branch => exact h.parts_branch

structure InOrder (text : List Char) (lo hi : Nat) (vs : List Visit) : Prop where
  inside : ∀ v ∈ vs, v.span.Inside text lo hi
  sorted : vs.Pairwise fun v w => v.span.lo ≤ w.span.lo

/-- What lies in something may be visited after it. -/
theorem InOrder.cons (hv : v.span.Inside text lo hi) (h : InOrder text v.span.lo v.span.hi vs) :
    InOrder text lo v.span.hi (v :: vs) := by
  refine ⟨List.forall_mem_cons.mpr ⟨hv.weaken hv.le_lo (Nat.le_refl _), fun w hw => ?_⟩,
    .cons (fun w hw => (h.inside w hw).le_lo) h.sorted⟩
  have hinside := h.inside w hw
  exact hinside.weaken (Nat.le_trans hv.le_lo hinside.le_lo) hinside.hi_le

theorem InOrder.join (hv : InOrder text lo mid vs) (hw : InOrder text mid hi ws) (hlo : lo ≤ mid)
    (hhi : mid ≤ hi) : InOrder text lo hi (vs ++ ws) := by
  refine ⟨List.forall_mem_append.mpr ⟨fun v hmem => ?_, fun w hmem => ?_⟩,
    List.pairwise_append.mpr ⟨hv.sorted, hw.sorted, fun v hmem w hmem' => ?_⟩⟩
  · have hinside := hv.inside v hmem
    exact hinside.weaken hinside.le_lo (Nat.le_trans hinside.hi_le hhi)
  · have hinside := hw.inside w hmem
    exact hinside.weaken (Nat.le_trans hlo hinside.le_lo) hinside.hi_le
  · have hinside := hv.inside v hmem
    exact Nat.le_trans hinside.lo_le_hi (Nat.le_trans hinside.hi_le (hw.inside w hmem').le_lo)

/-- What stands in turn is met in order on the way through it and its parts. -/
theorem InTurn.walk (h : InTurn text lo hi vs) : InOrder text lo hi (vs.flatMap walk) := by
  induction vs using parts_induction generalizing lo hi with
  | nil => exact ⟨by simp, .nil⟩
  | cons v vs ih ih' =>
      have hv := h.inside v (by simp)
      have hparts := ih (h.placed v (by simp)).parts
      rw [List.flatMap_cons, walk_eq, List.cons_append, ← List.cons_append]
      exact (hparts.cons hv).join (ih' h.tail) (Nat.le_trans hv.le_lo hv.lo_le_hi) hv.hi_le

end

end Visit

namespace Document

variable {o : Options} {entry : Entry} {source : String} {d : Document}

theorem inOrder_walk (hsource : byteLength source.toList < Span.limit)
    (h : Document.parse o entry source = .ok d) :
    Visit.InOrder source.toList 0 (byteLength source.toList) d.walk := by
  have hturn := Visit.inTurn_nodes (nodesIn_parse hsource h) (all_namesFirst hsource h)
  have hwalk := hturn.walk
  rwa [Visit.flatMap_walk_nodes] at hwalk

structure Traversed (source : String) (d : Document) : Prop where
  /-- What is met is what stands at the addresses of the document, each of them once, in their order. -/
  complete : ∃ addresses : List (List Nat), addresses.Pairwise (· < ·) ∧
    (∀ a, a ∈ addresses ↔ (d.find? a).isSome) ∧ addresses.map d.find? = d.walk.map some
  /-- Directly after a node or a branch comes what it holds, with everything in that. -/
  descends : ∀ before v after, d.walk = before ++ v :: after →
    ∃ rest, after = v.parts.flatMap Visit.walk ++ rest
  /-- Nothing starts before what is met before it. -/
  sorted : (d.walk.map (·.span.lo)).Pairwise (· ≤ ·)
  inside : ∀ v ∈ d.walk, v.span.Inside source.toList 0 (byteLength source.toList)

theorem traversed_parse (hsource : byteLength source.toList < Span.limit)
    (h : Document.parse o entry source = .ok d) : Traversed source d := by
  have horder := inOrder_walk hsource h
  obtain ⟨as, has⟩ := Visit.exists_enumeration (d.children.map .node)
  rw [Visit.flatMap_walk_nodes] at has
  constructor
  case complete => exact ⟨as, has.increasing, has.complete, has.found⟩
  case descends =>
    intro before v after hwalk
    rw [Document.walk, ← Visit.flatMap_walk_nodes] at hwalk
    exact Visit.walk_descends hwalk
  case sorted => exact List.pairwise_map.mpr horder.sorted
  case inside => exact horder.inside

theorem traversed_mixedTemplate :
    byteLength mixedTemplate.toList < Span.limit ∧
      ∃ d, Document.parse {} .liquidHtml mixedTemplate = .ok d ∧ d.walk.length = 16 ∧
        Traversed mixedTemplate d := by
  have hsource : byteLength mixedTemplate.toList < Span.limit := by decide +kernel
  have hlength : (Document.parse {} .liquidHtml mixedTemplate).toOption.map (·.walk.length) = some 16 := by
    decide +kernel
  cases h : Document.parse {} .liquidHtml mixedTemplate with
  | error e =>
      rw [h] at hlength
      cases hlength
  | ok d =>
      rw [h] at hlength
      exact ⟨hsource, d, rfl, Option.some.inj hlength, traversed_parse hsource h⟩

end Document

end LiquidTemplate
