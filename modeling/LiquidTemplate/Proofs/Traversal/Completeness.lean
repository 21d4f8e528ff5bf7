import LiquidTemplate.Node.Walk

namespace LiquidTemplate

namespace Visit

def parts : Visit → List Visit
  | node (.element name attributes _ children _) => ofName name ++ attributes.map node ++ children.map node
  | node (.rawElement e _ attributes nodes) => node (.text e.name) :: (attributes.map node ++ nodes.map node)
  | node (.voidElement name attributes _) => node (.text name) :: attributes.map node
  | node (.selfClosing name attributes _) => ofName name ++ attributes.map node
  | node (.danglingClose name _) => ofName name
  | node (.valueAttribute _ name value _ _) => ofName name ++ value.map node
  | node (.bareAttribute name _) => ofName name
  | node (.block _ children _) => children.map node
  | node (.branched _ first others _) => branch first :: others.map branch
  | node (.statements _ _ body) => body.map node
  | node (.rawTag _ _ nodes) => nodes.map node
  | node _ => []
  | branch (.mk _ children _) => children.map node

def walk : Visit → List Visit
  | node n => n.walk
  | branch b => b.walk

/-- What is found in a list at an address: the place in the list, the place among the parts of what is there,
and so on. -/
def find? (vs : List Visit) : List Nat → Option Visit
  | [] => none
  | [i] => vs[i]?
  | i :: j :: is => vs[i]?.bind fun v => find? v.parts (j :: is)

theorem flatMap_walk_ofName (name : List Piece) : (ofName name).flatMap walk = ofName name := by
  induction name with
  | nil => rfl
  | cons p name ih =>
      have hpiece : (node (.ofPiece p)).walk = [node (.ofPiece p)] := by
        cases p <;> rfl
      change (node (.ofPiece p)).walk ++ (ofName name).flatMap walk = _
      rw [hpiece, ih]
      rfl

theorem flatMap_walk_nodes (ns : List Node) : (ns.map node).flatMap walk = walkAll ns := by
  induction ns with
  | nil => rfl
  | cons n ns ih =>
      rw [List.map_cons, List.flatMap_cons, ih]
      rfl

theorem flatMap_walk_branches (bs : List Branch) : (bs.map branch).flatMap walk = walkBranches bs := by
  induction bs with
  | nil => rfl
  | cons b bs ih =>
      rw [List.map_cons, List.flatMap_cons, ih]
      rfl

/-- A walk meets a thing first, and then walks through its parts in order. -/
theorem walk_eq (v : Visit) : v.walk = v :: v.parts.flatMap walk := by
  cases v with
  | branch b =>
      cases b
      simp only [walk, Branch.walk, parts, flatMap_walk_nodes]
  | node n =>
      cases n <;> simp [walk, Node.walk, parts, flatMap_walk_ofName, flatMap_walk_nodes, flatMap_walk_branches]

/-- A property that a list has if the parts of its first member and the rest of the list have it holds of
all lists: the walks through these are shorter. -/
@[elab_as_elim]
theorem parts_induction {P : List Visit → Prop} (nil : P [])
    (cons : ∀ v vs, P v.parts → P vs → P (v :: vs)) (vs : List Visit) : P vs := by
  induction hn : (vs.flatMap walk).length using Nat.strongRecOn generalizing vs with
  | ind n ih =>
      cases vs with
      | nil => exact nil
      | cons v vs =>
          rw [List.flatMap_cons, walk_eq, List.cons_append, List.length_cons, List.length_append] at hn
          exact cons v vs (ih _ (by omega) v.parts rfl) (ih _ (by omega) vs rfl)

/-- Directly after a thing that is met come its parts, with all that is in them. -/
theorem walk_descends {vs before after : List Visit} {v : Visit} (h : vs.flatMap walk = before ++ v :: after) :
    ∃ rest, after = v.parts.flatMap walk ++ rest := by
  induction vs using parts_induction generalizing before after with
  | nil => cases before <;> cases h
  | cons u vs ih ih' =>
      rw [List.flatMap_cons, walk_eq, List.cons_append] at h
      cases before with
      | nil =>
          cases h
          exact ⟨_, rfl⟩
      | cons w before =>
          obtain ⟨_, h⟩ := List.cons_eq_cons.mp h
          rcases List.append_eq_append_iff.mp h with ⟨middle, rfl, hrest⟩ | ⟨middle, hparts, hrest⟩
          · exact ih' hrest
          · cases middle with
            | nil =>
                have hhere : vs.flatMap walk = [] ++ v :: after := hrest.symm
                exact ih' hhere
            | cons x middle =>
                obtain ⟨rfl, rfl⟩ := List.cons_eq_cons.mp hrest
                obtain ⟨rest, rfl⟩ := ih hparts
                exact ⟨rest ++ vs.flatMap walk, List.append_assoc _ _ _⟩

def later : List Nat → List Nat
  | [] => []
  | i :: is => (i + 1) :: is

theorem find?_here (v : Visit) (vs : List Visit) (a : List Nat) :
    find? (v :: vs) (0 :: a) = if a = [] then some v else find? v.parts a := by
  cases a <;> rfl

theorem find?_later (v : Visit) (vs : List Visit) (i : Nat) (a : List Nat) :
    find? (v :: vs) ((i + 1) :: a) = find? vs (i :: a) := by
  cases a <;> rfl

theorem later_lt_later {a b : List Nat} (h : a < b) (ha : a ≠ []) : later a < later b := by
  obtain ⟨i, a, rfl⟩ := List.exists_cons_of_ne_nil ha
  cases b with
  | nil => cases h
  | cons j b =>
      rw [List.cons_lt_cons_iff] at h
      simpa [later, List.cons_lt_cons_iff] using h

theorem later_ne_nil {a : List Nat} (ha : a ≠ []) : later a ≠ [] := by
  obtain ⟨i, a, rfl⟩ := List.exists_cons_of_ne_nil ha
  exact List.cons_ne_nil _ _

theorem here_lt_later {a b : List Nat} (hb : b ≠ []) : 0 :: a < later b := by
  obtain ⟨i, b, rfl⟩ := List.exists_cons_of_ne_nil hb
  exact List.cons_lt_cons_iff.mpr (.inl (Nat.zero_lt_succ i))

theorem mem_map_later {as : List (List Nat)} (has : ∀ a ∈ as, a ≠ []) {i : Nat} {a : List Nat} :
    (i + 1) :: a ∈ as.map later ↔ i :: a ∈ as := by
  constructor
  · intro h
    obtain ⟨b, hb, heq⟩ := List.mem_map.mp h
    obtain ⟨j, b, rfl⟩ := List.exists_cons_of_ne_nil (has b hb)
    cases heq
    exact hb
  · exact fun h => List.mem_map.mpr ⟨_, h, rfl⟩

/-- The addresses of all that is found in a list, in order, are those of what a walk meets. -/
structure Enumerates (vs : List Visit) (as : List (List Nat)) (met : List Visit) : Prop where
  increasing : as.Pairwise (· < ·)
  complete : ∀ a, a ∈ as ↔ (find? vs a).isSome
  found : as.map (find? vs) = met.map some

namespace Enumerates

variable {v : Visit} {vs met met' : List Visit} {as bs : List (List Nat)}

theorem ne_nil (h : Enumerates vs as met) : ∀ a ∈ as, a ≠ [] := by
  rintro a ha rfl
  cases (h.complete []).mp ha

theorem nil : Enumerates [] [] [] := by
  refine ⟨.nil, ?_, rfl⟩
  intro a
  cases a with
  | nil => exact iff_of_false (by simp) Bool.noConfusion
  | cons i a => cases a <;> simp [find?]

theorem increasing_cons (h : Enumerates v.parts as met) (h' : Enumerates vs bs met') :
    ([0] :: (as.map (0 :: ·) ++ bs.map later)).Pairwise (· < ·) := by
  have hbelow : ∀ a ∈ as.map (0 :: ·), [0] < a := by
    intro a ha
    obtain ⟨b, hb, rfl⟩ := List.mem_map.mp ha
    obtain ⟨i, b, rfl⟩ := List.exists_cons_of_ne_nil (h.ne_nil b hb)
    exact List.cons_lt_cons_iff.mpr (.inr ⟨rfl, List.nil_lt_cons i b⟩)
  have hafter : ∀ (c : List Nat), ∀ b ∈ bs.map later, 0 :: c < b := by
    intro c b hb
    obtain ⟨d, hd, rfl⟩ := List.mem_map.mp hb
    exact here_lt_later (h'.ne_nil d hd)
  rw [List.pairwise_cons, List.pairwise_append]
  refine ⟨List.forall_mem_append.mpr ⟨hbelow, hafter []⟩, ?_, ?_, ?_⟩
  · refine List.pairwise_map.mpr (h.increasing.imp fun hlt => ?_)
    exact List.cons_lt_cons_iff.mpr (.inr ⟨rfl, hlt⟩)
  · refine List.pairwise_map.mpr (h'.increasing.imp_of_mem fun ha _ hlt => ?_)
    exact later_lt_later hlt (h'.ne_nil _ ha)
  · intro a ha
    obtain ⟨c, _, rfl⟩ := List.mem_map.mp ha
    exact hafter c

theorem complete_cons (h : Enumerates v.parts as met) (h' : Enumerates vs bs met') (a : List Nat) :
    a ∈ [0] :: (as.map (0 :: ·) ++ bs.map later) ↔ (find? (v :: vs) a).isSome := by
  rw [List.mem_cons, List.mem_append]
  cases a with
  | nil =>
      have hnone : [] ∉ bs.map later := by
        intro hnil
        obtain ⟨b, hb, heq⟩ := List.mem_map.mp hnil
        exact later_ne_nil (h'.ne_nil b hb) heq
      exact iff_of_false (by simp [hnone]) Bool.noConfusion
  | cons i a =>
      cases i with
      | zero =>
          have hlater : 0 :: a ∉ bs.map later := by
            intro ha
            obtain ⟨b, hb, heq⟩ := List.mem_map.mp ha
            obtain ⟨j, b, rfl⟩ := List.exists_cons_of_ne_nil (h'.ne_nil b hb)
            cases heq
          rw [find?_here]
          by_cases ha : a = []
          · simp [ha]
          · simp [ha, hlater, h.complete]
      | succ i =>
          rw [find?_later, ← h'.complete, mem_map_later h'.ne_nil]
          simp

/-- First the thing in front, then what it holds, then what comes after it. -/
theorem cons (h : Enumerates v.parts as met) (h' : Enumerates vs bs met') :
    Enumerates (v :: vs) ([0] :: (as.map (0 :: ·) ++ bs.map later)) (v :: (met ++ met')) := by
  have hhere : ∀ a ∈ as, find? (v :: vs) (0 :: a) = find? v.parts a := by
    intro a ha
    rw [find?_here, if_neg (h.ne_nil a ha)]
  have hlater : ∀ b ∈ bs, find? (v :: vs) (later b) = find? vs b := by
    intro b hb
    obtain ⟨i, b, rfl⟩ := List.exists_cons_of_ne_nil (h'.ne_nil b hb)
    exact find?_later v vs i b
  refine ⟨increasing_cons h h', complete_cons h h', ?_⟩
  rw [List.map_cons, List.map_append, List.map_map, List.map_map, List.map_cons, List.map_append, ← h.found, ← h'.found,
    ← List.map_congr_left hhere, ← List.map_congr_left hlater]
  rfl

end Enumerates

/-- All that can be found in a list is met on the way through it, once and in the order of the addresses. -/
theorem exists_enumeration (vs : List Visit) : ∃ as, Enumerates vs as (vs.flatMap walk) := by
  induction vs using parts_induction with
  | nil => exact ⟨[], .nil⟩
  | cons v vs ih ih' =>
      obtain ⟨as, has⟩ := ih
      obtain ⟨bs, hbs⟩ := ih'
      rw [List.flatMap_cons, walk_eq, List.cons_append]
      exact ⟨_, has.cons hbs⟩

end Visit

namespace Document

def find? (d : Document) (address : List Nat) : Option Visit := Visit.find? (d.children.map .node) address

end Document

end LiquidTemplate
