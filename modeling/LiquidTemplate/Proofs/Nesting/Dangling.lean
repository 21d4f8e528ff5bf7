import LiquidTemplate.Proofs.Nesting.Law

namespace LiquidTemplate

/-- Among the nodes of a branch of the named tag, a closing without an opening stands only where the tag
is conditional, and after other such closings only. -/
def LeadsWithClosings (tag : String) (nodes : List Node) : Prop :=
  ∀ before n after, nodes = before ++ n :: after → n.isDanglingClose →
    TagName.isConditional tag ∧ ∀ m ∈ before, m.isDanglingClose

def HoldsOtherClosings (completing : Prop) (element : List Piece) (nodes : List Node) : Prop :=
  ∀ name span, .danglingClose name span ∈ nodes →
    completing ∧ Text.sameCaseless (nameText element) (nameText name) = false

/-- Closings without an opening stand in the node only where they may. -/
def Node.KeepsDangling (completing : Prop) : Node → Prop
  | element name attributes _ children _ =>
    (∀ n ∈ attributes, n.isDanglingClose = false) ∧ HoldsOtherClosings completing name children
  | branched head first others _ => ∀ b ∈ first :: others, LeadsWithClosings head.name b.children
  | n => ∀ m ∈ n.nested, m.isDanglingClose = false

theorem leadsWithClosings_nil (tag : String) : LeadsWithClosings tag [] := by
  intro before n after h
  simp at h

theorem leadsWithClosings_snoc {tag : String} {nodes : List Node} {n : Node}
    (h : LeadsWithClosings tag nodes)
    (hn : n.isDanglingClose → TagName.isConditional tag ∧ ∀ m ∈ nodes, m.isDanglingClose) :
    LeadsWithClosings tag (nodes ++ [n]) := by
  intro before m after heq hm
  rcases snoc_eq_append_cons heq with ⟨rfl, rfl, rfl⟩ | ⟨init, rfl, rfl⟩
  · exact hn hm
  · exact h before m init rfl hm

variable {completing : Prop}

namespace Frame

def KeepsDangling (completing : Prop) : Frame → Prop
  | element name attributes _ children =>
    (∀ n ∈ attributes, n.isDanglingClose = false) ∧ HoldsOtherClosings completing name children
  | block _ children => ∀ n ∈ children, n.isDanglingClose = false
  | branched head closed _ children =>
    (∀ b ∈ closed, LeadsWithClosings head.name b.children) ∧ LeadsWithClosings head.name children.reverse

theorem KeepsDangling.add {f : Frame} {n : Node} (h : f.KeepsDangling completing)
    (hn : n.isDanglingClose = false) : (f.add [n]).KeepsDangling completing := by
  cases f with
  | element name attributes opening children =>
      refine ⟨h.1, ?_⟩
      intro name' span hmem
      rcases List.mem_cons.mp hmem with rfl | hmem
      · cases hn
      · exact h.2 name' span hmem
  | block head children => exact List.forall_mem_cons.mpr ⟨hn, h⟩
  | branched head closed current children =>
      refine ⟨h.1, ?_⟩
      rw [List.singleton_append, List.reverse_cons]
      exact leadsWithClosings_snoc h.2 (by simp [hn])

theorem KeepsDangling.addLast {f : Frame} {last : Option Node} (h : f.KeepsDangling completing)
    (hlast : ∀ n ∈ last, n.isDanglingClose = false) : (f.add last.toList).KeepsDangling completing := by
  cases last with
  | none => simpa using h
  | some n => exact h.add (hlast n rfl)

/-- A closing without an opening is put where it may stand. -/
theorem KeepsDangling.dangle {mode : Mode} (hmode : mode = .completion → completing) {f : Frame}
    {name : List Piece} {span : Span} (h : f.KeepsDangling completing)
    (htop : Nesting.closesTop (nameText name) [f] = false) (haccepts : Nesting.acceptsDangling mode [f]) :
    (f.add [.danglingClose name span]).KeepsDangling completing := by
  cases f with
  | element opened attributes opening children =>
      refine ⟨h.1, ?_⟩
      intro name' span' hmem
      rcases List.mem_cons.mp hmem with heq | hmem
      · cases heq
        exact ⟨hmode (by simpa [Nesting.acceptsDangling] using haccepts), htop⟩
      · exact h.2 name' span' hmem
  | block head children => cases haccepts
  | branched head closed current children =>
      obtain ⟨hcond, hlead⟩ : TagName.isConditional head.name ∧ ∀ m ∈ children, m.isDanglingClose := by
        simpa [Nesting.acceptsDangling] using haccepts
      refine ⟨h.1, ?_⟩
      rw [List.singleton_append, List.reverse_cons]
      exact leadsWithClosings_snoc h.2 fun _ => ⟨hcond, by simpa using hlead⟩

theorem KeepsDangling.close {f : Frame} (h : f.KeepsDangling completing) (closing : Closing) :
    (f.close closing).KeepsDangling completing := by
  cases f with
  | element name attributes opening children =>
      refine ⟨h.1, ?_⟩
      intro name' span hmem
      exact h.2 name' span (List.mem_reverse.mp hmem)
  | block head children =>
      intro n hn
      exact h n (List.mem_reverse.mp hn)
  | branched head closed current children =>
      intro b hb
      rw [gather_cons] at hb
      rcases List.mem_append.mp hb with hb | hb
      · exact h.1 b (List.mem_reverse.mp hb)
      · rw [List.mem_singleton.mp hb]
        exact h.2

end Frame

def danglingLaw (completing : Prop) : Law where
  node := Node.KeepsDangling completing
  part n := n.isDanglingClose = false
  frame := Frame.KeepsDangling completing
  left _ n := n.isDanglingClose = false
  item _ := True

theorem kept_danglingLaw {o : Options} (ho : o.mode = .completion → completing) :
    (danglingLaw completing).Kept o := by
  have hshut : ∀ {f : Frame} {last : Option Node} {closing : Closing}, f.KeepsDangling completing →
      (∀ n ∈ last, n.isDanglingClose = false) →
      ((f.add last.toList).close closing).KeepsDangling completing ∧
        ((f.add last.toList).close closing).isDanglingClose = false :=
    fun hf hlast => ⟨(hf.addLast hlast).close _, Frame.isDanglingClose_close _ _⟩
  constructor
  case simple =>
    intro n hn _ hparts
    cases n with
    | element | danglingClose | block | branched => cases hn
    | _ => exact ⟨hparts, rfl⟩
  case openElement =>
    intro name attributes span _ hattributes
    exact ⟨hattributes, fun _ _ h => by cases h⟩
  case openBlock => exact fun _ => List.forall_mem_nil _
  case openBranched => exact fun _ => ⟨List.forall_mem_nil _, leadsWithClosings_nil _⟩
  case add => exact fun hf hn => Frame.KeepsDangling.add hf hn
  case dangle => exact fun hf htop haccepts => ⟨List.forall_mem_nil _, Frame.KeepsDangling.dangle ho hf htop haccepts⟩
  case leave => exact fun hf _ hlast => hshut hf hlast
  case turn =>
    intro tag closed current children name head last hf hlast
    have hadd : (Frame.add last.toList (.branched tag closed current children)).KeepsDangling completing :=
      Frame.KeepsDangling.addLast hf hlast
    obtain ⟨hclosed, hchildren⟩ := hadd
    exact ⟨List.forall_mem_cons.mpr ⟨hchildren, hclosed⟩, leadsWithClosings_nil _⟩
  case closeElement => exact fun hf _ _ => ⟨Frame.KeepsDangling.close hf _, Frame.isDanglingClose_close _ _⟩
  case closeTag => exact fun hf _ hlast _ => hshut hf hlast
  case finish => exact fun _ hf hlast => hshut hf hlast

/-- The closing of the innermost element ends it. -/
theorem Nesting.feed_closeElement {o : Options} {b : Nesting} {name name' : List Piece} {attributes : List Node}
    {opening span : Span} {children : List Node} {rest : List Frame}
    (hstack : b.stack = .element name attributes opening children :: rest)
    (hname : Text.sameCaseless (nameText name) (nameText name')) (ts : List Token) :
    feed o b (.elementClose name' span :: ts) =
      feed o (add [.element name attributes opening children.reverse span] ⟨b.roots, rest⟩) ts := by
  refine feed_cons rfl ?_
  simp [step, closeElement, hstack, closesTop, hname, Frame.close]

/-- Closings without an opening stand only where they may: they lead a branch of a conditional tag, or,
when completions are asked for, they stand in an element with another name. A closing with the name
of the innermost element ends that element. -/
theorem Node.keepsDangling_ofTokens (o : Options) (ts : List Token) :
    (∀ stop nodes, ofTokens o stop ts = .ok nodes →
      ∀ n ∈ nodes, n.isDanglingClose = false ∧ n.All (KeepsDangling (o.mode = .completion))) ∧
    ∀ b name name' attributes opening children rest span after, Nesting.feed o {} ts = .ok b →
      b.stack = .element name attributes opening children :: rest →
      Text.sameCaseless (nameText name) (nameText name') →
      Nesting.feed o {} (ts ++ .elementClose name' span :: after) =
        Nesting.feed o (.add [.element name attributes opening children.reverse span] ⟨b.roots, rest⟩) after := by
  constructor
  · intro stop nodes h n hn
    have hobeys := obeys_of_forall (fun mode => mode = .completion → o.mode = .completion)
      (fun _ ho => kept_danglingLaw ho) (by simp) (fun _ => trivial) id h n hn
    exact ⟨hobeys.part, hobeys.all⟩
  · intro b name name' attributes opening children rest span after hfeed hstack hname
    rw [Nesting.feed_append_ok hfeed]
    exact Nesting.feed_closeElement hstack hname after

def strayClosing : List Token :=
  [.elementOpen [.text ⟨"a", .between 1 2⟩] [] (.between 0 3), .elementClose [.text ⟨"b", .between 5 6⟩] (.between 3 7)]

theorem Node.keepsDangling_strayClosing :
    (∃ nodes, ofTokens {} 38 crossedBranches = .ok nodes ∧
      ∀ n ∈ nodes, n.isDanglingClose = false ∧ n.All (KeepsDangling False)) ∧
    ∃ b rest, Nesting.feed ⟨.completion, false⟩ {} strayClosing = .ok b ∧
      b.stack = .element [.text ⟨"a", .between 1 2⟩] [] (.between 0 3)
        [.danglingClose [.text ⟨"b", .between 5 6⟩] (.between 3 7)] :: rest ∧
      Nesting.feed ⟨.completion, false⟩ {}
          (strayClosing ++ [.elementClose [.text ⟨"A", .between 9 10⟩] (.between 7 11)]) =
        .ok ⟨[.element [.text ⟨"a", .between 1 2⟩] [] (.between 0 3)
          [.danglingClose [.text ⟨"b", .between 5 6⟩] (.between 3 7)] (.between 7 11)], []⟩ := by
  constructor
  · obtain ⟨nodes, h⟩ : ∃ nodes, ofTokens {} 38 crossedBranches = .ok nodes := ⟨_, rfl⟩
    refine ⟨nodes, h, ?_⟩
    have hkeeps := (keepsDangling_ofTokens {} crossedBranches).1 38 nodes h
    have hmode : (({} : Options).mode = .completion) = False := by decide
    rwa [hmode] at hkeeps
  · have hcloses := (keepsDangling_ofTokens ⟨.completion, false⟩ strayClosing).2 _ _
      [.text ⟨"A", .between 9 10⟩] _ _ _ [] (.between 7 11) [] rfl rfl (by decide)
    exact ⟨_, [], rfl, rfl, hcloses⟩

end LiquidTemplate
