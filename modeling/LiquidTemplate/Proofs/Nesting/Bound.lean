import LiquidTemplate.Document
import LiquidTemplate.Proofs.Agreement.Lines
import LiquidTemplate.Proofs.Nesting.Soundness
import LiquidTemplate.Proofs.Rule.Statement

namespace LiquidTemplate

open Text

def Item.levels : Item → Nat
  | openElement .. => 1
  | openTag head => if TagName.isBranching head.name then 2 else 1
  | _ => 0

/-- The lists of tokens in a token that are built by themselves, in order, each with the options for it and the
offset where it ends. -/
def Token.regions (o : Options) : Token → List (Options × Nat × List Token)
  | rawElement e attributes body =>
    [(o.nested, e.block.opening.hi, attributes), (.rawBody, e.bodySpan.hi, body)]
  | voidElement _ attributes span => [(o.nested, span.hi, attributes)]
  | selfClosing _ attributes span => [(o.nested, span.hi, attributes)]
  | elementOpen _ attributes span => [(o.nested, span.hi, attributes)]
  | valueAttribute _ _ value valueSpan _ => [(o.nested, valueSpan.hi, value)]
  | statements head body => [(o.nested, head.markupSpan.hi, body)]
  | rawTag raw body => [(.rawBody, raw.bodySpan.hi, body)]
  | _ => []

namespace Nesting

variable {o o' : Options} {t : Token} {ts : List Token} {stop : Nat} {e : Error}

theorem openFrame_tooDeep {b : Nesting} (h : maxDepth ≤ Frame.depth b.stack) (f : Frame) (span : Span) :
    b.openFrame f span = .error (.misnested .tooDeep span) := by
  rw [openFrame, if_pos h]

theorem step_tooDeep (mode : Mode) {b : Nesting} {item : Item} (hb : Frame.depth b.stack ≤ maxDepth)
    (h : maxDepth < Frame.depth b.stack + item.levels) :
    ∃ span, b.step mode item = .error (.misnested .tooDeep span) := by
  cases item with
  | openElement name attributes span => exact ⟨span, openFrame_tooDeep (Nat.le_of_lt_succ h) _ _⟩
  | openTag head =>
      simp only [step, openTag]
      rw [Item.levels] at h
      by_cases hname : TagName.isBranching head.name
      · rw [if_pos hname] at h ⊢
        by_cases hlast : Frame.depth b.stack + 1 = maxDepth
        · exact ⟨_, if_pos hlast⟩
        · rw [if_neg hlast]
          exact ⟨_, openFrame_tooDeep (by omega) _ _⟩
      · rw [if_neg hname] at h ⊢
        exact ⟨_, openFrame_tooDeep (Nat.le_of_lt_succ h) _ _⟩
  | leaf | closeElement | openBranch | closeTag => exact absurd hb (Nat.not_le_of_lt h)

theorem ofTokens_error (h : Node.ofTokens o stop ts = .error e) :
    feed o {} ts = .error e ∨ ∃ b, feed o {} ts = .ok b ∧ b.finish o stop = .error e := by
  rw [Node.ofTokens] at h
  cases hfeed : feed o {} ts with
  | error e' =>
      rw [hfeed] at h
      cases h
      exact .inl rfl
  | ok b =>
      rw [hfeed] at h
      exact .inr ⟨b, rfl, h⟩

/-- The error of a list of tokens in a token is that of the token. -/
theorem complete_error {earlier later : List (Options × Nat × List Token)}
    (hregions : t.regions o = earlier ++ (o', stop, ts) :: later)
    (hearlier : ∀ r ∈ earlier, Succeeds (Node.ofTokens r.1 r.2.1 r.2.2)) (h : Node.ofTokens o' stop ts = .error e) :
    complete o t = .error e := by
  have hresult := ofTokens_error h
  cases t with
  | rawElement element attributes body =>
      rcases earlier with _ | ⟨r, _ | ⟨r', earlier⟩⟩
      · cases hregions
        rcases hresult with hfeed | ⟨b, hfeed, hfinish⟩
        · simp only [complete, hfeed, bind, Except.bind]
        · simp only [complete, hfeed, hfinish, bind, Except.bind]
      · cases hregions
        obtain ⟨nodes, hnodes⟩ := hearlier _ List.mem_cons_self
        obtain ⟨b', hfeed', hfinish'⟩ := bind_eq_ok.mp hnodes
        rcases hresult with hfeed | ⟨b, hfeed, hfinish⟩
        · simp only [complete, hfeed', hfinish', hfeed, bind, Except.bind]
        · simp only [complete, hfeed', hfinish', hfeed, hfinish, bind, Except.bind]
      · simp [Token.regions] at hregions
  | voidElement | selfClosing | elementOpen | valueAttribute | statements | rawTag =>
      rcases List.singleton_eq_append_iff.mp hregions with ⟨_, hregion⟩ | ⟨_, hregion⟩
      · cases hregion
        rcases hresult with hfeed | ⟨b, hfeed, hfinish⟩
        · simp only [complete, hfeed, bind, Except.bind]
        · simp only [complete, hfeed, hfinish, bind, Except.bind]
      · cases hregion
  | _ => simp [Token.regions] at hregions

inductive TooDeep : Options → List Token → Prop
  | here {o : Options} {before after : List Token} {t : Token} {b : Nesting} {item : Item} :
      feed o {} before = .ok b → complete o t = .ok item → maxDepth < Frame.depth b.stack + item.levels →
      TooDeep o (before ++ t :: after)
  | inside {o o' : Options} {before after ts : List Token} {t : Token} {b : Nesting} {stop : Nat}
      {earlier later : List (Options × Nat × List Token)} :
      feed o {} before = .ok b → t.regions o = earlier ++ (o', stop, ts) :: later →
      (∀ r ∈ earlier, Succeeds (Node.ofTokens r.1 r.2.1 r.2.2)) → TooDeep o' ts → TooDeep o (before ++ t :: after)

theorem ofTokens_tooDeep (h : TooDeep o ts) :
    ∃ span, ∀ stop, Node.ofTokens o stop ts = .error (.misnested .tooDeep span) := by
  induction h with
  | @here o before after t b item hbefore hitem hdeep =>
      have hsound := feed_sound Span.fits_true sound_empty (fun _ _ => trivial) hbefore
      obtain ⟨span, hspan⟩ := step_tooDeep o.mode (Frame.depth_le hsound.stack) hdeep
      refine ⟨span, fun stop => ?_⟩
      rw [Node.ofTokens, feed_append_ok hbefore, feed, hitem]
      simp only [bind, Except.bind, hspan]
  | @inside o o' before after ts t b stop' earlier later hbefore hregions hearlier _ ih =>
      obtain ⟨span, hspan⟩ := ih
      refine ⟨span, fun stop => ?_⟩
      rw [Node.ofTokens, feed_append_ok hbefore, feed, complete_error hregions hearlier (hspan stop')]
      rfl

end Nesting

/-- In a document, and in each list of nodes below it that is built by itself, no more than `maxDepth` constructs
stand in each other.  Where tokens open more of them at once, the template is rejected. -/
theorem Document.height_parse (o : Options) (entry : Entry) (source : String) :
    (∀ d, parse o entry source = .ok d → nodesHeight false d.children ≤ maxDepth ∧
      ∀ n, .node n ∈ d.walk → ∀ region ∈ n.regions, nodesHeight false region ≤ maxDepth) ∧
    ∀ ts, Nesting.TooDeep o ts →
      ∃ e : Error, e.category = "structural" ∧ e.message = "Nesting exceeds the maximum depth of 512" ∧
        (∀ stop, Node.ofTokens o stop ts = .error e) ∧
        (Token.read ⟨0, o.mode⟩ entry source.toList = .ok ts → parse o entry source = .error e) := by
  constructor
  · intro d h
    obtain ⟨ts, _, h⟩ := bind_eq_ok.mp h
    obtain ⟨nodes, hnodes, h⟩ := bind_eq_ok.mp h
    cases h
    obtain ⟨b, hfeed, hfinish⟩ := bind_eq_ok.mp hnodes
    have hfed := Nesting.feed_sound Span.fits_true Nesting.sound_empty (fun _ _ => trivial) hfeed
    have hsound := hfed.finish Span.fits_true trivial hfinish
    refine ⟨Node.Sound.region hsound, ?_⟩
    intro n hn
    exact (Node.Sound.walkAll hsound _ hn).2.2
  · intro ts hts
    obtain ⟨span, hspan⟩ := Nesting.ofTokens_tooDeep hts
    refine ⟨.misnested .tooDeep span, rfl, rfl, hspan, ?_⟩
    intro hread
    simp only [parse, hread, hspan, bind, Except.bind]

def tagInAttribute : String :=
  "\x7b% if a %\x7d<b c='\x7b% for d in e %\x7df\x7b% endfor %\x7d'></b>\x7b% endif %\x7d"

def branchingOpen : Token := .tagOpen ⟨"if", .text "a", .point 0, {}, .point 0⟩

theorem Document.height_parse_tagInAttribute :
    (∃ d, parse {} .liquidHtml tagInAttribute = .ok d ∧ nodesHeight true d.children = 5 ∧
      nodesHeight false d.children ≤ maxDepth ∧
      ∀ n, .node n ∈ d.walk → ∀ region ∈ n.regions, nodesHeight false region ≤ maxDepth) ∧
    ∃ e : Error, e.category = "structural" ∧
      ∀ stop, Node.ofTokens {} stop (List.replicate 257 branchingOpen) = .error e := by
  obtain ⟨hbound, hdeep⟩ := height_parse {} .liquidHtml tagInAttribute
  constructor
  · have hheight : (parse {} .liquidHtml tagInAttribute).toOption.map (nodesHeight true ·.children) = some 5 := by
      decide +kernel
    obtain ⟨d, hd, hheight⟩ := Option.map_eq_some_iff.mp hheight
    have hparse := toOption_eq_some.mp hd
    exact ⟨d, hparse, hheight, hbound d hparse⟩
  · have hdepth : (Nesting.feed {} {} (List.replicate 256 branchingOpen)).toOption.map (Frame.depth ·.stack) =
        some 512 := by decide +kernel
    obtain ⟨b, hb, hdepth⟩ := Option.map_eq_some_iff.mp hdepth
    have htooDeep : Nesting.TooDeep {} (List.replicate 256 branchingOpen ++ [branchingOpen]) := by
      refine .here (toOption_eq_some.mp hb) rfl ?_
      rw [hdepth]
      decide
    obtain ⟨e, hcategory, _, herror, _⟩ := hdeep _ htooDeep
    rw [← List.replicate_succ'] at herror
    exact ⟨e, hcategory, herror⟩

def statementChain : Nat → List Char
  | 0 => ['x', ' ', 'y']
  | n + 1 => 'l' :: ['i', 'q', 'u', 'i', 'd'] ++ ' ' :: statementChain n

theorem letters_statementChain (n : Nat) : ∀ x ∈ statementChain n, x ∈ "liquid xy".toList := by
  induction n with
  | zero => simp [statementChain]
  | succ n ih =>
      refine List.forall_mem_append.mpr ⟨by simp, List.forall_mem_cons.mpr ⟨by decide, ih⟩⟩

theorem statementChain_ne_nil (n : Nat) : statementChain n ≠ [] := by
  cases n with
  | zero => exact List.cons_ne_nil _ _
  | succ n => exact List.cons_ne_nil _ _

theorem trimmed_statementChain (n : Nat) : Peg.Trimmed inlineLetters (statementChain n) := by
  constructor
  · intro x hx
    cases n with
    | zero =>
        cases hx
        decide
    | succ n =>
        cases hx
        decide
  · have hlast : (statementChain n).getLast? = some 'y' := by
      induction n with
      | zero => rfl
      | succ n ih =>
          rw [statementChain, List.getLast?_append, List.getLast?_cons, ih]
          rfl
    intro x hx
    rw [hlast] at hx
    cases hx
    decide

theorem inline_statementChain (n : Nat) : Inline (statementChain n) where
  unbroken x hx := by
    have hletters : ∀ x ∈ "liquid xy".toList, x ∉ ['\n', '\r', '\x0c'] := by simp
    exact hletters x (letters_statementChain n x hx)
  unended h := by
    have hpercent := letters_statementChain n '%' (h.subset List.mem_cons_self)
    exact absurd hpercent (by decide)

namespace Token

variable {k : Nat} {mode : Mode}

/-- A statement with a name and a markup is read by these. -/
theorem read_tag {x : Char} {w m : List Char} (hname : isNameStart x) (hx : x ∉ reservedLetters)
    (hw : ∀ y ∈ w, isNameChar y) (hm : m ≠ []) (htrimmed : Peg.Trimmed inlineLetters m) (hinline : Inline m)
    (region : Region) :
    ∃ markupSpan span, read region .statements (x :: w ++ ' ' :: m) =
      (fun t => [t]) <$> tagOfParts read region .tag (String.ofList (x :: w)) m markupSpan {} span := by
  obtain ⟨p, name, markup, hone, hp, hchildren, hrule, hname, hrule', hmarkup⟩ :=
    oneNode_tag hname hw hm htrimmed hinline hx
  refine ⟨markup.span region.offset, p.span region.offset, ?_⟩
  have hfind : p.children.find? (isTagNameRule ·.rule) = some name := by simp [hchildren, hrule, isTagNameRule]
  have hfind' : p.children.find? (isTagMarkupRule ·.rule) = some markup := by
    simp [hchildren, hrule, hrule', isTagMarkupRule]
  have htrim : trimOfPairs p.children = {} := by
    simp only [trimOfPairs, hchildren, List.any_cons, hrule, hrule']
    rfl
  rw [read_oneNode .statements hone (by rw [hp]; decide)]
  simp only [ofPair, hp, liquidOfPair]
  rw [tagOfPair_eq (grown_oneNode hone) (Rule.mem_markedRules_of_tag (.inr hp)) hfind (.found hfind'), htrim,
    Peg.Pair.string, hname, hmarkup]

/-- Each statement of a chain is a node around the next one. -/
theorem read_statementChain (n : Nat) (region : Region) :
    ∃ t, read region .statements (statementChain n) = .ok [t] ∧
      ∀ o, ∃ node, Nesting.complete o t = .ok (.leaf node) ∧ node.height true = n := by
  induction n generalizing region with
  | zero =>
      obtain ⟨markupSpan, span, hread⟩ := read_tag (x := 'x') (w := []) (m := ['y']) (by decide) (by decide)
        (List.forall_mem_nil _) (List.cons_ne_nil _ _) ⟨by simp [inlineLetters], by simp [inlineLetters]⟩
        ⟨by simp, by decide⟩ region
      exact ⟨_, hread, fun o => ⟨_, rfl, rfl⟩⟩
  | succ n ih =>
      obtain ⟨markupSpan, span, hread⟩ := read_tag (x := 'l') (w := ['i', 'q', 'u', 'i', 'd']) (by decide) (by decide)
        (List.all_eq_true.mp (by decide)) (statementChain_ne_nil n) (trimmed_statementChain n)
        (inline_statementChain n) region
      obtain ⟨t, ht, hcomplete⟩ := ih ⟨markupSpan.lo, region.mode⟩
      refine ⟨.statements ⟨markupSpan, {}, span⟩ [t], ?_, ?_⟩
      · have hliquid : NamedTag.ofName? (String.ofList ('l' :: ['i', 'q', 'u', 'i', 'd'])) = some .liquid := by decide
        simp only [tagOfParts, hliquid, NamedTag.markupRule?, ht] at hread
        exact hread
      · intro o
        obtain ⟨node, hnode, hheight⟩ := hcomplete o.nested
        refine ⟨.statements {} span [node], ?_, ?_⟩
        · simp only [Nesting.complete, Nesting.feed, hnode]
          rfl
        · simp [Node.height, nodesHeight, hheight]

theorem Respanned.complete {t t' : Token} (h : t.Respanned t') {o : Options} {node : Node}
    (hcomplete : Nesting.complete o t = .ok (.leaf node)) :
    ∃ node', Nesting.complete o t' = .ok (.leaf node') ∧ node'.height true = node.height true := by
  cases h with
  | tagOpen | tagClose => cases hcomplete
  | tag tag span =>
      simp only [Nesting.complete] at hcomplete ⊢
      by_cases hbranch : TagName.isBranch tag.name
      · rw [if_pos hbranch] at hcomplete
        cases hcomplete
      · rw [if_neg hbranch] at hcomplete ⊢
        cases hcomplete
        exact ⟨_, rfl, rfl⟩
  | statements head body span =>
      simp only [Nesting.complete, bind_eq_ok, pure_eq_ok] at hcomplete ⊢
      obtain ⟨b, hfeed, nodes, hfinish, hleaf⟩ := hcomplete
      cases hleaf
      exact ⟨_, ⟨b, hfeed, nodes, hfinish, rfl⟩, by simp only [Node.height]⟩

end Token

def liquidChain (n : Nat) : String := String.ofList (tagBegin ++ statementChain n ++ tagEnd)

theorem line_statementChain (n : Nat) : Line (statementChain n) where
  inline := inline_statementChain n
  nonblank := by
    obtain ⟨x, rest, hx⟩ := List.exists_cons_of_ne_nil (statementChain_ne_nil n)
    exact ⟨x, by simp [hx], (trimmed_statementChain n).head x (by simp [hx])⟩
  uncommented := by
    rw [← List.nil_append (statementChain n),
      Peg.dropWhile_run (List.forall_mem_nil _) (trimmed_statementChain n).head]
    intro h
    have hletter := letters_statementChain n 'c' (h.subset List.mem_cons_self)
    exact absurd hletter (by decide)

/-- Lists that are built by themselves may stand in each other as deep as one likes. -/
theorem Document.parse_liquidChain (n : Nat) :
    ∃ d, parse {} .liquid (liquidChain n) = .ok d ∧ nodesHeight true d.children = n := by
  obtain ⟨t, ht, hcomplete⟩ := Token.read_statementChain n ⟨0 + byteLength tagBegin, .tolerant⟩
  have htally := Token.tally_read_line (line_statementChain n) 0 .tolerant
  rw [ht] at htally
  generalize hread : Token.read ⟨0, .tolerant⟩ .liquid (tagBegin ++ statementChain n ++ tagEnd) = result at htally
  cases htally with
  | ok h =>
      obtain ⟨_, t', ⟨⟩, rfl, hspan⟩ := h
      obtain ⟨node, hnode, hheight⟩ := hcomplete {}
      obtain ⟨node', hnode', hheight'⟩ := hspan.complete hnode
      have hread' : Token.read ⟨0, .tolerant⟩ .liquid (liquidChain n).toList = .ok [t'] := by
        rw [liquidChain, String.toList_ofList]
        exact hread
      have hnodes : ∀ stop, Node.ofTokens {} stop [t'] = .ok [node'] := by
        intro stop
        rw [Node.ofTokens, Nesting.feed, hnode']
        rfl
      refine ⟨⟨[node'], liquidChain n, .between 0 (byteLength (liquidChain n).toList)⟩, ?_, ?_⟩
      · simp only [parse, hread', hnodes, bind, Except.bind]
        rfl
      · simp [nodesHeight, hheight', hheight]

theorem Document.maxDepth_lt_liquidChain :
    ∃ d, parse {} .liquid (liquidChain 513) = .ok d ∧ maxDepth < nodesHeight true d.children := by
  obtain ⟨d, hd, hheight⟩ := parse_liquidChain 513
  exact ⟨d, hd, by rw [hheight]; decide⟩

end LiquidTemplate
