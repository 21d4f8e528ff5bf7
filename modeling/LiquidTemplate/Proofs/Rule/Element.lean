import LiquidTemplate.Proofs.Rule.Raw
import LiquidTemplate.Proofs.Rule.Twins

namespace LiquidTemplate

open Text
open Peg Peg.Expr Rule

def closingText (name : List Char) : List Char := ['<', '/'] ++ name ++ ['>']

def elementText (name attributes body closingName : List Char) : List Char :=
  ['<'] ++ name ++ attributes ++ ['>'] ++ (body ++ closingText closingName)

theorem elementCloser_closingText (name : List Char) : ElementCloser name (closingText name) :=
  ⟨[], List.forall_mem_nil _, by simp [closingText]⟩

variable {c : Context} {s : State Rule} {name rest : List Char} {names : List (List Char)}

theorem gives_elementCloser_none (hc : c.atomicity ≠ .spaced) (hstack : s.stack = name :: names)
    (hs : ∀ word, ElementCloser name word → ¬word <+: s.rest) :
    Gives grammar c (lit "</" ++ .top ++ spaces ++ lit ">") s none := by
  obtain ⟨o, h⟩ := Grammar.gives_total (e := lit "</" ++ .top ++ spaces ++ lit ">") (s := s) bounded_grammar
    balanced_grammar c (by decide) ⟨1, 1, by decide, by simp [hstack]⟩
  cases o with
  | none => exact h
  | some t =>
      obtain ⟨t', h, _⟩ := h.derives
      obtain ⟨s₃, h, hstop⟩ := h.seq_meets hc
      obtain ⟨s₂, h, hspaces⟩ := h.seq_meets hc
      obtain ⟨s₁, hslash, htop⟩ := h.seq_meets hc
      obtain ⟨blanks, hspaces, hblanks⟩ := takes_spaces hc hspaces
      have hstack₁ : s₁.stack = name :: names := (stack_eq rfl hslash).trans hstack
      have hname : s₁.Takes s₂ name [] := by
        cases htop with
        | top hstack' hrest =>
            cases hstack₁.symm.trans hstack'
            exact ⟨stripWord?_eq_some hrest, rfl, rfl⟩
      have hall := ((hslash.takes_word.trans hname).trans hspaces).trans hstop.takes_word
      exact absurd ⟨_, hall.rest_eq.symm⟩ (hs _ ⟨blanks, hblanks, rfl⟩)

/-- A body without closers goes on to the first one. -/
theorem gives_htmlRawBody {body : List Char} (hc : c.atomicity ≠ .spaced) (hname : '<' ∉ name)
    (hbody : ∀ word, ElementCloser name word → ¬word <:+: body) (hstack : s.stack = name :: names)
    (hs : s.rest = body ++ closingText name) :
    Gives grammar c (grammar.body htmlRawBody) s (some (s.over body (closingText name))) := by
  have hc' : c.notAhead.atomicity ≠ .spaced := by rwa [Context.atomicity_notAhead]
  refine gives_until0 hc ?_ ?_ hstack hs
  · rintro s x v hstack ⟨u, rfl⟩ hs
    refine gives_elementCloser_none hc' hstack ?_
    rintro word hword ⟨more, hmore⟩
    have hsplit : (u ++ x :: v) ++ (closingText name ++ []) = u ++ (word ++ more) := by
      rw [hmore, hs]
      simp
    have hstarts := (headsOnly_elementCloser hname).not_starts (hbody word hword) (elementCloser_closingText name)
      hword hsplit
    have hlength := hstarts.length_le
    rw [List.length_append, List.length_cons] at hlength
    omega
  · intro s hstack hs
    have hs' : s.rest = closingText name ++ [] := by rw [hs, List.append_nil]
    obtain ⟨t, ht⟩ := gives_elementCloser hc' hstack (elementCloser_closingText name) hs'
    exact gives_unless_stop ht

/-- No name of a raw element starts with another one. -/
theorem rawNames_apart (n : List Char) (hn : n ∈ rawNames) (n' : List Char) (hn' : n' ∈ rawNames) (h : n <+: n') :
    n = n' := by
  revert n n'
  decide

theorem map_toLower_rawName (n : List Char) (hn : n ∈ rawNames) : n.map Char.toLower = n := by
  revert n
  decide

theorem gives_caseless_over {w : List Char} (hw : name.map Char.toLower = w.map Char.toLower)
    (hs : s.rest = name ++ rest) : Gives grammar c (.caseless w) s (some (s.over name rest)) := by
  have h : Gives grammar c (.caseless w) s _ := gives_caseless
  have hstrip : stripCaseless? w s.rest = some rest := stripCaseless?_eq_some_iff.mpr ⟨name, hs, hw⟩
  obtain ⟨w', hw', hlength⟩ := stripCaseless?_eq_some hstrip
  obtain rfl := List.append_cancel_right (hs.symm.trans hw')
  rwa [hstrip, Option.map_some, State.over, ← hlength] at h

/-- Where the name of a raw element stands, no other one is seen. -/
theorem gives_caseless_none {n : List Char} (hn : n ∈ rawNames) (hname : name.map Char.toLower ∈ rawNames)
    (hne : name.map Char.toLower ≠ n) (hs : s.rest = name ++ rest) : Gives grammar c (.caseless n) s none := by
  have h : Gives grammar c (.caseless n) s _ := gives_caseless
  cases hstrip : stripCaseless? n s.rest with
  | none => rwa [hstrip] at h
  | some rest' =>
      obtain ⟨w, hw, hlower⟩ := stripCaseless?_eq_some_iff.mp hstrip
      rw [map_toLower_rawName n hn] at hlower
      have hprefix : w <+: name ∨ name <+: w :=
        List.prefix_or_prefix_of_prefix ⟨rest', (hs.symm.trans hw).symm⟩ (List.prefix_append name rest)
      exfalso
      rcases hprefix with ⟨v, rfl⟩ | ⟨v, rfl⟩
      · exact hne (rawNames_apart n hn _ hname ⟨v.map Char.toLower, by rw [← hlower, List.map_append]⟩).symm
      · exact hne (rawNames_apart _ hname n hn ⟨v.map Char.toLower, by rw [← hlower, List.map_append]⟩)

theorem gives_htmlRawName (hc : c.leavesPair) (hname : name.map Char.toLower ∈ rawNames)
    (hrest : ∀ x ∈ rest.head?, x ∈ '>' :: spaceLetters) (hs : s.rest = name ++ rest) :
    Gives grammar c (call htmlRawName) s (some (s.past name rest [s.pair htmlRawName name []])) := by
  have hc' : (c.inside .atomic).atomicity ≠ .spaced := Atomicity.noConfusion
  have hword : Gives grammar (c.inside .atomic) (litCaseless "script" ||| litCaseless "style" ||| litCaseless "svg") s
      (some (s.over name rest)) := by
    have hnone := fun {n} hn hne => gives_caseless_none (c := c.inside .atomic) (n := n) hn hname hne hs
    have hcases := hname
    simp only [rawNames, List.mem_cons, List.not_mem_nil, or_false] at hcases
    rcases hcases with h | h | h
    · exact (gives_caseless_over (h.trans (by decide)) hs).first.first
    · have hfirst := hnone (n := "script".toList) (by decide) (by rw [h]; decide)
      exact (hfirst.alt (gives_caseless_over (h.trans (by decide)) hs)).first
    · have hfirst := hnone (n := "script".toList) (by decide) (by rw [h]; decide)
      have hsecond := hnone (n := "style".toList) (by decide) (by rw [h]; decide)
      exact (hfirst.alt hsecond).alt (gives_caseless_over (h.trans (by decide)) hs)
  have hletter : Gives grammar (c.inside .atomic).notAhead (call nameChar) (s.over name rest) none := by
    have htest : Gives grammar (c.inside .atomic).notAhead (grammar.body nameChar) (s.over name rest) _ :=
      gives_test rfl
    rw [State.one?_of_not] at htest
    · exact (gives_silent rfl).mpr htest
    · intro x hx
      have hx := hrest x hx
      simp only [spaceLetters, List.mem_cons, List.not_mem_nil, or_false] at hx
      rcases hx with rfl | rfl | rfl | rfl | rfl | rfl <;> decide
  have hahead := gives_notAhead.mpr (.inr ⟨hletter, rfl⟩)
  have hbody := Gives.seq_idle hc' hword hahead
  exact .pair_past (r := htmlRawName) rfl Kind.noConfusion rfl hc hs hbody

def inDocument : Context := Context.top.inside .compound

def behindName (name more : List Char) : State Rule := ⟨more, 1 + byteLength name, [name], [], .none⟩

def Attributed (name attributes rest : List Char) (ps : List (Pair Rule)) : Prop :=
  ∃ t, Derives grammar inDocument (call attrList ++ spaces ++ lit ">") (behindName name (attributes ++ '>' :: rest)) t ∧
    (behindName name (attributes ++ '>' :: rest)).Takes t (attributes ++ ['>']) ps

/-- The attributes and what closes the opening can be matched on their own. -/
theorem agree_opening (lead : Expr Rule) :
    Agree grammar (fun _ => True) (lead ++ (call attrList ++ spaces ++ lit ">"))
      (lead ++ call attrList ++ spaces ++ lit ">") := by
  have hflat : Agree grammar (fun _ => True) (lead ++ (call attrList ++ spaces) ++ lit ">")
      (lead ++ call attrList ++ spaces ++ lit ">") :=
    (Agree.assoc _ _ _).seq (fun _ _ _ => trivial) (.refl _)
  have hnest : Agree grammar (fun _ => True) (lead ++ (call attrList ++ spaces ++ lit ">"))
      (lead ++ (call attrList ++ spaces) ++ lit ">") :=
    .assoc _ _ _
  exact fun c s o hc hs h => hflat c s o hc hs (hnest c s o hc hs h)

theorem gives_opening {attributes text : List Char} {ps : List (Pair Rule)}
    (hname : name.map Char.toLower ∈ rawNames) (hhead : ∀ x ∈ attributes.head?, x ∈ spaceLetters)
    (htext : text = '<' :: (name ++ (attributes ++ '>' :: rest))) (h : Attributed name attributes rest ps) :
    ∃ t p, Gives grammar inDocument (lit "<" ++ push (call htmlRawName) ++ call attrList ++ spaces ++ lit ">")
        (Grammar.initial text) (some t) ∧
      t.rest = rest ∧ t.stack = [name] ∧ t.pairs = ps.reverse ++ [p] := by
  have hc : inDocument.atomicity ≠ .spaced := Atomicity.noConfusion
  have hless : Gives grammar inDocument (lit "<") (Grammar.initial text) _ := gives_word_over (w := ['<']) htext
  have hhead' : ∀ x ∈ (attributes ++ '>' :: rest).head?, x ∈ '>' :: spaceLetters := by
    cases attributes with
    | nil => simp
    | cons x attributes => exact fun y hy => List.mem_cons_of_mem _ (hhead y hy)
  have hpush := gives_push_past rfl (gives_htmlRawName (c := inDocument)
    (s := (Grammar.initial text).over ['<'] (name ++ (attributes ++ '>' :: rest))) rfl hname hhead' rfl)
  obtain ⟨t, h, htakes⟩ := h
  have hrest : t.rest = rest := by
    have heq := htakes.rest_eq
    rw [behindName, List.append_assoc] at heq
    exact (List.cons.inj (List.append_cancel_left heq)).2.symm
  have hopen := Gives.of_takes h htakes (stack_eq rfl h)
  have hall := (hless.seq hc hpush).seq hc (hopen.same ⟨rfl, rfl, rfl⟩)
  exact ⟨_, _, agree_opening _ _ _ _ hc trivial hall, hrest, rfl, rfl⟩

/-- An element that is opened and closed by the same name is a raw element. -/
theorem gives_htmlRawTag {attributes body text : List Char} {ps : List (Pair Rule)}
    (hname : name.map Char.toLower ∈ rawNames) (hhead : ∀ x ∈ attributes.head?, x ∈ spaceLetters)
    (hbody : ∀ word, ElementCloser name word → ¬word <:+: body) (htext : text = elementText name attributes body name)
    (h : Attributed name attributes (body ++ closingText name) ps) :
    ∃ p q q', Gives grammar inDocument (call htmlRawTag) (Grammar.initial text)
        (some ((Grammar.initial text).past text [] [p])) ∧
      p.rule = htmlRawTag ∧ p.children = q :: (ps ++ [q']) ∧ q'.text = body := by
  have hc : inDocument.atomicity ≠ .spaced := Atomicity.noConfusion
  have hless : '<' ∉ name := not_mem_rawName hname (by decide)
  have hopened : text = '<' :: (name ++ (attributes ++ '>' :: (body ++ closingText name))) := by
    rw [htext]
    simp [elementText]
  obtain ⟨t, q, hopen, hrest, hstack, hpairs⟩ := gives_opening hname hhead hopened h
  have hcontent : Gives grammar inDocument (call htmlRawBody) t _ :=
    .pair_past rfl Kind.noConfusion rfl rfl hrest (gives_htmlRawBody Atomicity.noConfusion hless hbody hstack hrest)
  have hslash : ∀ u : State Rule, u.rest = closingText name →
      Gives grammar inDocument (lit "</") u (some (u.over ['<', '/'] (name ++ ['>']))) :=
    fun u hu => gives_word_over hu
  have hpop : ∀ u : State Rule, u.stack = [name] → u.rest = name ++ ['>'] → Gives grammar inDocument pop u _ :=
    fun u hu => gives_pop_over hu
  have hblanks : ∀ u : State Rule, u.rest = ['>'] → Gives grammar inDocument spaces u (some (u.over [] ['>'])) :=
    fun u => gives_spaces hc (List.forall_mem_nil _) (by simp [spaceLetters])
  have hstop : ∀ u : State Rule, u.rest = ['>'] → Gives grammar inDocument (lit ">") u (some (u.over ['>'] [])) :=
    fun u hu => gives_word_over hu
  have hcontents := (hopen.seq hc hcontent).seq hc (hslash _ rfl)
  have hclosed := ((hcontents.seq hc (hpop _ hstack rfl)).seq hc (hblanks _ rfl)).seq hc (hstop _ rfl)
  obtain ⟨u, hu, hrest, hstack, hpairs'⟩ :
      ∃ u, Gives grammar inDocument (grammar.body htmlRawTag) (Grammar.initial text) (some u) ∧ u.rest = [] ∧
        u.stack = [] ∧ u.pairs = t.pair htmlRawBody body [] :: t.pairs :=
    ⟨_, hclosed, rfl, rfl, rfl⟩
  have hsplit : text = text ++ [] := (List.append_nil _).symm
  rw [hu.eq_past (w := text) (by rwa [hrest]) hstack, hrest] at hu
  have htag := Gives.pair_past (r := htmlRawTag) (c := inDocument) rfl Kind.noConfusion rfl rfl hsplit hu
  refine ⟨_, q, t.pair htmlRawBody body [], htag, rfl, ?_, rfl⟩
  rw [State.pair, hpairs', hpairs]
  simp

theorem gives_htmlNode_end (hs : s.rest = []) : Gives grammar c (call htmlNode) s none :=
  gives_none_at_end (k := 0) (by decide) (by decide) (by decide) c hs

/-- What does not start with blanks or dashes has nothing in front of its nodes. -/
theorem gives_documentLead {text : List Char} (hblank : ∀ x ∈ text.head?, x ∉ spaceLetters)
    (hdash : ¬"---".toList <+: text) :
    Gives grammar inDocument (start ++ spaces ++ opt (call yamlFrontmatter)) (Grammar.initial text)
      (some (Grammar.initial text).bare) := by
  have hc : inDocument.atomicity ≠ .spaced := Atomicity.noConfusion
  have hblanks : Gives grammar inDocument spaces (Grammar.initial text).bare _ :=
    gives_spaces (v := []) hc (List.forall_mem_nil _) hblank rfl
  exact ((gives_start rfl).seq hc hblanks).seq hc (gives_noFrontmatter hdash rfl)

theorem oneNode_rawElement {attributes body : List Char} {ps : List (Pair Rule)}
    (hname : name.map Char.toLower ∈ rawNames) (hhead : ∀ x ∈ attributes.head?, x ∈ spaceLetters)
    (hbody : ∀ word, ElementCloser name word → ¬word <:+: body)
    (h : Attributed name attributes (body ++ closingText name) ps) :
    ∃ p q q', OneNode liquidHtmlDocument (elementText name attributes body name) p ∧ p.rule = htmlRawTag ∧
      p.children = q :: (ps ++ [q']) ∧ q'.text = body := by
  obtain ⟨p, q, q', htag, hrule, hchildren, htext⟩ := gives_htmlRawTag hname hhead hbody rfl h
  -- the name is not a mark of declarations
  have hmark : '!' ∉ name := not_mem_rawName hname (by decide)
  have hnone : ∀ {r w}, r.needs = 0 → (grammar.body r).opens = some ('<' :: '!' :: w) →
      Gives grammar inDocument (call r) (Grammar.initial (elementText name attributes body name)) none := by
    intro r w hr hopens
    refine gives_call_none hr hopens _ ?_
    intro rest hrest
    cases name with
    | nil => exact absurd hname (by decide)
    | cons x name =>
        obtain ⟨rfl, _⟩ := List.cons.inj (List.cons.inj hrest).2
        exact hmark List.mem_cons_self
  have hnode : Gives grammar inDocument (call htmlNode) _ _ :=
    (gives_silent rfl).mpr (((hnone rfl rfl).alt (hnone rfl rfl)).alt htag).first.first.first.first.first.first
  have hhead' : ∀ x ∈ (elementText name attributes body name).head?, x ∉ spaceLetters := by
    simp [elementText, spaceLetters]
  have hlead := gives_documentLead hhead' (by simp [elementText])
  obtain ⟨t, q₀, ht, hpairs, hq₀⟩ := gives_whole_one (s := Grammar.initial _) (b := []) Atomicity.noConfusion
    (List.forall_mem_nil _) hhead' rfl hlead (List.forall_mem_nil _) gives_htmlNode_end rfl hnode
  exact ⟨p, q, q', oneNode_of_gives rfl rfl ht hpairs hq₀, hrule, hchildren, htext⟩

def Rule.nodes : Rule → Bool
  | htmlNode | htmlDoctype | htmlComment | htmlRawTag | htmlVoidElement | htmlSelfClosing | htmlTagClose | htmlTagOpen
  | liquidNode | liquidRawTag | liquidTagClose | liquidTagOpen | liquidTag | liquidDrop | textNode => true
  | _ => false

theorem picks_nodes (r : Rule) : r.nodes → grammar.kind r = .silent → (grammar.body r).picks Rule.nodes := by
  cases r <;> decide

/-- The first node of a document with nothing in front of it is matched at the start of the text. -/
theorem derives_firstNode {text : List Char} {whole p : Pair Rule} {ps : List (Pair Rule)}
    (hblank : ∀ x ∈ text.head?, x ∉ spaceLetters) (hdash : ¬"---".toList <+: text)
    (hparse : grammar.parse liquidHtmlDocument text = .ok [whole])
    (hps : whole.children.filter (·.rule != endOfInput) = p :: ps) :
    ∃ s t, s.Same (Grammar.initial text) ∧ Derives grammar inDocument (call p.rule) s t ∧ s.Takes t p.text [p] := by
  have hc : inDocument.atomicity ≠ .spaced := Atomicity.noConfusion
  obtain ⟨_, t, hwhole, _, _, h, htakes⟩ := Grammar.parse_ok hparse rfl
  cases hwhole
  obtain ⟨s₃, h, hend⟩ := h.seq_meets hc
  obtain ⟨s₂, h, hspaces⟩ := h.seq_meets hc
  obtain ⟨s₁, hlead, hnodes⟩ := h.seq_meets hc
  obtain ⟨e, hend, hrule, _⟩ := hend.takes_call (by decide) rfl
  obtain ⟨_, hspaces, _⟩ := takes_spaces hc hspaces
  obtain ⟨u, hu, hsame, hpairs⟩ := gives_of_derives hlead
  cases hu.unique (gives_documentLead hblank hdash)
  have hlead : (Grammar.initial text).Takes s₁ [] [] := ⟨hsame.rest, hsame.offset.symm, hpairs⟩
  cases hnodes with
  | @none _ _ _ r =>
      have hnodes : s₁.Takes { s₁ with attempts := r } [] [] := .idle r
      obtain ⟨_, hchildren⟩ := htakes.unique (((hlead.trans hnodes).trans hspaces).trans hend)
      rw [hchildren] at hps
      simp [hrule] at hps
  | some hround hmore =>
      obtain ⟨v, hv, hnode⟩ := hround.seq_meets hc
      have hstack : v.stack = [] := (stack_eq rfl hv).trans hsame.stack.symm
      obtain ⟨blanks, hv, hblanks⟩ := takes_spaces hc hv
      obtain rfl : blanks = [] := by
        cases blanks with
        | nil => rfl
        | cons x blanks =>
            have hrest : text = x :: blanks ++ v.rest := hsame.rest.trans hv.rest_eq
            exact absurd (hblanks x List.mem_cons_self) (hblank x (by simp [hrest]))
      obtain ⟨q, r, hq, hknown, _, _, hcall⟩ := hnode.takes_pick picks_nodes rfl rfl
      obtain ⟨_, qs, hmore, _⟩ := hmore.takes
      have hall := ((hlead.trans ((hv.trans hq).trans hmore)).trans hspaces).trans hend
      obtain ⟨_, hchildren⟩ := htakes.unique hall
      have hnotEnd : q.rule ≠ endOfInput := by
        intro hend
        rw [hend] at hknown
        cases hknown
      rw [hchildren] at hps
      simp only [List.nil_append, List.append_assoc, List.cons_append, List.filter_cons, bne_iff_ne, hnotEnd, ne_eq,
        not_false_eq_true, if_true] at hps
      cases hps
      have hsame' : State.Same { v with attempts := r } (Grammar.initial text) :=
        ⟨hv.rest_eq.symm.trans hsame.rest.symm, hv.offset_eq.trans hsame.offset.symm, hstack⟩
      exact ⟨_, _, hsame', hcall, hq.rest_eq, hq.offset_eq, hq.pairs_eq⟩

/-- Texts from the last time on that a letter is in them. -/
theorem append_cons_inj {x : Char} {v w v' w' : List Char} (hw : x ∉ w) (hw' : x ∉ w')
    (h : v ++ x :: w = v' ++ x :: w') : v = v' ∧ w = w' := by
  rcases List.append_eq_append_iff.mp h with ⟨u, rfl, hu⟩ | ⟨u, rfl, hu⟩
  all_goals
    cases u with
    | nil => exact ⟨by simp, by simpa [eq_comm] using hu⟩
    | cons y u =>
        obtain ⟨rfl, rfl⟩ := List.cons.inj hu
        simp at hw hw'

/-- A text that has a name at its start and at its end can be cut up as an element with a given body in one way only,
and then the names are the same. -/
theorem elementText_eq {name' attributes body n attributeText closing : List Char}
    (hname : name.map Char.toLower ∈ rawNames) (hname' : name'.map Char.toLower = name.map Char.toLower)
    (hn : n.map Char.toLower ∈ rawNames) (hclosing : ElementCloser n closing)
    (h : elementText name attributes body name' = ['<'] ++ n ++ attributeText ++ ['>'] ++ (body ++ closing)) :
    name' = name ∧ n = name ∧ attributeText = attributes := by
  have hletters : ∀ {w : List Char} {x : Char}, w.map Char.toLower ∈ rawNames → x ∈ '<' :: spaceLetters → x ∉ w := by
    intro w x hw hx
    simp only [spaceLetters, List.mem_cons, List.not_mem_nil, or_false] at hx
    refine not_mem_rawName hw ?_
    rcases hx with rfl | rfl | rfl | rfl | rfl | rfl <;> decide
  have hless : '<' ∈ '<' :: spaceLetters := List.mem_cons_self
  obtain ⟨tail, htail, hnone⟩ := headsOnly_elementCloser (hletters hn hless) closing hclosing
  have hname₂ : name'.map Char.toLower ∈ rawNames := hname' ▸ hname
  obtain ⟨tail', htail', hnone'⟩ :=
    headsOnly_elementCloser (hletters hname₂ hless) _ (elementCloser_closingText name')
  rw [elementText, htail, htail', ← List.append_assoc, ← List.append_assoc] at h
  obtain ⟨hfront, rfl⟩ := append_cons_inj hnone' hnone h
  -- the end: the name, and no blanks after it
  obtain ⟨blanks, hblanks, heq⟩ := hclosing
  rw [htail, ← htail', closingText] at heq
  have hend : name' = n ++ blanks := by
    rw [List.append_assoc _ n] at heq
    exact List.append_cancel_left (List.append_cancel_right heq)
  have hempty : blanks = [] := by
    refine List.eq_nil_iff_forall_not_mem.mpr fun x hx => ?_
    exact hletters hname₂ (List.mem_cons_of_mem _ (hblanks x hx)) (by simp [hend, hx])
  rw [hempty, List.append_nil] at hend
  subst hend
  -- the front: names of the same length
  have hfront : name ++ attributes = name' ++ attributeText :=
    (List.cons.inj (List.append_cancel_right (List.append_cancel_right hfront))).2
  have hlength : name.length = name'.length := by simpa using congrArg List.length hname'.symm
  obtain ⟨rfl, rfl⟩ := List.append_inj hfront hlength
  exact ⟨rfl, rfl, rfl⟩

/-- A document that is one raw element is closed by the name it is opened by, and what is between its name and its
body are attributes. -/
theorem written_of_rawElement {name' attributes body text : List Char} {whole p : Pair Rule}
    (hname : name.map Char.toLower ∈ rawNames) (hname' : name'.map Char.toLower = name.map Char.toLower)
    (htext : text = elementText name attributes body name')
    (hparse : grammar.parse liquidHtmlDocument text = .ok [whole])
    (hp : whole.children.filter (·.rule != endOfInput) = [p]) (hrule : p.rule = htmlRawTag) (hwhole : p.text = text)
    {q : Pair Rule} (hlast : p.children.getLast? = some q) (hbody : q.text = body) :
    name' = name ∧ ∃ q' ps, p.children = q' :: (ps ++ [q]) ∧
      Attributed name attributes (body ++ closingText name') ps := by
  have hblank : ∀ x ∈ text.head?, x ∉ spaceLetters := by
    rw [htext]
    simp [elementText, spaceLetters]
  obtain ⟨s, t, hsame, h, htakes⟩ := derives_firstNode hblank (by simp [htext, elementText]) hparse hp
  rw [hrule] at h
  obtain ⟨u, h, htakes', _⟩ := h.call_inner (by decide) rfl
  obtain ⟨hconsumed, hpair⟩ := htakes.unique htakes'
  obtain ⟨named, bodied, ps, attributeText, closing, v, w, hrun⟩ := elementRun_of_derives rfl Atomicity.noConfusion h
  have hall := (hrun.name_takes.trans hrun.attributes_takes).trans hrun.body_takes
  have hchildren : p.children = named :: (ps ++ [bodied]) := by
    have hpairs := hall.pairs_eq
    cases hpair
    simp [hpairs]
  obtain rfl : bodied = q := by
    rw [hchildren, ← List.cons_append, List.getLast?_concat] at hlast
    exact Option.some.inj hlast
  have heq : elementText name attributes body name' =
      ['<'] ++ named.text ++ attributeText ++ ['>'] ++ (body ++ closing) := by
    have hconsumed' : s.consumed u = _ := hall.consumed_eq
    rw [← htext, ← hwhole, hconsumed, ← hbody, hconsumed']
    simp only [List.append_assoc]
  obtain ⟨rfl, hnamed, rfl⟩ := elementText_eq hname hname' hrun.name_letters hrun.closed heq
  refine ⟨rfl, named, ps, hchildren, derives_same hrun.attributes_derive ⟨?_, ?_, ?_⟩ hrun.attributes_takes⟩
  · have hrest := hrun.name_takes.rest_eq
    have hrest' : s.rest = text := hsame.rest
    rw [hrest', htext, hnamed, elementText] at hrest
    simpa [behindName] using hrest.symm
  · have hoffset := hrun.name_takes.offset_eq
    have hoffset' : s.offset = 0 := hsame.offset
    rw [hoffset, hnamed, hoffset', byteLength_append, Nat.zero_add]
    rfl
  · have hstack : s.stack = [] := hsame.stack
    rw [hrun.stack_eq, hnamed, hstack]
    rfl

end LiquidTemplate
