import LiquidTemplate.Proofs.Embedding.Reentry
import LiquidTemplate.Proofs.Rule.Documentation

namespace LiquidTemplate

open Text
open Peg Peg.Expr Rule
open Token (ReadText)

/-- `DocToken span w t`: the token `t` of a documentation is written as `w`, and has the span. -/
inductive DocToken (span : Span) : List Char → Token → Prop
  | text {w : List Char} : w ≠ [] → DocToken span w (.text ⟨String.ofList w, span⟩)
  | sample (content : List Char) :
      DocToken span ("@example".toList ++ content) (.docExample (Token.trimmed content) span)
  | description (content : List Char) :
      DocToken span ("@description".toList ++ content) (.docDescription (Token.trimmed content) span)
  | param {type description : Option (List Char)} {lead name tail : List Char} (required : Bool) :
      DocLead type lead → IsDocName name → DocTail description tail →
      DocToken span (lead ++ writtenName required name ++ tail)
        (.docParam ⟨String.ofList name, type.map Token.trimmed, description.map String.ofList, required, span⟩)

def Token.isDocParam : Token → Bool
  | docParam _ => true
  | _ => false

inductive DocLaid : Bool → Nat → List Char → List Token → Prop
  | done (free : Bool) (start : Nat) {gap : List Char} : (∀ x ∈ gap, x ∈ spaceLetters) → DocLaid free start gap []
  | next {free : Bool} {start : Nat} {gap w rest : List Char} {t : Token} {ts : List Token} :
      (∀ x ∈ gap, x ∈ spaceLetters) → free ∨ startsDocTag w →
      DocToken (.between (start + byteLength gap) (start + byteLength (gap ++ w))) w t →
      DocLaid t.isDocParam (start + byteLength (gap ++ w)) rest ts →
      DocLaid free start (gap ++ w ++ rest) (t :: ts)

variable {c : Context} {s t : State Rule} {free : Bool} {start : Nat} {w : List Char} {ts : List Token} {span : Span}

theorem DocLaid.append_gap {gap : List Char} (h : DocLaid free start w ts) (hgap : ∀ x ∈ gap, x ∈ spaceLetters) :
    DocLaid free start (w ++ gap) ts := by
  induction h with
  | done free start h => exact .done free start (List.forall_mem_append.mpr ⟨h, hgap⟩)
  | next h hfree ht _ ih =>
      rw [List.append_assoc]
      exact .next h hfree ht ih

theorem DocLead.starts {type : Option (List Char)} {lead : List Char} (h : DocLead type lead) (rest : List Char) :
    startsDocTag (lead ++ rest) := by
  cases h <;> rfl

/-- A parameter is marked as not required exactly if what stands where its name is expected is a bracket. -/
theorem DocToken.required_iff {param : DocParam} (h : DocToken span w (.docParam param)) :
    IsDocName param.name.toList ∧ ∃ type lead follow, w = lead ++ follow ∧ DocLead type lead ∧
      (param.required = false ↔ follow.head? = some '[') := by
  cases h with
  | @param type _ lead name tail required hlead hname _ =>
      refine ⟨by simpa using hname, type, lead, _, List.append_assoc _ _ _, hlead, ?_⟩
      rw [writtenName_head hname, List.head?_append_of_ne_nil]
      cases required with
      | true => exact hname.ne_nil
      | false => simp [writtenName]

/-- A parameter is read from the pairs of its type, its name and its description. -/
theorem docParamOfPair_eq {offset first last : Nat} {required : Bool} {ps qs : List (Pair Rule)} {q : Pair Rule}
    (hps : ps = [] ∨ ∃ p, ps = [p] ∧ p.rule = docParamType)
    (hq : q.rule = (if required then docParamName else docOptionalName))
    (hqs : qs = [] ∨ ∃ p, qs = [p] ∧ p.rule = docParamDescription) :
    Token.docParamOfPair offset ⟨docParam, first, last, w, ps ++ [q] ++ qs⟩ = .ok (.docParam
      ⟨String.ofList (if required then q.text else Token.firstText q), (ps.head?.map Token.firstText).map Token.trimmed,
        (qs.head?.map Pair.text).map String.ofList, required, .between (offset + first) (offset + last)⟩) := by
  rcases hps with rfl | ⟨p, rfl, hp⟩ <;> rcases hqs with rfl | ⟨p', rfl, hp'⟩ <;> cases required <;>
    simp_all [Token.docParamOfPair, Token.addToDocParam, Pair.span, Pair.string]

structure LeavesDocNode (s t : State Rule) (w : List Char) (p : Pair Rule) : Prop where
  takes : s.Takes t w [p]
  ne_end : p.rule ≠ endOfInput
  starts : startsDocTag s.rest → startsDocTag w
  ends : p.rule == docParam ∨ EndsDocRun t.rest
  reads : ∀ (read : ReadText) (region : Region), ∃ token, Token.ofPair read region p = .ok token ∧
    token.isDocParam = (p.rule == docParam) ∧
    DocToken (.between (region.offset + s.offset) (region.offset + t.offset)) w token

theorem leaves_docParam (hc : c.leavesPair) (h : Derives grammar c (call docParam) s t) :
    ∃ w p, LeavesDocNode s t w p := by
  obtain ⟨lead, required, name, tail, ps, q, qs, htakes, hlead, hps, hname, hq, rfl, htail, hqs⟩ :=
    docParam_written hc h
  refine ⟨_, _, htakes, Rule.noConfusion, fun _ => ?_, .inl rfl, fun read region =>
    ⟨_, docParamOfPair_eq hps hq hqs, rfl, ?_⟩⟩
  · rw [List.append_assoc]
    exact hlead.starts _
  · exact .param required hlead hname htail

theorem leaves_docExample (hc : c.leavesPair) (h : Derives grammar c (call docExample) s t) :
    ∃ w p, LeavesDocNode s t w p := by
  obtain ⟨q, htakes, hends⟩ := docBlock_written rfl rfl hc h
  exact ⟨_, _, htakes, Rule.noConfusion, fun _ => rfl, .inr hends, fun read region => ⟨_, rfl, rfl, .sample q.text⟩⟩

theorem leaves_docDescription (hc : c.leavesPair) (h : Derives grammar c (call docDescription) s t) :
    ∃ w p, LeavesDocNode s t w p := by
  obtain ⟨q, htakes, hends⟩ := docBlock_written rfl rfl hc h
  exact ⟨_, _, htakes, Rule.noConfusion, fun _ => rfl, .inr hends,
    fun read region => ⟨_, rfl, rfl, .description q.text⟩⟩

theorem leaves_docText (hc : c.leavesPair) (h : Derives grammar c (call docText) s t) :
    ∃ w p, LeavesDocNode s t w p := by
  obtain ⟨x, content, ps, htakes, hends⟩ := docText_written hc h
  refine ⟨_, _, htakes, Rule.noConfusion, ?_, .inr hends, fun read region =>
    ⟨_, rfl, rfl, .text (List.cons_ne_nil x content)⟩⟩
  intro hstarts
  obtain ⟨y, rest, hrest, hy⟩ := startsDocTag_eq hstarts
  have heq := htakes.rest_eq.symm.trans hrest
  cases content with
  | nil =>
      -- the run would stop at a letter
      have ht : t.rest = y :: rest := (List.cons.inj heq).2
      rw [ht] at hends
      exact absurd hy hends.not_alpha
  | cons z content =>
      obtain ⟨hat, heq⟩ := List.cons.inj heq
      obtain ⟨hletter, _⟩ := List.cons.inj heq
      rw [hat, hletter]
      exact hy

theorem leaves_docNode (hc : c.leavesPair) (h : Derives grammar c (call docNode) s t) :
    ∃ w p, LeavesDocNode s t w p := by
  obtain ⟨q, r, _, hrule, hkind, _, h⟩ := h.takes_pick picks_docNodes hc rfl
  suffices hnode : ∃ w p, LeavesDocNode { s with attempts := r } t w p by
    obtain ⟨w, p, htakes, hend, hstarts, hends, hreads⟩ := hnode
    exact ⟨w, p, ⟨htakes.rest_eq, htakes.offset_eq, htakes.pairs_eq⟩, hend, hstarts, hends, hreads⟩
  rcases isDocNode_cases _ hrule hkind with hrule | hrule | hrule | hrule <;> rw [hrule] at h
  · exact leaves_docParam hc h
  · exact leaves_docExample hc h
  · exact leaves_docDescription hc h
  · exact leaves_docText hc h

/-- The rounds of a documentation are laid out, from where no tag can be missed. -/
theorem docRounds_laid (hc : c.leavesPair) (hc' : c.atomicity ≠ .spaced) (h : Derives grammar c (many docRound) s t)
    (hfree : free ∨ EndsDocRun s.rest) :
    ∃ w ps, s.Takes t w ps ∧ (∀ p ∈ ps, p.rule ≠ endOfInput) ∧ ∀ (read : ReadText) (region : Region),
      ∃ ts, ps.mapM (Token.ofPair read region) = .ok ts ∧ DocLaid free (region.offset + s.offset) w ts := by
  refine h.many_induct (P := fun s t => ∀ {free : Bool}, (free ∨ EndsDocRun s.rest) →
    ∃ w ps, s.Takes t w ps ∧ (∀ p ∈ ps, p.rule ≠ endOfInput) ∧ ∀ (read : ReadText) (region : Region),
      ∃ ts, ps.mapM (Token.ofPair read region) = .ok ts ∧ DocLaid free (region.offset + s.offset) w ts) ?_ ?_ hfree
  · intro s s' r _ _ free _
    exact ⟨[], [], .idle r, by simp, fun read region => ⟨[], rfl, .done free _ (by simp)⟩⟩
  · intro s s' t u hs hround ih free hfree
    rw [State.skip_of_ne_spaced _ _ hc', or_self] at hs
    subst hs
    obtain ⟨v, hspaces, hnode⟩ := hround.seq_meets hc'
    obtain ⟨gap, hg, hgap, hhead⟩ := takes_allSpaces hc' hspaces
    obtain ⟨w, p, htakes, hend, hstarts, hends, hreads⟩ := leaves_docNode hc hnode
    obtain ⟨w', ps, htakes', hps, hlaid⟩ := ih hends
    have hall := (hg.trans htakes).trans htakes'
    refine ⟨_, p :: ps, hall, List.forall_mem_cons.mpr ⟨hend, hps⟩, fun read region => ?_⟩
    obtain ⟨token, hread, hparam, htoken⟩ := hreads read region
    obtain ⟨ts, hts, hlaid⟩ := hlaid read region
    have hv : v.offset = s'.offset + byteLength gap := hg.offset_eq
    have ht : t.offset = s'.offset + byteLength (gap ++ w) := by
      rw [htakes.offset_eq, hv, byteLength_append, Nat.add_assoc]
    rw [hv, ht, ← Nat.add_assoc, ← Nat.add_assoc] at htoken
    rw [ht, ← Nat.add_assoc, ← hparam] at hlaid
    refine ⟨token :: ts, ?_, .next hgap ?_ htoken hlaid⟩
    · rw [List.mapM_cons, hread, hts]
      rfl
    · refine hfree.imp_right fun hfree => hstarts ?_
      obtain ⟨b, more, hrest, hb, hmore, hstop⟩ := hfree
      have hv := (takes_spaces_eq hc' hb hmore hspaces hrest).rest_of hrest
      rw [hv]
      refine hstop.resolve_left fun hnil => ?_
      have hlt := hnode.reaches.length_lt (hnode.lt eats_body rfl)
      rw [hv, hnil] at hlt
      exact absurd hlt (Nat.not_lt_zero _)

/-- A documentation fails on no text: its nodes go on to the blanks at the end. -/
theorem not_fails_documentation (hc : c.atomicity ≠ .spaced) (hs : s.offset = 0) {r : Attempts Rule} :
    ¬Fails grammar c (grammar.body liquidDocContents) s r := by
  intro h
  rcases h.seq with h | ⟨v, hlead, hend⟩
  · rcases h.seq with h | ⟨_, _, h⟩
    · rcases h.seq with ⟨n, h⟩ | ⟨_, _, h⟩
      · cases n with
        | zero => cases h
        | succ n => simp [Grammar.run, hs] at h
      · rw [State.skip_of_ne_spaced _ _ hc] at h
        exact Fails.not_many hc h
    · rw [State.skip_of_ne_spaced _ _ hc] at h
      exact Fails.not_many hc h
  · rw [State.skip_of_ne_spaced _ _ hc] at hend
    obtain ⟨u, hrounds, hspaces⟩ := hlead.seq_meets hc
    obtain ⟨_, _, hrounds⟩ := hrounds.seq_meets hc
    obtain ⟨gap, hgap, _, hhead⟩ := takes_allSpaces hc hspaces
    have hv : v.rest = [] := by
      cases hrest : v.rest with
      | nil => rfl
      | cons x rest =>
          have hx : x ∈ u.rest := by simp [hgap.rest_eq, hrest]
          exact absurd (docRounds_end hc hrounds x hx) (hhead x (by simp [hrest]))
    obtain ⟨v', _, ⟨n, hend⟩, hv'⟩ := hend.call
    cases n with
    | zero => cases hend
    | succ n =>
        rw [hv] at hv'
        simp [Grammar.run, hv', grammar, Rule.body] at hend

/-- A text matches as a documentation, and its nodes are laid out in it. -/
theorem parse_documentation (text : List Char) :
    ∃ pairs, grammar.parse liquidDocContents text = .ok pairs ∧ ∀ (read : ReadText) (region : Region),
      ∃ ts, ((pairs.flatMap (·.children)).filter (·.rule != .endOfInput)).mapM (Token.ofPair read region) = .ok ts ∧
        DocLaid true region.offset text ts := by
  have hc : (Context.top.inside .compound).leavesPair := rfl
  have hc' : (Context.top.inside .compound).atomicity ≠ .spaced := Atomicity.noConfusion
  rcases Grammar.gives_parse Kind.noConfusion (parse_ne_fault (r := liquidDocContents) rfl text) with
    ⟨_, _, hparse⟩ | ⟨hnone, _⟩
  · refine ⟨_, hparse, fun read region => ?_⟩
    obtain ⟨p, t, hpairs, _, _, h, htakes⟩ := Grammar.parse_ok hparse rfl
    rw [hpairs, List.flatMap_singleton]
    obtain ⟨s₃, h, hend⟩ := h.seq_meets hc'
    obtain ⟨s₂, h, hspaces⟩ := h.seq_meets hc'
    obtain ⟨s₁, hstart, hrounds⟩ := h.seq_meets hc'
    obtain ⟨w, ps, hw, hps, hlaid⟩ := docRounds_laid hc hc' hrounds (.inl rfl)
    obtain ⟨gap, hg, hgap⟩ := takes_spaces hc' hspaces
    obtain ⟨q, hq, hqrule, _⟩ := hend.takes_call Kind.noConfusion hc
    obtain ⟨hrest, hrest'⟩ := hend.rest_call_finish rfl
    have hs₁ : s₁ = Grammar.initial text := by
      cases hstart
      rfl
    subst hs₁
    have hall := (hw.trans hg).trans hq
    obtain ⟨_, hchildren⟩ := htakes.unique hall
    have htext : text = w ++ gap := by
      have heq := (hw.trans hg).rest_eq
      rwa [hrest, List.append_nil] at heq
    obtain ⟨ts, hts, hlaid⟩ := hlaid read region
    refine ⟨ts, ?_, ?_⟩
    · rw [hchildren, List.append_nil, List.filter_append, List.filter_eq_self.mpr (by simpa using hps)]
      simpa [hqrule] using hts
    · rw [htext]
      exact hlaid.append_gap hgap
  · obtain ⟨n, h⟩ := hnone
    obtain ⟨r, h⟩ := h.failed
    exact absurd ⟨n, h⟩ (not_fails_documentation hc' rfl)

theorem DocLaid.mem {text : List Char} {token : Token} (h : DocLaid free start text ts) (ht : token ∈ ts) :
    ∃ before w after, text = before ++ w ++ after ∧
      DocToken (.between (start + byteLength before) (start + byteLength (before ++ w))) w token := by
  induction h with
  | done => cases ht
  | @next free start gap w rest t ts hgap hfree htoken _ ih =>
      rcases List.mem_cons.mp ht with rfl | ht
      · exact ⟨gap, w, rest, rfl, htoken⟩
      · obtain ⟨before, w', after, rfl, htoken⟩ := ih ht
        refine ⟨gap ++ w ++ before, w', after, by simp, ?_⟩
        simpa only [byteLength_append, Nat.add_assoc] using htoken

theorem DocToken.leaf {token : Token} (h : DocToken span w token) (o : Options) :
    ∃ node, Nesting.complete o token = .ok (.leaf node) := by
  cases h <;> exact ⟨_, by rw [Nesting.complete]⟩

/-- Tokens that become leaves leave nothing open. -/
theorem Nesting.feed_leaves {o : Options} (h : ∀ t ∈ ts, ∃ node, complete o t = .ok (.leaf node)) {b : Nesting}
    (hb : b.stack = []) : ∃ b', feed o b ts = .ok b' ∧ b'.stack = [] := by
  induction ts generalizing b with
  | nil => exact ⟨b, by rw [feed], hb⟩
  | cons t ts ih =>
      obtain ⟨⟨node, hnode⟩, h⟩ := List.forall_mem_cons.mp h
      have hstack : (b.add [node]).stack = [] := by
        unfold add
        rw [hb]
      obtain ⟨b', hb', hempty⟩ := ih h hstack
      refine ⟨b', ?_, hempty⟩
      rw [feed, hnode]
      exact hb'

theorem Nesting.finish_empty {b : Nesting} (hb : b.stack = []) (o : Options) (stop : Nat) :
    b.finish o stop = .ok b.roots.reverse := by
  unfold finish
  rw [hb]

/-- The tokens of a documentation are nested without an error. -/
theorem DocLaid.nests {text : List Char} (h : DocLaid free start text ts) (o : Options) :
    ∃ b, Nesting.feed o {} ts = .ok b ∧ b.stack = [] := by
  refine Nesting.feed_leaves (fun token ht => ?_) rfl
  obtain ⟨_, _, _, _, htoken⟩ := h.mem ht
  exact htoken.leaf o

theorem Token.read_documentation (region : Region) (text : List Char) :
    ∃ ts, read region .doc text = .ok ts ∧ DocLaid true region.offset text ts := by
  obtain ⟨pairs, hparse, hlaid⟩ := parse_documentation text
  obtain ⟨ts, hts, hlaid⟩ := hlaid read region
  refine ⟨ts, ?_, hlaid⟩
  rw [read_eq_readOnce, readOnce, show Entry.doc.startRule = liquidDocContents from rfl, hparse]
  exact hts

namespace Document

/-- Every text can be read as a documentation, in every mode and at every offset, and then it is laid out as
one: texts, parameters, examples and descriptions, each but the first one with an `@` and a letter in front
or after a parameter.  A parameter has a name, and is marked as not required exactly if there is a bracket
where the name is expected.  So no tag with a documentation fails because of what it contains. -/
theorem documentation_reads :
    (∀ (region : Region) (text : List Char), ∃ ts, Token.read region .doc text = .ok ts ∧
      DocLaid true region.offset text ts ∧
      (∀ param, Token.docParam param ∈ ts → IsDocName param.name.toList ∧
        ∃ before type lead follow after, text = before ++ (lead ++ follow) ++ after ∧ DocLead type lead ∧
          (param.required = false ↔ follow.head? = some '[')) ∧
      ∀ o stop, Succeeds (Node.ofTokens o stop ts)) ∧
    ∀ (region : Region) (text : List Char) (p opening body closing : Pair Rule) (rest : List (Pair Rule))
      (name : Pair Rule), Grown grammar text p → p.rule = .liquidRawTag →
      p.children = opening :: body :: closing :: rest →
      opening.children.find? (Token.isTagNameRule ·.rule) = some name → name.string = "doc" →
      ∃ tag ts, Token.rawTagOfPair Token.read region p = .ok (.rawTag tag ts) ∧
        DocLaid true (body.span region.offset).lo body.text ts ∧
        ∀ o, Succeeds (Nesting.complete o (.rawTag tag ts)) := by
  constructor
  · intro region text
    obtain ⟨ts, hread, hlaid⟩ := Token.read_documentation region text
    refine ⟨ts, hread, hlaid, ?_, ?_⟩
    · intro param hparam
      obtain ⟨before, _, after, rfl, htoken⟩ := hlaid.mem hparam
      obtain ⟨hname, type, lead, follow, rfl, hlead, hrequired⟩ := htoken.required_iff
      exact ⟨hname, before, type, lead, follow, after, rfl, hlead, hrequired⟩
    · intro o stop
      obtain ⟨b, hfeed, hb⟩ := hlaid.nests o
      exact ⟨b.roots.reverse, bind_eq_ok.mpr ⟨b, hfeed, Nesting.finish_empty hb o stop⟩⟩
  · intro region text p opening body closing rest name hp hrule hchildren hname hdoc
    obtain ⟨_, _, _, _, hchildren', _, _, _, hname', heq⟩ := Token.rawTagOfPair_eq hp hrule
    cases hchildren.symm.trans hchildren'
    cases hname.symm.trans hname'
    obtain ⟨ts, hread, hlaid⟩ := Token.read_documentation ⟨(body.span region.offset).lo, region.mode⟩ body.text
    have htag : ∃ tag, Token.rawTagOfPair Token.read region p = .ok (.rawTag tag ts) := by
      simp only [heq, hdoc, Token.rawTagBody, hread]
      exact ⟨_, rfl⟩
    obtain ⟨tag, htag⟩ := htag
    refine ⟨tag, ts, htag, hlaid, fun o => ?_⟩
    obtain ⟨b, hfeed, hb⟩ := hlaid.nests Options.rawBody
    refine ⟨.leaf (.rawTag tag (RawKind.ofTag tag.name) b.roots.reverse), ?_⟩
    rw [Nesting.complete]
    exact bind_eq_ok.mpr ⟨b, hfeed, bind_eq_ok.mpr ⟨_, Nesting.finish_empty hb _ _, rfl⟩⟩

def mixedDocumentation : String := " a@ @param \x7bx] [\x7d [b] - c @d\n@param e\n@x @param [f @example \x7b% if %\x7d "

def mixedDocumentationTag : Pair Rule :=
  ⟨liquidRawTag, 0, 90, ("\x7b% doc %\x7d" ++ mixedDocumentation ++ "\x7b% enddoc %\x7d").toList,
    [⟨rawTagOpen, 0, 9, "\x7b% doc %\x7d".toList, [⟨rawTagName, 3, 6, "doc".toList, []⟩]⟩,
      ⟨rawBody, 9, 78, mixedDocumentation.toList, []⟩, ⟨rawTagClose, 78, 90, "\x7b% enddoc %\x7d".toList, []⟩]⟩

set_option maxRecDepth 2000 in
theorem parse_mixedDocumentationTag : grammar.parse .liquidDocument mixedDocumentationTag.text =
    .ok [⟨liquidDocument, 0, 90, mixedDocumentationTag.text, [mixedDocumentationTag, ⟨endOfInput, 90, 90, [], []⟩]⟩] :=
  rfl

theorem documentation_reads_mixedDocumentation :
    (∃ ts, Token.read ⟨3, .strict⟩ .doc mixedDocumentation.toList = .ok ts ∧
      ts.map (fun t => (t.isDocParam, t.span)) = [(false, .between 4 6), (true, .between 7 31),
        (true, .between 32 40), (false, .between 41 43), (false, .between 44 53), (false, .between 54 71)] ∧
      DocLaid true 3 mixedDocumentation.toList ts) ∧
    ∃ tag ts, Token.rawTagOfPair Token.read ⟨0, .strict⟩ mixedDocumentationTag = .ok (.rawTag tag ts) ∧
      DocLaid true 9 mixedDocumentation.toList ts ∧ Succeeds (Nesting.complete {} (.rawTag tag ts)) := by
  have hspans : (Token.read ⟨3, .strict⟩ .doc mixedDocumentation.toList).toOption.map
      (List.map fun t => (t.isDocParam, t.span)) = some [(false, .between 4 6), (true, .between 7 31),
        (true, .between 32 40), (false, .between 41 43), (false, .between 44 53), (false, .between 54 71)] := by
    decide +kernel
  constructor
  · obtain ⟨ts, hread, hlaid, _⟩ := documentation_reads.1 ⟨3, .strict⟩ mixedDocumentation.toList
    rw [hread] at hspans
    exact ⟨ts, hread, Option.some.inj hspans, hlaid⟩
  · have hgrown := ((Peg.Grammar.grown_parse parse_mixedDocumentationTag).1 _ List.mem_cons_self).children
      mixedDocumentationTag List.mem_cons_self
    obtain ⟨tag, ts, htag, hlaid, hcomplete⟩ :=
      documentation_reads.2 ⟨0, .strict⟩ _ mixedDocumentationTag _ _ _ _ _ hgrown rfl rfl rfl rfl
    exact ⟨tag, ts, htag, hlaid, hcomplete {}⟩

end Document

end LiquidTemplate
