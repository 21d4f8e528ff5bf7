import LiquidTemplate.Proofs.Intact.Expression
import LiquidTemplate.Proofs.Rule.Dash
import LiquidTemplate.Proofs.Rule.Text

namespace LiquidTemplate

open Text
open Peg Peg.Expr Rule

def startsDocTag : List Char → Bool
  | '@' :: x :: _ => x.isAlpha
  | _ => false

def docStop : Expr Rule := call space ||| lit "@" ++ alpha

def docRound : Expr Rule := spaces ++ call docNode

namespace Rule

def isDocNode : Rule → Bool
  | docNode | docParam | docExample | docDescription | docText => true
  | _ => false

theorem picks_docNodes (r : Rule) :
    r.isDocNode → grammar.kind r = .silent → (grammar.body r).picks isDocNode := by
  cases r <;> decide

theorem isDocNode_cases (r : Rule) : r.isDocNode → grammar.kind r ≠ .silent →
    r = docParam ∨ r = docExample ∨ r = docDescription ∨ r = docText := by
  cases r <;> decide

end Rule

theorem startsDocTag_eq {rest : List Char} (h : startsDocTag rest) :
    ∃ x more, rest = '@' :: x :: more ∧ x.isAlpha := by
  unfold startsDocTag at h
  split at h
  · exact ⟨_, _, rfl, h⟩
  · cases h

theorem not_space_of_isAlpha {x : Char} (h : x.isAlpha) : x ∉ spaceLetters := by
  intro hx
  have hcases : x = ' ' ∨ x = '\t' ∨ x = '\n' ∨ x = '\r' ∨ x = '\x0c' := by simpa [spaceLetters] using hx
  rcases hcases with rfl | rfl | rfl | rfl | rfl <;> exact absurd h (by decide)

def EndsDocRun (rest : List Char) : Prop := Ends spaceLetters (startsDocTag ·) rest

/-- A tag of a documentation goes on with its letter, where no second tag can be. -/
theorem EndsDocRun.not_alpha {x : Char} {rest : List Char} (h : EndsDocRun (x :: rest)) : ¬x.isAlpha := by
  intro hx
  obtain ⟨b, more, heq, hb, _, hend⟩ := h
  cases b with
  | cons y b =>
      cases (List.cons.inj heq).1
      exact not_space_of_isAlpha hx (hb x (by simp))
  | nil =>
      change x :: rest = more at heq
      subst heq
      rcases hend with hend | hend
      · cases hend
      · obtain ⟨y, rest', heq, _⟩ := startsDocTag_eq hend
        cases heq
        exact absurd hx (by decide)

structure IsDocName (name : List Char) : Prop where
  start : ∃ x ∈ name.head?, isNameStart x
  chars : ∀ x ∈ name, isNameChar x

theorem IsDocName.ne_nil {name : List Char} (h : IsDocName name) : name ≠ [] := by
  rintro rfl
  obtain ⟨x, hx, _⟩ := h.start
  cases hx

inductive DocLead : Option (List Char) → List Char → Prop
  | untyped {blanks : List Char} : (∀ x ∈ blanks, x ∈ inlineLetters) → DocLead none ("@param".toList ++ blanks)
  | typed {before type after : List Char} : (∀ x ∈ before ++ after, x ∈ inlineLetters) → '}' ∉ type →
      DocLead (some type) ("@param".toList ++ (before ++ (['{'] ++ type ++ ['}']) ++ after))

def writtenName (required : Bool) (name : List Char) : List Char :=
  if required then name else ['['] ++ name ++ [']']

def IsDocDash (w : List Char) : Prop := w = [] ∨ ∃ blanks, (∀ x ∈ blanks, x ∈ inlineLetters) ∧ w = blanks ++ ['-']

inductive DocTail : Option (List Char) → List Char → Prop
  | bare {dash : List Char} : IsDocDash dash → DocTail none dash
  | described {dash blanks description : List Char} : IsDocDash dash → (∀ x ∈ blanks, x ∈ inlineLetters) →
      DocTail (some description) (dash ++ (blanks ++ description))

theorem writtenName_head {required : Bool} {name : List Char} (h : IsDocName name) :
    required = false ↔ (writtenName required name).head? = some '[' := by
  cases required with
  | false => exact iff_of_true rfl rfl
  | true =>
      refine iff_of_false Bool.noConfusion fun hhead => ?_
      obtain ⟨x, hx, hstart⟩ := h.start
      cases hx.symm.trans hhead
      exact absurd hstart (by decide)

variable {c : Context} {s t : State Rule} {r : Attempts Rule}

theorem stops_docStop (hc : c.atomicity ≠ .spaced) (stack : List (List Char)) :
    Stops grammar c docStop stack (startsDocTag · = false)
      (fun rest => (∃ x ∈ rest.head?, x ∈ spaceLetters) ∨ startsDocTag rest) := by
  have hc' : c.notAhead.atomicity ≠ .spaced := by rwa [c.atomicity_notAhead]
  constructor
  · intro s r _ h
    obtain ⟨_, _, h⟩ := h.alt
    unfold startsDocTag
    split
    · rename_i x more hrest
      rcases h.seq with h | ⟨u, hat, h⟩
      · exact absurd hrest (h.not_word _)
      · rw [State.skip_of_ne_spaced _ _ hc'] at h
        exact h.not_test rfl (hat.takes_word.rest_of hrest)
    · rfl
  · intro s t _ h
    cases h with
    | first h =>
        cases h with
        | silent _ h =>
            obtain ⟨x, hx, htakes⟩ := h.takes_letter letters_space
            exact .inl ⟨x, by rw [htakes.rest_eq]; rfl, hx⟩
        | pair hkind | hidden hkind => exact absurd rfl hkind
    | second _ h =>
        obtain ⟨u, hat, hletter⟩ := h.seq_meets hc'
        obtain ⟨x, hx, halpha⟩ := hletter.takes_test rfl
        have hrest := (hat.takes_word.trans hx).rest_eq
        right
        rw [show s.rest = '@' :: x :: t.rest from hrest]
        exact halpha

/-- The blanks before a node of a documentation are taken all. -/
theorem takes_allSpaces (hc : c.atomicity ≠ .spaced) (h : Derives grammar c spaces s t) :
    ∃ b, s.Takes t b [] ∧ (∀ x ∈ b, x ∈ spaceLetters) ∧ ∀ x ∈ t.rest.head?, x ∉ spaceLetters := by
  obtain ⟨b, hb, hletters⟩ := takes_spaces hc h
  obtain ⟨t', r, hfails, hrest⟩ := h.many_fails hc
  refine ⟨b, hb, hletters, ?_⟩
  intro x hx
  obtain ⟨rest, heq⟩ := List.head?_eq_some_iff.mp hx
  exact (hfails.silent rfl).not_letter letters_space (hrest.trans heq)

/-- After a run of a documentation there are blanks at most before the end or the next tag. -/
theorem docRun_ends (hc : c.atomicity ≠ .spaced) (h : Derives grammar c (call docRun) s t) : EndsDocRun t.rest := by
  cases h with
  | silent _ h =>
      obtain ⟨t', r, hfails, hrest⟩ := h.many_fails hc
      rw [← hrest]
      rcases hfails.seq with hfails | ⟨u, hspaces, hfails⟩
      · exact absurd hfails (Fails.not_many hc)
      · rw [State.skip_of_ne_spaced _ _ hc] at hfails
        obtain ⟨b, hb, hletters, hhead⟩ := takes_allSpaces hc hspaces
        refine ⟨b, u.rest, hb.rest_eq, hletters, hhead, ?_⟩
        rcases hfails.word hc rfl rfl (stops_docStop hc) with hend | ⟨x, hx, hspace⟩ | htag
        · exact .inl hend
        · exact absurd hspace (hhead x hx)
        · exact .inr htag
  | pair hkind | hidden hkind => exact absurd rfl hkind

theorem takes_inner {rule : Rule} (h : Derives grammar c (call rule) s t) (hkind : grammar.kind rule ≠ .silent)
    (hc : c.leavesPair) :
    ∃ u, Derives grammar (c.inside (grammar.kind rule)) (grammar.body rule) { s with pairs := [] } u ∧
      u.rest = t.rest ∧ ∀ {w ps}, ({ s with pairs := [] } : State Rule).Takes u w ps →
        s.Takes t w [⟨rule, s.offset, t.offset, w, ps⟩] := by
  obtain ⟨u, hbody, htakes, hoffset, _⟩ := h.call_inner hkind hc
  rw [hoffset] at htakes
  obtain ⟨v, qs, hv, _⟩ := hbody.takes
  have hconsumed : s.consumed u = v := hv.consumed_eq
  refine ⟨u, hbody, ?_, ?_⟩
  · rw [hconsumed] at htakes
    exact (htakes.rest_of hv.rest_eq).symm
  · intro w ps hw
    obtain ⟨rfl, rfl⟩ := hw.unique hv
    have hpairs : u.pairs.reverse = ps := by simp [hw.pairs_eq]
    rwa [hconsumed, hpairs] at htakes

/-- A text of a documentation is one character and what follows up to the next tag. -/
theorem docText_written (hc : c.leavesPair) (h : Derives grammar c (call docText) s t) :
    ∃ x content ps, s.Takes t (x :: content) [⟨docText, s.offset, t.offset, x :: content, ps⟩] ∧
      EndsDocRun t.rest := by
  obtain ⟨u, hbody, hrest, htakes⟩ := takes_inner h Kind.noConfusion hc
  have hatomic : (c.inside .atomic).atomicity ≠ .spaced := Atomicity.noConfusion
  obtain ⟨v, hany, hrun⟩ := hbody.seq_meets hatomic
  obtain ⟨x, hx, _⟩ := hany.takes_test rfl
  obtain ⟨content, ps, hcontent, _⟩ := hrun.takes
  rw [← hrest]
  exact ⟨x, content, ps, htakes (hx.trans hcontent), docRun_ends hatomic hrun⟩

/-- An example or a description is its word and what follows up to the next tag. -/
theorem docBlock_written {rule : Rule} {word : String} (hkind : grammar.kind rule = .compound)
    (hbody : grammar.body rule = whole (lit word) ++ call docBlockContent) (hc : c.leavesPair)
    (h : Derives grammar c (call rule) s t) :
    ∃ q, s.Takes t (word.toList ++ q.text) [⟨rule, s.offset, t.offset, word.toList ++ q.text, [q]⟩] ∧
      EndsDocRun t.rest := by
  obtain ⟨u, h, hrest, htakes⟩ := takes_inner h (by rw [hkind]; exact Kind.noConfusion) hc
  have hc' : (c.inside .compound).leavesPair := Context.leavesPair_outside c .compound hc
  have hcompound : (c.inside .compound).atomicity ≠ .spaced := Atomicity.noConfusion
  rw [hkind, hbody] at h
  obtain ⟨v, hword, hcontent⟩ := h.seq_meets hcompound
  obtain ⟨w, hw, hspelled⟩ := takes_whole (P := (· == word.toList)) hword hcompound (beq_self_eq_true _)
  obtain ⟨q, hq, _⟩ := hcontent.takes_call (r := docBlockContent) Kind.noConfusion hc'
  obtain ⟨_, _, hrun, _, hend⟩ := hcontent.call_body
  have hends := docRun_ends Atomicity.noConfusion hrun
  rw [hend, hrest] at hends
  rw [beq_iff_eq] at hspelled
  subst hspelled
  exact ⟨q, htakes (hw.trans hq), hends⟩

theorem docParamName_written (hc : c.leavesPair) (h : Derives grammar c (call docParamName) s t) :
    ∃ q, s.Takes t q.text [q] ∧ q.rule = docParamName ∧ IsDocName q.text := by
  obtain ⟨u, hbody, _, htakes⟩ := takes_inner h Kind.noConfusion hc
  obtain ⟨x, name, hname, hstart, hchars⟩ := takes_startedName Atomicity.noConfusion hbody
  exact ⟨⟨docParamName, s.offset, t.offset, x :: name, []⟩, htakes hname, rfl, ⟨x, rfl, hstart⟩, hchars⟩

theorem docName_written (hc : c.leavesPair) (h : Derives grammar c (call docOptionalName ||| call docParamName) s t) :
    ∃ q required name, s.Takes t (writtenName required name) [q] ∧ IsDocName name ∧
      q.rule = (if required then docParamName else docOptionalName) ∧
      (if required then q.text else Token.firstText q) = name := by
  cases h with
  | first h =>
      obtain ⟨u, hbody, _, htakes⟩ := takes_inner h Kind.noConfusion hc
      have hc' : (c.inside .compound).leavesPair := Context.leavesPair_outside c .compound hc
      have hcompound : (c.inside .compound).atomicity ≠ .spaced := Atomicity.noConfusion
      obtain ⟨v, hbody, hclose⟩ := hbody.seq_meets hcompound
      obtain ⟨v', hopen, hname⟩ := hbody.seq_meets hcompound
      obtain ⟨q, hq, _, hname⟩ := docParamName_written hc' hname
      exact ⟨_, false, q.text, htakes ((hopen.takes_word.trans hq).trans hclose.takes_word), hname, rfl, rfl⟩
  | second _ h =>
      obtain ⟨q, hq, hrule, hname⟩ := docParamName_written hc h
      exact ⟨q, true, q.text, ⟨hq.rest_eq, hq.offset_eq, hq.pairs_eq⟩, hname, hrule, rfl⟩

theorem docParamType_written (hc : c.leavesPair) (h : Derives grammar c (call docParamType) s t) :
    ∃ q, s.Takes t (['{'] ++ Token.firstText q ++ ['}']) [q] ∧ q.rule = docParamType ∧
      '}' ∉ Token.firstText q := by
  obtain ⟨u, hbody, _, htakes⟩ := takes_inner h Kind.noConfusion hc
  have hc' : (c.inside .compound).leavesPair := Context.leavesPair_outside c .compound hc
  have hcompound : (c.inside .compound).atomicity ≠ .spaced := Atomicity.noConfusion
  obtain ⟨v, hbody, hclose⟩ := hbody.seq_meets hcompound
  obtain ⟨v', hopen, htype⟩ := hbody.seq_meets hcompound
  obtain ⟨q, hq, _, _, _, s', t', hrun, hconsumed⟩ := htype.takes_call (r := docTypeText) Kind.noConfusion hc'
  have hstops : Stops grammar ((c.inside .compound).inside .atomic) (word ['}']) s'.stack
      (fun rest => rest.head? ≠ some '}') (fun _ => True) := by
    constructor
    · intro s r _ hfails hhead
      obtain ⟨rest, hrest⟩ := List.head?_eq_some_iff.mp hhead
      exact hfails.not_word rest hrest
    · intro s t _ _
      trivial
  obtain ⟨type, htype, halong, _⟩ := hstops.until0 [] Atomicity.noConfusion hrun
  have htext : q.text = type := by rw [← hconsumed, htype.consumed_eq]
  refine ⟨⟨docParamType, s.offset, t.offset, ['{'] ++ q.text ++ ['}'], [q]⟩,
    htakes ((hopen.takes_word.trans hq).trans hclose.takes_word), rfl, ?_⟩
  change '}' ∉ q.text
  rw [htext]
  intro hmem
  obtain ⟨before, after, rfl⟩ := List.append_of_mem hmem
  exact halong.apply List.not_mem_nil rfl

theorem docLead_written (hc : c.leavesPair) (hc' : c.atomicity ≠ .spaced)
    (h : Derives grammar c
      (whole (lit "@param") ++ opt (plus (call inlineSpace) ++ call docParamType) ++ plus (call inlineSpace)) s t) :
    ∃ lead ps, s.Takes t lead ps ∧ DocLead (ps.head?.map Token.firstText) lead ∧
      (ps = [] ∨ ∃ q, ps = [q] ∧ q.rule = docParamType) := by
  obtain ⟨u, h, hafter⟩ := h.seq_meets hc'
  obtain ⟨v, hword, htype⟩ := h.seq_meets hc'
  obtain ⟨w, hw, hspelled⟩ := takes_whole (P := (· == "@param".toList)) hword hc' (beq_self_eq_true _)
  rw [beq_iff_eq] at hspelled
  subst hspelled
  have hinline : (grammar.body inlineSpace).letters = some inlineLetters := rfl
  obtain ⟨after, hafter, hafter', _⟩ := hafter.takes_blanks_plus hc' rfl hinline
  rcases htype.takes_opt with htype | htype
  · obtain ⟨v', hbefore, htype⟩ := htype.seq_meets hc'
    obtain ⟨before, hbefore, hbefore', _⟩ := hbefore.takes_blanks_plus hc' rfl hinline
    obtain ⟨q, hq, hrule, hclosed⟩ := docParamType_written hc htype
    have hall := hw.trans ((hbefore.trans hq).trans hafter)
    exact ⟨_, [q], hall, .typed (List.forall_mem_append.mpr ⟨hbefore', hafter'⟩) hclosed, .inr ⟨q, rfl, hrule⟩⟩
  · exact ⟨_, [], hw.trans (htype.trans hafter), .untyped hafter', .inl rfl⟩

theorem docTail_written (hc : c.leavesPair) (hc' : c.atomicity ≠ .spaced) {u : State Rule}
    (hdash : Derives grammar c (opt (inlineSpaces ++ lit "-")) s u)
    (h : Derives grammar c (opt (inlineSpaces ++ call docParamDescription)) u t) :
    ∃ tail ps, s.Takes t tail ps ∧ DocTail (ps.head?.map Pair.text) tail ∧
      (ps = [] ∨ ∃ q, ps = [q] ∧ q.rule = docParamDescription) := by
  have hdash : ∃ dash, s.Takes u dash [] ∧ IsDocDash dash := by
    rcases hdash.takes_opt with hdash | hdash
    · obtain ⟨v, hblanks, hdash⟩ := hdash.seq_meets hc'
      obtain ⟨blanks, hb, hblanks⟩ := takes_inlineSpaces hc' hblanks
      exact ⟨_, hb.trans hdash.takes_word, .inr ⟨blanks, hblanks, rfl⟩⟩
    · exact ⟨[], hdash, .inl rfl⟩
  obtain ⟨dash, hd, hdash⟩ := hdash
  rcases h.takes_opt with h | h
  · obtain ⟨v, hblanks, h⟩ := h.seq_meets hc'
    obtain ⟨blanks, hb, hblanks⟩ := takes_inlineSpaces hc' hblanks
    obtain ⟨q, hq, hrule, _⟩ := h.takes_call Kind.noConfusion hc
    exact ⟨_, [q], hd.trans (hb.trans hq), .described hdash hblanks, .inr ⟨q, rfl, hrule⟩⟩
  · refine ⟨_, [], hd.trans h, ?_, .inl rfl⟩
    rw [List.append_nil]
    exact .bare hdash

/-- A parameter of a documentation: its type, its name and its description, with what stands around these. -/
theorem docParam_written (hc : c.leavesPair) (h : Derives grammar c (call docParam) s t) :
    ∃ lead required name tail ps q qs,
      s.Takes t (lead ++ writtenName required name ++ tail)
        [⟨docParam, s.offset, t.offset, lead ++ writtenName required name ++ tail, ps ++ [q] ++ qs⟩] ∧
      DocLead (ps.head?.map Token.firstText) lead ∧ (ps = [] ∨ ∃ p, ps = [p] ∧ p.rule = docParamType) ∧
      IsDocName name ∧ q.rule = (if required then docParamName else docOptionalName) ∧
      (if required then q.text else Token.firstText q) = name ∧
      DocTail (qs.head?.map Pair.text) tail ∧ (qs = [] ∨ ∃ p, qs = [p] ∧ p.rule = docParamDescription) := by
  obtain ⟨u, h, _, htakes⟩ := takes_inner h Kind.noConfusion hc
  have hc' : (c.inside .compound).leavesPair := Context.leavesPair_outside c .compound hc
  have hcompound : (c.inside .compound).atomicity ≠ .spaced := Atomicity.noConfusion
  obtain ⟨s₃, h, hdescription⟩ := h.seq_meets hcompound
  obtain ⟨s₂, h, hdash⟩ := h.seq_meets hcompound
  obtain ⟨s₁, hlead, hname⟩ := h.seq_meets hcompound
  obtain ⟨lead, ps, hl, hlead, hps⟩ := docLead_written hc' hcompound hlead
  obtain ⟨q, required, name, hn, hname, hrule, htext⟩ := docName_written hc' hname
  obtain ⟨tail, qs, ht, htail, hqs⟩ := docTail_written hc' hcompound hdash hdescription
  exact ⟨lead, required, name, tail, ps, q, qs, htakes ((hl.trans hn).trans ht), hlead, hps, hname, hrule, htext,
    htail, hqs⟩

/-- A node of a documentation fails nowhere but at the end. -/
theorem rest_of_not_docNode (h : Fails grammar c (call docNode) s r) : s.rest = [] := by
  obtain ⟨_, _, h⟩ := (h.silent rfl).alt
  obtain ⟨s', _, h, hs'⟩ := h.call
  rw [← hs']
  rcases h.seq with h | ⟨u, _, h⟩
  · cases hrest : s'.rest with
    | nil => rfl
    | cons x rest =>
        have hx := h.not_test (f := fun _ => true) rfl hrest
        cases hx
  · rw [State.skip_of_ne_spaced _ _ Atomicity.noConfusion] at h
    exact absurd (h.silent rfl) (Fails.not_many Atomicity.noConfusion)

/-- The nodes of a documentation go on to the blanks at its end. -/
theorem docRounds_end (hc : c.atomicity ≠ .spaced) (h : Derives grammar c (many docRound) s t) :
    ∀ x ∈ t.rest, x ∈ spaceLetters := by
  obtain ⟨t', r, hfails, hrest⟩ := h.many_fails hc
  rw [← hrest]
  rcases hfails.seq with hfails | ⟨u, hspaces, hfails⟩
  · exact absurd hfails (Fails.not_many hc)
  · rw [State.skip_of_ne_spaced _ _ hc] at hfails
    obtain ⟨b, hb, hletters⟩ := takes_spaces hc hspaces
    rw [hb.rest_eq, rest_of_not_docNode hfails, List.append_nil]
    exact hletters

end LiquidTemplate
