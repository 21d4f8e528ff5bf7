import LiquidTemplate.Expression.Reader
import LiquidTemplate.Proofs.Except
import LiquidTemplate.Proofs.Geometry.Span
import LiquidTemplate.Proofs.Peg.Edges
import LiquidTemplate.Proofs.Rule.Tag

namespace LiquidTemplate

open Text
open Peg Peg.Expr Rule

variable {text : List Char} {p : Pair Rule}

def quoteMark (single : Bool) : Char := if single then '\'' else '"'

/-- A string has its body between two quote marks, which the rule of the body tells. -/
theorem string_text (h : Grown grammar text p) (hp : p.rule = .string) :
    ∃ body, p.children = [body] ∧
      p.text = quoteMark (body.rule == .singleQuoted) :: (body.text ++
        [quoteMark (body.rule == .singleQuoted)]) := by
  obtain ⟨c, s, t, hc, _, _, h, htakes⟩ := h.derives (by rw [hp]; rfl)
  rw [hp] at hc h
  have hquoted : ∀ {r : Rule} {s t : State Rule} {mark : String}, grammar.kind r ≠ .silent →
      Derives grammar (c.inside .compound) (lit mark ++ call r ++ lit mark) s t →
      ∃ body, s.Takes t (mark.toList ++ body.text ++ mark.toList) [body] ∧ body.rule = r := by
    intro r s t mark hkind h
    obtain ⟨u, h, hclose⟩ := h.seq_meets Atomicity.noConfusion
    obtain ⟨v, hopen, h⟩ := h.seq_meets Atomicity.noConfusion
    obtain ⟨body, hbody, hrule, _⟩ := h.takes_call hkind hc
    exact ⟨body, (hopen.takes_word.trans hbody).trans hclose.takes_word, hrule⟩
  cases h with
  | first h =>
      obtain ⟨body, hbody, hrule⟩ := hquoted (by decide) h
      obtain ⟨htext, hchildren⟩ := htakes.unique hbody
      exact ⟨body, hchildren, by simp [htext, hrule, quoteMark]⟩
  | second _ h =>
      obtain ⟨body, hbody, hrule⟩ := hquoted (by decide) h
      obtain ⟨htext, hchildren⟩ := htakes.unique ⟨hbody.rest_eq, hbody.offset_eq, hbody.pairs_eq⟩
      exact ⟨body, hchildren, by simp [htext, hrule, quoteMark]⟩

theorem bracketLookup_text (h : Grown grammar text p) (hp : p.rule = .bracketLookup) :
    ['['] <+: p.text :=
  (h.starts_word (by rw [hp]; rfl) (by rw [hp]; rfl)).1

theorem filter_text (h : Grown grammar text p) (hp : p.rule = .filter) : ['|'] <+: p.text :=
  (h.starts_word (by rw [hp]; rfl) (by rw [hp]; rfl)).1

theorem namedArgument_text (h : Grown grammar text p) (hp : p.rule = .namedArgument) :
    ∃ name rest, p.children = name :: rest ∧ name.text <+: p.text :=
  h.starts_child (r := .argumentName) (by rw [hp]; rfl) (by rw [hp]; rfl) (by decide)

def Rule.expressions : Rule → Bool
  | expression | string | number | literal | range | variableLookup => true
  | _ => false

theorem picks_expressions (r : Rule) :
    r.expressions → grammar.kind r = .silent → (grammar.body r).picks Rule.expressions := by
  cases r <;> decide

theorem liquidVariable_children (h : Grown grammar text p) (hp : p.rule = .liquidVariable) :
    ∃ value filters, p.children = value :: filters ∧ ∀ q ∈ filters, q.rule = .filter := by
  obtain ⟨c, s, t, hc, _, _, h, htakes⟩ := h.derives (by rw [hp]; rfl)
  rw [hp] at hc h
  cases h with
  | @seq _ _ u _ _ _ hvalue hfilters =>
      obtain ⟨value, _, hvalue, _⟩ := hvalue.takes_pick picks_expressions hc rfl
      obtain ⟨v, hv, _⟩ := u.takes_skip (c.inside (grammar.kind .liquidVariable)) grammar.blank
      have hclosed : Closed grammar (· == .filter) := by
        intro r
        cases r <;> decide
      obtain ⟨new, hnew, hrules⟩ := hfilters.rules hclosed hc rfl
      obtain ⟨w, ps, hps, _⟩ := hfilters.takes
      obtain ⟨_, hchildren⟩ := htakes.unique ((hvalue.trans hv).trans hps)
      have hsame := hps.pairs_eq
      rw [hnew] at hsame
      refine ⟨value, ps, hchildren, ?_⟩
      intro q hq
      rw [List.append_cancel_right hsame] at hrules
      simpa using (hrules q (List.mem_reverse.mpr hq)).1

/-- In a text with the pair's part at the offset, a dot stands before the pair if it is a name. -/
def AfterDot (text : List Char) (offset : Nat) (p : Pair Rule) : Prop :=
  p.rule = .lookupName → ∃ n, offset + p.start = n + 1 ∧ Sits text n ('.' :: p.text)

theorem AfterDot.sits {part : List Char} {offset : Nat} (hpart : Sits text offset part)
    (h : AfterDot part 0 p) : AfterDot text offset p := by
  intro hp
  obtain ⟨n, hstart, hsits⟩ := h hp
  exact ⟨offset + n, by omega, hpart.trans hsits⟩

theorem afterDot_key {c : Context} {s t : State Rule} (hs : s.In text) (hc : c.leavesPair)
    (hc' : c.atomicity ≠ .spaced)
    (h : Derives grammar c (lit "." ++ call lookupName ||| call bracketLookup) s t) :
    ∃ w ps, s.Takes t w ps ∧ ∀ p ∈ ps, AfterDot text 0 p := by
  cases h with
  | first h =>
      obtain ⟨u, hdot, h⟩ := h.seq_meets hc'
      obtain ⟨name, hname, _, hstart, _⟩ := h.takes_call (by decide) hc
      have hdot := hdot.takes_word
      obtain ⟨before, htext, hbefore⟩ := hs
      refine ⟨_, _, hdot.trans hname, ?_⟩
      rw [List.nil_append, List.forall_mem_singleton]
      intro _
      refine ⟨s.offset, ?_, before, t.rest, ?_, hbefore⟩
      · rw [hstart, hdot.offset_eq, Nat.zero_add]
        rfl
      · rw [htext, hdot.rest_eq, hname.rest_eq]
        rfl
  | second _ h =>
      obtain ⟨key, hkey, hrule, _⟩ := h.takes_call (by decide) hc
      refine ⟨_, _, ⟨hkey.rest_eq, hkey.offset_eq, hkey.pairs_eq⟩, ?_⟩
      rw [List.forall_mem_singleton, AfterDot, hrule]
      intro h
      cases h

/-- A lookup starts with a name or a key in brackets; every other name in it comes after a dot. -/
theorem variableLookup_children (h : Grown grammar text p) (hp : p.rule = .variableLookup) :
    ∃ first keys, p.children = first :: keys ∧ first.text <+: p.text ∧
      (first.rule = .identifier ∨ first.rule = .bracketLookup) ∧ ∀ q ∈ keys, AfterDot text 0 q := by
  obtain ⟨c, s, t, hc, hs, _, h, htakes⟩ := h.derives (by rw [hp]; rfl)
  rw [hp] at hc h
  obtain ⟨u, hfirst, hkeys⟩ := h.seq_meets Atomicity.noConfusion
  have hpicks : ∀ r : Rule, [identifier, bracketLookup].contains r → grammar.kind r = .silent →
      (grammar.body r).picks [identifier, bracketLookup].contains := by
    intro r
    cases r <;> decide
  have hu := hs.reaches hfirst.reaches
  obtain ⟨first, _, hfirst, hrule, _⟩ := hfirst.takes_pick hpicks hc rfl
  obtain ⟨w, keys, hkeys, hdots⟩ :=
    hkeys.forall_many (fun hs h => afterDot_key hs hc Atomicity.noConfusion h) hu
  obtain ⟨htext, hchildren⟩ := htakes.unique (hfirst.trans hkeys)
  refine ⟨first, keys, hchildren, ?_, by simpa using hrule, hdots⟩
  rw [htext]
  exact List.prefix_append _ _

/-- What holds of each form of an expression, if it does of the parts, holds of every expression that is read;
`Q` is the same for the keys of a lookup. -/
theorem Expression.ofPair_induct {offset : Nat} {P : Pair Rule → Expression → Prop}
    {Q : List (Pair Rule) → List Expression → Prop}
    (empty : ∀ start stop word, P ⟨.string, start, stop, word, []⟩
      (.string "" false (.between (offset + start) (offset + stop))))
    (string : ∀ start stop word body rest, P ⟨.string, start, stop, word, body :: rest⟩
      (.string body.string (body.rule == .singleQuoted) (.between (offset + start) (offset + stop))))
    (number : ∀ start stop word children, P ⟨.number, start, stop, word, children⟩
      (.number (String.ofList word) (.between (offset + start) (offset + stop))))
    (literal : ∀ start stop word children value, Literal.ofKeyword? (String.ofList word) = some value →
      P ⟨.literal, start, stop, word, children⟩ (.literal value (.between (offset + start) (offset + stop))))
    (range : ∀ start stop word p q rest first last, P p first → P q last →
      P ⟨.range, start, stop, word, p :: q :: rest⟩
        (.range first last (.between (offset + start) (offset + stop))))
    (named : ∀ start stop word start' stop' name children ps keys, Q ps keys →
      P ⟨.variableLookup, start, stop, word, ⟨.identifier, start', stop', name, children⟩ :: ps⟩
        (.lookup (some (String.ofList name)) keys (.between (offset + start) (offset + stop))))
    (nameless : ∀ start stop word ps keys,
      (∀ start' stop' name children rest, ps ≠ ⟨.identifier, start', stop', name, children⟩ :: rest) → Q ps keys →
      P ⟨.variableLookup, start, stop, word, ps⟩
        (.lookup none keys (.between (offset + start) (offset + stop))))
    (noKey : Q [] [])
    (dotKey : ∀ start stop name children ps keys, Q ps keys →
      Q (⟨.lookupName, start, stop, name, children⟩ :: ps)
        (.string (String.ofList name) false (.between (offset + start) (offset + stop)) :: keys))
    (bracketKey : ∀ start stop word p children ps key keys, P p key → Q ps keys →
      Q (⟨.bracketLookup, start, stop, word, p :: children⟩ :: ps) (key :: keys))
    {p : Pair Rule} {e : Expression} (h : Expression.ofPair offset p = .ok e) : P p e := by
  revert e h
  refine ofPair.induct offset (fun p => ∀ {e : Expression}, ofPair offset p = .ok e → P p e)
    (fun ps => ∀ {es : List Expression}, keysOfPairs offset ps = .ok es → Q ps es)
    ?empty ?string ?number ?literal ?unknown ?noStart ?noEnd ?range ?named ?nameless ?other ?noKey ?dotKey ?noBracketKey
    ?bracketKey ?otherKey p
  case empty =>
    intro start stop word e h
    rw [ofPair] at h
    cases h
    exact empty ..
  case string =>
    intro start stop word body rest e h
    rw [ofPair] at h
    cases h
    exact string ..
  case number =>
    intro start stop word children e h
    rw [ofPair] at h
    cases h
    exact number ..
  case literal =>
    intro start stop word children value hvalue e h
    rw [ofPair, hvalue] at h
    cases h
    exact literal _ _ _ _ _ hvalue
  case unknown =>
    intro start stop word children hvalue e h
    rw [ofPair, hvalue] at h
    cases h
  case noStart =>
    intro start stop word e h
    rw [ofPair] at h
    cases h
  case noEnd =>
    intro start stop word first e h
    rw [ofPair] at h
    cases h
  case range =>
    intro start stop word first last rest ihfirst ihlast e h
    rw [ofPair] at h
    simp only [bind_eq_ok, pure_eq_ok] at h
    obtain ⟨e₁, h₁, e₂, h₂, rfl⟩ := h
    exact range _ _ _ _ _ _ _ _ (ihfirst h₁) (ihlast h₂)
  case named =>
    intro start stop word start' stop' name children keys ih e h
    rw [ofPair] at h
    simp only [bind_eq_ok, pure_eq_ok] at h
    obtain ⟨es, hes, rfl⟩ := h
    exact named _ _ _ _ _ _ _ _ _ (ih hes)
  case nameless =>
    intro start stop word keys hname ih e h
    rw [ofPair] at h
    · simp only [bind_eq_ok, pure_eq_ok] at h
      obtain ⟨es, hes, rfl⟩ := h
      exact nameless _ _ _ _ _ hname (ih hes)
    · exact hname
  case other =>
    intro p hempty hstring hnumber hliteral hnoStart hnoEnd hrange hname hlookup e h
    rw [ofPair] at h
    · cases h
    all_goals assumption
  case noKey =>
    intro es h
    cases h
    exact noKey
  case dotKey =>
    intro start stop name children rest ih es h
    rw [keysOfPairs] at h
    simp only [bind_eq_ok, pure_eq_ok] at h
    obtain ⟨es', hes', rfl⟩ := h
    exact dotKey _ _ _ _ _ _ (ih hes')
  case noBracketKey =>
    intro start stop word rest es h
    rw [keysOfPairs] at h
    cases h
  case bracketKey =>
    intro start stop word key children rest ihkey ihrest es h
    rw [keysOfPairs] at h
    simp only [bind_eq_ok, pure_eq_ok] at h
    obtain ⟨e, he, es', hes', rfl⟩ := h
    exact bracketKey _ _ _ _ _ _ _ _ (ihkey he) (ihrest hes')
  case otherKey =>
    intro p rest hname hnoKey hkey es h
    rw [keysOfPairs] at h
    · cases h
    all_goals assumption

theorem NamedArgument.ofPair_ok {offset : Nat} {a : NamedArgument} (h : ofPair offset p = .ok a) :
    ∃ name value rest e, p.rule = .namedArgument ∧ p.children = name :: value :: rest ∧
      Expression.ofPair offset value = .ok e ∧ a = ⟨name.string, e, p.span offset⟩ := by
  unfold ofPair at h
  split at h
  case h_3 name value rest hrule hchildren =>
    simp only [bind_eq_ok, pure_eq_ok] at h
    obtain ⟨e, he, rfl⟩ := h
    exact ⟨name, value, rest, e, hrule, hchildren, he, rfl⟩
  all_goals cases h

theorem Test.ofPair_of_ne {offset : Nat} (hrule : p.rule ≠ .comparison) :
    ofPair offset p = .expression <$> Expression.ofPair offset p := by
  unfold ofPair
  split
  case h_5 => rfl
  all_goals contradiction

theorem Test.ofPair_ok {offset : Nat} {t : Test} (h : ofPair offset p = .ok t) :
    (∃ left comparator right rest c e e', p.children = left :: comparator :: right :: rest ∧
      Expression.ofPair offset left = .ok e ∧ Expression.ofPair offset right = .ok e' ∧
      t = .comparison c e e' (p.span offset)) ∨
      ∃ e, Expression.ofPair offset p = .ok e ∧ t = .expression e := by
  unfold ofPair at h
  split at h
  case h_4 left comparator right rest _ hchildren =>
    split at h
    · simp only [bind_eq_ok, pure_eq_ok] at h
      obtain ⟨e, he, e', he', rfl⟩ := h
      exact .inl ⟨left, comparator, right, rest, _, e, e', hchildren, he, he', rfl⟩
    · cases h
  case h_5 =>
    obtain ⟨e, he, rfl⟩ := map_eq_ok.mp h
    exact .inr ⟨e, he, rfl⟩
  all_goals cases h

end LiquidTemplate
