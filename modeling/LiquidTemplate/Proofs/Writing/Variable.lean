import LiquidTemplate.Proofs.Placeholder.Markup
import LiquidTemplate.Token.Reader
import LiquidTemplate.Proofs.Writing.Sealed

namespace LiquidTemplate

open Text

namespace NamedArgument

def write (dots : Expression → Bool) (a : NamedArgument) : List Char :=
  a.name.toList ++ [':'] ++ a.value.write dots

def place (dots : Expression → Bool) (start : Nat) (a : NamedArgument) : NamedArgument :=
  ⟨a.name, a.value.place dots (start + byteLength a.name.toList + 1), .spanning start (a.write dots)⟩

def unplaced (a : NamedArgument) : NamedArgument := ⟨a.name, a.value.unplaced, .unset⟩

def Writable (a : NamedArgument) : Prop := isIdentifier a.name.toList ∧ a.value.Writable false

end NamedArgument

namespace Argument

def write (dots : Expression → Bool) : Argument → List Char
  | positional value => value.write dots
  | named a => a.write dots

def place (dots : Expression → Bool) (start : Nat) : Argument → Argument
  | positional value => positional (value.place dots start)
  | named a => named (a.place dots start)

def unplaced : Argument → Argument
  | positional value => positional value.unplaced
  | named a => named a.unplaced

def Writable : Argument → Prop
  | positional value => value.Writable false
  | named a => a.Writable

def writeAll (dots : Expression → Bool) : Char → List Argument → List Char
  | _, [] => []
  | mark, a :: arguments => [mark] ++ a.write dots ++ writeAll dots ',' arguments

def placeAll (dots : Expression → Bool) : Nat → List Argument → List Argument
  | _, [] => []
  | start, a :: arguments =>
    a.place dots (start + 1) :: placeAll dots (start + 1 + byteLength (a.write dots)) arguments

end Argument

namespace Filter

def write (dots : Expression → Bool) (f : Filter) : List Char :=
  ['|'] ++ f.name.toList ++ Argument.writeAll dots ':' f.arguments

def place (dots : Expression → Bool) (start : Nat) (f : Filter) : Filter :=
  ⟨f.name, Argument.placeAll dots (start + 1 + byteLength f.name.toList) f.arguments, .spanning start (f.write dots)⟩

def unplaced (f : Filter) : Filter := ⟨f.name, f.arguments.map Argument.unplaced, .unset⟩

structure Writable (f : Filter) : Prop where
  name : isIdentifier f.name.toList
  arguments : ∀ a ∈ f.arguments, a.Writable

def placeAll (dots : Expression → Bool) : Nat → List Filter → List Filter
  | _, [] => []
  | start, f :: filters => f.place dots start :: placeAll dots (start + byteLength (f.write dots)) filters

end Filter

namespace Variable

def write (dots : Expression → Bool) (v : Variable) : List Char :=
  v.expression.write dots ++ v.filters.flatMap (·.write dots)

def place (dots : Expression → Bool) (start : Nat) (v : Variable) : Variable :=
  ⟨v.expression.place dots start, Filter.placeAll dots (start + byteLength (v.expression.write dots)) v.filters,
    String.ofList (v.write dots), .spanning start (v.write dots)⟩

def unplaced (v : Variable) : Variable := ⟨v.expression.unplaced, v.filters.map Filter.unplaced, "", .unset⟩

structure Writable (v : Variable) : Prop where
  expression : v.expression.Writable false
  filters : ∀ f ∈ v.filters, f.Writable

end Variable

section Unplaced

variable (dots : Expression → Bool) (start : Nat)

theorem Argument.unplaced_place (a : Argument) : (a.place dots start).unplaced = a.unplaced := by
  cases a with
  | positional value => simp only [place, unplaced, Expression.unplaced_place]
  | named a => simp only [place, unplaced, NamedArgument.place, NamedArgument.unplaced, Expression.unplaced_place]

theorem Argument.unplaced_placeAll (arguments : List Argument) :
    (placeAll dots start arguments).map unplaced = arguments.map unplaced := by
  induction arguments generalizing start with
  | nil => rfl
  | cons a arguments ih => simp only [placeAll, List.map_cons, unplaced_place, ih]

theorem Filter.unplaced_placeAll (filters : List Filter) :
    (placeAll dots start filters).map unplaced = filters.map unplaced := by
  induction filters generalizing start with
  | nil => rfl
  | cons f filters ih => simp only [placeAll, List.map_cons, ih, place, unplaced, Argument.unplaced_placeAll]

/-- The spans and the text are all that is different. -/
theorem Variable.unplaced_place (v : Variable) : (v.place dots start).unplaced = v.unplaced := by
  simp only [place, unplaced, Expression.unplaced_place, Filter.unplaced_placeAll]

end Unplaced

open Peg Peg.Expr Rule

variable {dots : Expression → Bool} {s : State Rule} {rest w : List Char}

def AtFilter (rest : List Char) : Prop := ∀ x ∈ rest.head?, x = '|'

theorem AtFilter.afterExpression (h : AtFilter rest) : AfterExpression rest := by
  cases rest with
  | nil => exact .finish
  | cons x rest =>
      rw [h x rfl]
      exact .mark (by decide)

/-- No argument starts where a filter may. -/
theorem AtFilter.gives_mark_none {x : Char} (h : AtFilter rest) (hx : x ≠ '|') (hs : s.rest = rest) :
    Gives grammar .top (word [x]) s none := by
  apply gives_word_none_of_head
  rw [hs]
  exact fun hhead => hx (h x hhead)

/-- An expression is no named argument: its name, if it starts with one, ends where no colon stands. -/
theorem gives_namedArgument_none (hs : Opens s.rest) : Gives grammar .top (call namedArgument) s none := by
  suffices h : Gives grammar .top (call argumentName ++ lit ":") s none from
    .pair_none (c := .top) (r := namedArgument) rfl Kind.noConfusion rfl rfl h.seq_none
  generalize hw : s.rest = w at hs
  cases hs with
  | @name v w hv hstop =>
      have hend : ∀ x ∈ w.head?, isNameChar x = false ∧ x ≠ ':' ∧ grammar.blank x = false := by
        intro x hx
        rcases List.mem_cons.mp (hstop x hx) with rfl | hx
        · decide
        · obtain ⟨hname, _, hcolon, hblank⟩ := not_part_of_stopLetter hx
          exact ⟨hname, hcolon, hblank⟩
      have hname := gives_nameRule (c := .top) (r := argumentName) rfl rfl rfl hv (fun x hx => (hend x hx).1) hw
      refine hname.seq_tight_none (fun x hx => (hend x hx).2.2) (gives_word_none_of_head ?_)
      exact fun hhead => (hend ':' hhead).2.1 rfl
  | @mark x w hx =>
      refine Gives.seq_none (gives_nameRule_none rfl rfl (.inl rfl) ?_)
      rw [hw]
      rintro y ⟨⟩
      exact hx

theorem NamedArgument.reads_write (a : NamedArgument) (ha : a.Writable) (hrest : AfterExpression rest)
    (hs : s.rest = a.write dots ++ rest) :
    ∃ p, Gives grammar .top (call namedArgument) s (some (s.past (a.write dots) rest [p])) ∧
      p.rule = .namedArgument ∧ ∀ offset, ofPair offset p = .ok (a.place dots (offset + s.offset)) := by
  obtain ⟨hname, hvalue⟩ := ha
  have hs' := hs
  rw [write, List.append_assoc, List.append_assoc] at hs'
  have hfirst := gives_nameRule (c := .top) (r := argumentName) rfl rfl rfl hname (by rintro x ⟨⟩; rfl) hs'
  have hfirst := hfirst.seq_word (by rintro x ⟨⟩; rfl)
  obtain ⟨p, hp, hplace⟩ := Expression.reads_write dots false a.value hvalue
    (s := s.over (a.name.toList ++ [':']) (a.value.write dots ++ rest)) hrest rfl
  have hbody := hfirst.seq_tight (Expression.opens_write dots hvalue hrest).tight hp
  have hpair := Gives.pair_past (c := .top) (r := namedArgument) rfl Kind.noConfusion rfl rfl hs hbody
  refine ⟨_, hpair, rfl, fun offset => ?_⟩
  have hchildren : ([p] ++ [s.pair argumentName a.name.toList []]).reverse =
      [s.pair argumentName a.name.toList [], p] := rfl
  have hvalue : Expression.ofPair offset p =
      .ok (a.value.place dots (offset + s.offset + byteLength a.name.toList + 1)) := by
    rw [hplace, State.over, byteLength_append, ← Nat.add_assoc, ← Nat.add_assoc]
    rfl
  rw [hchildren, ofPair, Expression.span_pair]
  simp only [State.pair, Pair.string, String.ofList_toList, hvalue]
  rfl

theorem Expression.rule_ne_namedArgument {offset : Nat} {p : Pair Rule} {e : Expression}
    (h : ofPair offset p = .ok e) : p.rule ≠ .namedArgument := by
  intro hrule
  obtain ⟨rule, start, stop, text, children⟩ := p
  cases hrule
  simp [ofPair] at h

theorem Argument.reads_write (a : Argument) (ha : a.Writable) (hrest : AfterExpression rest)
    (hs : s.rest = a.write dots ++ rest) :
    ∃ p, Gives grammar .top (call argument) s (some (s.past (a.write dots) rest [p])) ∧
      ∀ offset, ofPair offset p = .ok (a.place dots (offset + s.offset)) := by
  cases a with
  | positional value =>
      obtain ⟨p, hp, hplace⟩ := Expression.reads_write dots false value ha hrest hs
      have hnone : Gives grammar .top (call namedArgument) s none :=
        gives_namedArgument_none (hs ▸ Expression.opens_write dots ha hrest)
      refine ⟨p, (gives_silent rfl).mpr (hnone.alt hp), fun offset => ?_⟩
      have hrule : p.rule ≠ .namedArgument := Expression.rule_ne_namedArgument (hplace offset)
      rw [ofPair, if_neg hrule, hplace]
      rfl
  | named a =>
      obtain ⟨p, hp, hrule, hplace⟩ := a.reads_write ha hrest hs
      refine ⟨p, (gives_silent rfl).mpr hp.first, fun offset => ?_⟩
      rw [ofPair, if_pos hrule, hplace]
      rfl

theorem afterExpression_writeAll {arguments : List Argument} (hrest : AtFilter rest) :
    AfterExpression (Argument.writeAll dots ',' arguments ++ rest) := by
  cases arguments with
  | nil => exact hrest.afterExpression
  | cons a arguments => exact .mark (by decide)

/-- The pairs of a match are listed from the last one on. -/
theorem mapM_reverse_concat_ok {α β ε : Type} {f : α → Except ε β} {x : α} {xs : List α} {y : β} {ys : List β}
    (hx : f x = .ok y) (hxs : xs.reverse.mapM f = .ok ys) : (xs ++ [x]).reverse.mapM f = .ok (y :: ys) := by
  rw [List.reverse_append, List.reverse_singleton, List.singleton_append, List.mapM_cons, hx, hxs]
  rfl

theorem Argument.tight_write {a : Argument} {more : List Char} (ha : a.Writable) (hmore : AfterExpression more) :
    Tight grammar.blank (a.write dots ++ more) := by
  cases a with
  | positional value => exact (Expression.opens_write dots ha hmore).tight
  | named a =>
      rw [write, NamedArgument.write, List.append_assoc, List.append_assoc]
      exact tight_of_isIdentifier ha.1

theorem Argument.reads_marked {mark : Char} {a : Argument} {more : List Char} (hmark : mark.utf8Size = 1)
    (ha : a.Writable) (hmore : AfterExpression more) (hs : s.rest = [mark] ++ a.write dots ++ more) :
    ∃ p, Gives grammar .top (word [mark] ++ call argument) s (some (s.past ([mark] ++ a.write dots) more [p])) ∧
      ∀ offset, ofPair offset p = .ok (a.place dots (offset + s.offset + 1)) := by
  have hfirst : Gives grammar .top (word [mark]) s (some (s.past [mark] (a.write dots ++ more) [])) :=
    gives_word_over (hs.trans (List.append_assoc ..))
  obtain ⟨p, hp, hplace⟩ := a.reads_write (s := s.over [mark] (a.write dots ++ more)) ha hmore rfl
  have hoffset : (s.over [mark] (a.write dots ++ more)).offset = s.offset + 1 := by
    rw [State.over, byteLength, hmark]
    rfl
  rw [hoffset] at hplace
  exact ⟨p, hfirst.seq_tight (tight_write ha hmore) hp, hplace⟩

theorem Argument.reads_writeAll (hrest : AtFilter rest) (arguments : List Argument)
    (harguments : ∀ a ∈ arguments, a.Writable) (hs : s.rest = writeAll dots ',' arguments ++ rest) :
    ∃ ps, Gives grammar .top (many (lit "," ++ call argument)) s
        (some (s.past (writeAll dots ',' arguments) rest ps)) ∧
      ∀ offset, ps.reverse.mapM (ofPair offset) = .ok (placeAll dots (offset + s.offset) arguments) := by
  induction arguments generalizing s with
  | nil =>
      have hnone : Gives grammar .top (lit ",") s none := hrest.gives_mark_none (by decide) hs
      exact ⟨[], .many_none hnone.seq_none hs, fun _ => rfl⟩
  | cons a arguments ih =>
      obtain ⟨ha, harguments⟩ := List.forall_mem_cons.mp harguments
      rw [writeAll, List.append_assoc] at hs
      obtain ⟨p, hp, hplace⟩ := Argument.reads_marked rfl ha (afterExpression_writeAll hrest) hs
      obtain ⟨ps, hps, hreads⟩ := ih (s := s.over _ (writeAll dots ',' arguments ++ rest)) harguments rfl
      refine ⟨ps ++ [p], hp.many_tight (afterExpression_writeAll hrest).tight hps, fun offset => ?_⟩
      have hmore := hreads offset
      rw [State.over, byteLength_append, ← Nat.add_assoc, ← Nat.add_assoc] at hmore
      exact mapM_reverse_concat_ok (hplace offset) hmore

theorem Argument.reads_writeFirst (hrest : AtFilter rest) (arguments : List Argument)
    (harguments : ∀ a ∈ arguments, a.Writable) (hs : s.rest = writeAll dots ':' arguments ++ rest) :
    ∃ ps, Gives grammar .top (opt (lit ":" ++ call argument ++ many (lit "," ++ call argument))) s
        (some (s.past (writeAll dots ':' arguments) rest ps)) ∧
      ∀ offset, ps.reverse.mapM (ofPair offset) = .ok (placeAll dots (offset + s.offset) arguments) := by
  cases arguments with
  | nil =>
      have hnone : Gives grammar .top (lit ":") s none := hrest.gives_mark_none (by decide) hs
      exact ⟨[], .opt_none hnone.seq_none.seq_none hs, fun _ => rfl⟩
  | cons a arguments =>
      obtain ⟨ha, harguments⟩ := List.forall_mem_cons.mp harguments
      rw [writeAll, List.append_assoc] at hs
      obtain ⟨p, hp, hplace⟩ := Argument.reads_marked rfl ha (afterExpression_writeAll hrest) hs
      obtain ⟨ps, hps, hreads⟩ := Argument.reads_writeAll (s := s.over _ (writeAll dots ',' arguments ++ rest)) hrest
        arguments harguments rfl
      have hall := hp.seq_tight (afterExpression_writeAll hrest).tight hps
      refine ⟨ps ++ [p], gives_opt.mpr (.inl ⟨_, hall, rfl⟩), fun offset => ?_⟩
      have hmore := hreads offset
      rw [State.over, byteLength_append, ← Nat.add_assoc, ← Nat.add_assoc] at hmore
      exact mapM_reverse_concat_ok (hplace offset) hmore

theorem Filter.reads_write (f : Filter) (hf : f.Writable) (hrest : AtFilter rest)
    (hs : s.rest = f.write dots ++ rest) :
    ∃ p, Gives grammar .top (call filter) s (some (s.past (f.write dots) rest [p])) ∧
      ∀ offset, ofPair offset p = .ok (f.place dots (offset + s.offset)) := by
  have hs' := hs
  rw [write, List.append_assoc, List.append_assoc] at hs'
  have hstop : ∀ x ∈ (Argument.writeAll dots ':' f.arguments ++ rest).head?,
      isNameChar x = false ∧ grammar.blank x = false := by
    cases f.arguments with
    | nil =>
        intro x hx
        rw [hrest x hx]
        decide
    | cons a arguments =>
        rintro x ⟨⟩
        decide
  have hbar : Gives grammar .top (lit "|") s (some (s.past ['|'] _ [])) := gives_word_over hs'
  have hname := gives_nameRule (c := .top) (r := filterName) (s := s.over ['|'] _) rfl rfl rfl hf.name
    (fun x hx => (hstop x hx).1) rfl
  have hfirst := hbar.seq_tight (tight_of_isIdentifier hf.name) hname
  obtain ⟨ps, hps, hreads⟩ := Argument.reads_writeFirst (s := s.over (['|'] ++ f.name.toList) _) hrest f.arguments
    hf.arguments rfl
  have hbody := hfirst.seq_tight (fun x hx => (hstop x hx).2) hps
  have hpair := Gives.pair_past (c := .top) (r := filter) rfl Kind.noConfusion rfl rfl hs hbody
  refine ⟨_, hpair, fun offset => ?_⟩
  have harguments := hreads offset
  have hoffset : offset + (s.offset + byteLength (['|'] ++ f.name.toList)) =
      offset + s.offset + 1 + byteLength f.name.toList := by
    rw [byteLength_append, ← Nat.add_assoc, ← Nat.add_assoc]
    rfl
  rw [State.over, hoffset] at harguments
  rw [List.append_nil, List.reverse_append, List.reverse_singleton, List.singleton_append, ofPair,
    Expression.span_pair]
  simp only [State.pair, Pair.string, String.ofList_toList, harguments]
  rfl

theorem Filter.atFilter_writeAll (dots : Expression → Bool) (filters : List Filter) :
    AtFilter (filters.flatMap (·.write dots)) := by
  cases filters with
  | nil => simp [AtFilter]
  | cons f filters =>
      rintro x ⟨⟩
      rfl

theorem Filter.reads_writeAll (filters : List Filter) (hfilters : ∀ f ∈ filters, f.Writable)
    (hs : s.rest = filters.flatMap (·.write dots)) :
    ∃ ps, Gives grammar .top (many (call filter)) s (some (s.past (filters.flatMap (·.write dots)) [] ps)) ∧
      ∀ offset, ps.reverse.mapM (ofPair offset) = .ok (placeAll dots (offset + s.offset) filters) := by
  induction filters generalizing s with
  | nil =>
      have hnone : Gives grammar .top (call filter) s none := by
        refine gives_call_none rfl rfl .top ?_
        intro rest' hrest'
        cases hs.symm.trans hrest'
      exact ⟨[], .many_none hnone hs, fun _ => rfl⟩
  | cons f filters ih =>
      obtain ⟨hf, hfilters⟩ := List.forall_mem_cons.mp hfilters
      obtain ⟨p, hp, hplace⟩ := f.reads_write hf (atFilter_writeAll dots filters) hs
      obtain ⟨ps, hps, hreads⟩ := ih (s := s.over _ (filters.flatMap (·.write dots))) hfilters rfl
      refine ⟨ps ++ [p], hp.many_tight (atFilter_writeAll dots filters).afterExpression.tight hps, fun offset => ?_⟩
      have hmore := hreads offset
      rw [State.over, ← Nat.add_assoc] at hmore
      exact mapM_reverse_concat_ok (hplace offset) hmore

theorem Variable.reads_write (v : Variable) (hv : v.Writable) (hs : s.rest = v.write dots) :
    ∃ p, Gives grammar .top (call liquidVariable) s (some (s.past (v.write dots) [] [p])) ∧ p.rule = .liquidVariable ∧
      ∀ offset, ofPair offset p = .ok (v.place dots (offset + s.offset)) := by
  have hfollows := (Filter.atFilter_writeAll dots v.filters).afterExpression
  obtain ⟨p, hp, hplace⟩ := Expression.reads_write dots false v.expression hv.expression hfollows hs
  obtain ⟨ps, hps, hreads⟩ := Filter.reads_writeAll (s := s.over (v.expression.write dots) _) v.filters hv.filters rfl
  have hbody := hp.seq_tight hfollows.tight hps
  have hpair := Gives.pair_past (c := .top) (r := liquidVariable) rfl Kind.noConfusion rfl rfl
    (hs.trans (List.append_nil _).symm) hbody
  refine ⟨_, hpair, rfl, fun offset => ?_⟩
  have hfilters := hreads offset
  rw [State.over, ← Nat.add_assoc] at hfilters
  rw [List.reverse_append, List.reverse_singleton, List.singleton_append, ofPair, Expression.span_pair]
  simp only [State.pair, Pair.string, hplace, hfilters]
  rfl

theorem Argument.sealed_write (a : Argument) (ha : a.Writable) : Sealed (a.write dots) := by
  cases a with
  | positional value => exact value.sealed_write dots false ha
  | named a =>
      obtain ⟨hname, hvalue⟩ := ha
      have hmark : Sealed [':'] := sealed_of_all rfl
      exact ((sealed_of_isIdentifier hname).append hmark).append (a.value.sealed_write dots false hvalue)

theorem Argument.sealed_writeAll {mark : Char} (hmark : Sealed [mark]) (arguments : List Argument)
    (harguments : ∀ a ∈ arguments, a.Writable) : Sealed (writeAll dots mark arguments) := by
  induction arguments generalizing mark with
  | nil => exact sealed_of_all rfl
  | cons a arguments ih =>
      obtain ⟨ha, harguments⟩ := List.forall_mem_cons.mp harguments
      exact (hmark.append (a.sealed_write ha)).append (ih (sealed_of_all rfl) harguments)

theorem Filter.sealed_write (f : Filter) (hf : f.Writable) : Sealed (f.write dots) :=
  have hbar : Sealed ['|'] := sealed_of_all rfl
  (hbar.append (sealed_of_isIdentifier hf.name)).append
    (Argument.sealed_writeAll (sealed_of_all rfl) f.arguments hf.arguments)

theorem Variable.sealed_write (v : Variable) (hv : v.Writable) : Sealed (v.write dots) := by
  have hfilters : ∀ filters : List Filter, (∀ f ∈ filters, f.Writable) → Sealed (filters.flatMap (·.write dots)) := by
    intro filters hfilters
    induction filters with
    | nil => exact sealed_of_all rfl
    | cons f filters ih =>
        obtain ⟨hf, hfilters⟩ := List.forall_mem_cons.mp hfilters
        exact (f.sealed_write hf).append (ih hfilters)
  exact (v.expression.sealed_write dots false hv.expression).append (hfilters v.filters hv.filters)

theorem gives_endPair (hs : s.rest = []) :
    Gives grammar .top (call endOfInput) s (some (s.past [] [] [s.pair endOfInput [] []])) := by
  have hfinish : Gives grammar .top finish s (some (s.past [] [] [])) := by
    rw [gives_finish, if_pos hs]
    exact congrArg some (State.over_nil s hs)
  exact .pair_past (c := .top) (r := endOfInput) rfl Kind.noConfusion rfl rfl hs hfinish

/-- A match of a whole text is what its parse answers. -/
theorem parse_of_gives {r : Rule} {text : List Char} {ps : List (Pair Rule)} (hkind : grammar.kind r = .plain)
    (hneeds : r.needs = 0)
    (h : Gives grammar .top (grammar.body r) (Grammar.initial text) (some ((Grammar.initial text).past text [] ps))) :
    grammar.parse r text = .ok [(Grammar.initial text).pair r text ps.reverse] := by
  have hgives := Grammar.gives_parse (r := r) (by rw [hkind]; exact Kind.noConfusion) (parse_ne_fault hneeds text)
  rw [hkind] at hgives
  rcases hgives with ⟨t, ht, hparse⟩ | ⟨hnone, _⟩
  · cases ht.unique h
    have hconsumed : (Grammar.initial text).consumed ((Grammar.initial text).past text [] ps) = text :=
      State.consumed_eq (List.append_nil text).symm rfl
    rw [hparse, State.paired, hconsumed]
    rfl
  · cases hnone.unique h

theorem Variable.parse_write (dots : Expression → Bool) (v : Variable) (hv : v.Writable) :
    ∃ p q : Pair Rule, grammar.parse .markupVariable (v.write dots) =
        .ok [(Grammar.initial (v.write dots)).pair markupVariable (v.write dots) [p, q]] ∧
      p.rule = .liquidVariable ∧ q.rule = .endOfInput ∧ ∀ offset, ofPair offset p = .ok (v.place dots offset) := by
  obtain ⟨p, hp, hrule, hplace⟩ := v.reads_write (s := Grammar.initial (v.write dots)) hv rfl
  have hstart : Gives grammar .top start (Grammar.initial (v.write dots))
      (some ((Grammar.initial (v.write dots)).past [] (v.write dots) [])) := gives_start rfl
  have hfilters := (Filter.atFilter_writeAll dots v.filters).afterExpression
  have hopens := Expression.opens_write dots hv.expression hfilters
  have hend : Tight grammar.blank [] := by simp [Tight]
  have hbody := (hstart.seq_tight hopens.tight hp).seq_tight hend (gives_endPair rfl)
  rw [List.nil_append, List.append_nil] at hbody
  have hparse := parse_of_gives (r := markupVariable) rfl rfl hbody
  refine ⟨p, _, hparse, hrule, rfl, fun offset => ?_⟩
  exact hplace offset

/-- A variable that is written as the markup of `echo` is read again, with the place of every part in what is
written. -/
theorem Variable.read_write (dots : Expression → Bool) (v : Variable) (hv : v.Writable) (read : Token.ReadText)
    (offset : Nat) (build : Tag → Token) (markupSpan : Span) (trim : Trim) (span : Span) :
    Token.tagOfParts read ⟨offset, .strict⟩ build "echo" (v.write dots) markupSpan trim span =
        .ok (build ⟨"echo", .echo (v.place dots markupSpan.lo), markupSpan, trim, span⟩) ∧
      (v.place dots markupSpan.lo).unplaced = v.unplaced := by
  obtain ⟨p, q, hparse, hp, hq, hplace⟩ := v.parse_write dots hv
  refine ⟨?_, v.unplaced_place dots _⟩
  have hmatch := Markup.matchRule_of_parse rfl hparse (v.sealed_write hv).outside ⟨offset, .strict⟩ markupSpan.lo
  have hread : Markup.read ⟨offset, .strict⟩ markupSpan.lo .echo .markupVariable (v.write dots) =
      .ok (.echo (v.place dots markupSpan.lo)) := by
    have hparts : Markup.parts ((Grammar.initial (v.write dots)).pair markupVariable (v.write dots) [p, q]) = [p] := by
      simp [Markup.parts, State.pair, hp, hq]
    refine bind_eq_ok.mpr ⟨_, hmatch, ?_⟩
    simp only [Markup.ofPair, hparts, List.getElem?_cons_zero, expect_some, ok_bind, hplace]
    rfl
  have hnamed : NamedTag.ofName? "echo" = some .echo := rfl
  simp only [Token.tagOfParts, hnamed, NamedTag.markupRule?, hread]
  rfl

def keyedVariable : Variable where
  expression := .lookup (some "a") [.string "b" false .unset, .string "c?" false .unset,
    .range (.number "1" .unset) (.lookup (some "true") [.lookup none [.literal .nil .unset] .unset] .unset) .unset]
    .unset
  filters := [
    ⟨"f", [.named ⟨"g", .number "-1.5" .unset, .unset⟩, .positional (.string "\u2588" true .unset)], .unset⟩,
    ⟨"h", [], .unset⟩]
  source := ""
  span := .unset

def dottedButB : Expression → Bool
  | .string value _ _ => value != "b"
  | _ => false

theorem Variable.read_write_keyedVariable :
    keyedVariable.Writable ∧
      ∃ placed : Variable, placed.unplaced = keyedVariable.unplaced ∧ placed.expression.span = .between 20 47 ∧
        Token.tagOfParts (fun _ _ _ => .ok []) ⟨3, .strict⟩ .tag "echo"
            "a[\"b\"].c?[(1..true[[nil]])]|f:g:-1.5,'\u2588'|h".toList (.between 20 64) ⟨true, false⟩ (.between 10 67) =
          .ok (.tag ⟨"echo", .echo placed, .between 20 64, ⟨true, false⟩, .between 10 67⟩) := by
  have hone : IsNumber ([] ++ ['1']) := .whole (by simp) ⟨by simp, by simp⟩
  have hdecimal : IsNumber (['-'] ++ ['1'] ++ '.' :: ['5']) :=
    .fraction (by simp) ⟨by simp, by simp⟩ ⟨by simp, by simp⟩
  have hroot : ∀ l : Literal, unasked "a".toList ≠ l.keyword.toList := by
    rintro ((_ | _) | _ | _ | _ | _) <;> decide
  have hv : keyedVariable.Writable := by
    constructor
    · have hlast : Expression.Writable true
          (.lookup (some "true") [.lookup none [.literal .nil .unset] .unset] .unset) :=
        ⟨by decide, nofun, ⟨List.cons_ne_nil _ _, rfl, trivial⟩, trivial⟩
      exact ⟨by decide, fun _ => hroot, ⟨rfl, by decide⟩, ⟨rfl, by decide⟩, ⟨rfl, hone, hlast⟩, trivial⟩
    · rintro f hf
      simp only [keyedVariable, List.mem_cons, List.not_mem_nil, or_false] at hf
      rcases hf with rfl | rfl
      · refine ⟨by decide, List.forall_mem_cons.mpr ⟨⟨by decide, hdecimal⟩, ?_⟩⟩
        exact List.forall_mem_singleton.mpr ⟨rfl, by decide⟩
      · exact ⟨by decide, List.forall_mem_nil _⟩
  refine ⟨hv, keyedVariable.place dottedButB 20, ?_, ?_, ?_⟩
  · exact (Variable.read_write dottedButB keyedVariable hv (fun _ _ _ => .ok []) 3 .tag (.between 20 64) ⟨true, false⟩
      (.between 10 67)).2
  · decide
  · exact (Variable.read_write dottedButB keyedVariable hv (fun _ _ _ => .ok []) 3 .tag (.between 20 64) ⟨true, false⟩
      (.between 10 67)).1

end LiquidTemplate
