import LiquidTemplate.Proofs.Rule.Spelling

namespace LiquidTemplate

open Text

def Span.spanning (start : Nat) (w : List Char) : Span := .between start (start + byteLength w)

namespace Expression

/-- What a key is written as after a dot, if it is one of those that are written so.  The first key of a lookup
without a root has nothing before it that a dot could follow. -/
def dotted? (dots : Expression → Bool) (rooted : Bool) : Expression → Option String
  | string value false s =>
    if rooted && dots (string value false s) && isIdentifier (unasked value.toList) then some value else none
  | _ => none

section Dotted

variable {dots : Expression → Bool} {rooted : Bool} {key : Expression} {name : String}

theorem dotted?_unrooted : dotted? dots false key = none := by
  unfold dotted?
  split <;> rfl

theorem dotted?_eq_some (h : dotted? dots rooted key = some name) :
    isIdentifier (unasked name.toList) ∧ ∃ s, key = string name false s := by
  unfold dotted? at h
  split at h
  · split at h <;> cases h
    rename_i hname
    exact ⟨(Bool.and_eq_true_iff.mp hname).2, _, rfl⟩
  · cases h

end Dotted

def writeKey (w : List Char) : Option String → List Char
  | some name => '.' :: name.toList
  | none => '[' :: (w ++ [']'])

mutual

def write (dots : Expression → Bool) : Expression → List Char
  | string value single _ => quoteMark single :: (value.toList ++ [quoteMark single])
  | number digits _ => digits.toList
  | literal value _ => value.keyword.toList
  | range first last _ => ['('] ++ write dots first ++ ['.', '.'] ++ write dots last ++ [')']
  | lookup (some root) keys _ => root.toList ++ writeKeys dots true keys
  | lookup none keys _ => writeKeys dots false keys

def writeKeys (dots : Expression → Bool) : Bool → List Expression → List Char
  | _, [] => []
  | rooted, key :: keys => writeKey (write dots key) (dotted? dots rooted key) ++ writeKeys dots true keys

end

def placeKey (start : Nat) (key : Expression) : Option String → Expression
  | some name => string name false (.spanning (start + 1) name.toList)
  | none => key

mutual

/-- The expression with the spans that its parts have when it is written at an offset. -/
def place (dots : Expression → Bool) (start : Nat) : Expression → Expression
  | string value single s => string value single (.spanning start (write dots (string value single s)))
  | number digits s => number digits (.spanning start (write dots (number digits s)))
  | literal value s => literal value (.spanning start (write dots (literal value s)))
  | range first last s =>
    range (place dots (start + 1) first) (place dots (start + 1 + byteLength (write dots first) + 2) last)
      (.spanning start (write dots (range first last s)))
  | lookup (some root) keys s =>
    lookup (some root) (placeKeys dots true (start + byteLength root.toList) keys)
      (.spanning start (write dots (lookup (some root) keys s)))
  | lookup none keys s =>
    lookup none (placeKeys dots false start keys) (.spanning start (write dots (lookup none keys s)))

def placeKeys (dots : Expression → Bool) : Bool → Nat → List Expression → List Expression
  | _, _, [] => []
  | rooted, start, key :: keys =>
    placeKey start (place dots (start + 1) key) (dotted? dots rooted key) ::
      placeKeys dots true (start + byteLength (writeKey (write dots key) (dotted? dots rooted key))) keys

end

mutual

def unplaced : Expression → Expression
  | string value single _ => string value single .unset
  | number digits _ => number digits .unset
  | literal value _ => literal value .unset
  | range first last _ => range (unplaced first) (unplaced last) .unset
  | lookup root keys _ => lookup root (allUnplaced keys) .unset

def allUnplaced : List Expression → List Expression
  | [] => []
  | key :: keys => unplaced key :: allUnplaced keys

end

mutual

/-- Whether the expression can be written, as a bound of a range or anywhere else.  Only a bound may have a
keyword as its root, with a question mark after it or without. -/
def Writable (bound : Bool) : Expression → Prop
  | string value single _ => bound = false ∧ quoteMark single ∉ value.toList
  | number digits _ => IsNumber digits.toList
  | literal _ _ => bound = false
  | range first last _ => bound = false ∧ Writable true first ∧ Writable true last
  | lookup (some root) keys _ =>
    isIdentifier (unasked root.toList) ∧
      (bound = false → ∀ l : Literal, unasked root.toList ≠ l.keyword.toList) ∧ KeysWritable keys
  | lookup none keys _ => keys ≠ [] ∧ KeysWritable keys

def KeysWritable : List Expression → Prop
  | [] => True
  | key :: keys => Writable false key ∧ KeysWritable keys

end

mutual

/-- The spans are all that is different. -/
theorem unplaced_place (dots : Expression → Bool) (start : Nat) : (e : Expression) →
    (e.place dots start).unplaced = e.unplaced
  | string _ _ _ | number _ _ | literal _ _ => by simp only [place, unplaced]
  | range first last _ => by
    simp only [place, unplaced, unplaced_place dots _ first, unplaced_place dots _ last]
  | lookup (some _) keys _ | lookup none keys _ => by
    simp only [place, unplaced, allUnplaced_placeKeys dots _ _ keys]

theorem allUnplaced_placeKeys (dots : Expression → Bool) (rooted : Bool) (start : Nat) : (keys : List Expression) →
    allUnplaced (placeKeys dots rooted start keys) = allUnplaced keys
  | [] => by simp only [placeKeys]
  | key :: keys => by
    have hkey : (placeKey start (key.place dots (start + 1)) (dotted? dots rooted key)).unplaced = key.unplaced := by
      cases hdotted : dotted? dots rooted key with
      | none => exact unplaced_place dots _ key
      | some name =>
          obtain ⟨_, s, rfl⟩ := dotted?_eq_some hdotted
          simp only [placeKey, unplaced]
    simp only [placeKeys, allUnplaced, hkey, allUnplaced_placeKeys dots _ _ keys]

end

end Expression

open Peg Peg.Expr Rule

def stopLetters : List Char := ['|', ',', ']', ')', '.', '[']

theorem not_part_of_stopLetter {x : Char} (h : x ∈ stopLetters) :
    isNameChar x = false ∧ x ≠ '?' ∧ x ≠ ':' ∧ grammar.blank x = false := by
  simp only [stopLetters, List.mem_cons, List.not_mem_nil, or_false] at h
  rcases h with rfl | rfl | rfl | rfl | rfl | rfl <;> decide

inductive AfterExpression : List Char → Prop
  | finish : AfterExpression []
  | mark {x : Char} {rest : List Char} : x ∈ ['|', ',', ']', ')'] → AfterExpression (x :: rest)
  | dots {rest : List Char} : AfterExpression ('.' :: '.' :: rest)

namespace AfterExpression

variable {rest : List Char}

theorem head (h : AfterExpression rest) : ∀ x ∈ rest.head?, x ∈ stopLetters := by
  cases h with
  | finish => simp
  | @mark x rest hx =>
      rintro y ⟨⟩
      simp only [List.mem_cons, List.not_mem_nil, or_false] at hx
      rcases hx with rfl | rfl | rfl | rfl <;> decide
  | dots =>
      rintro y ⟨⟩
      decide

theorem not_isNameChar (h : AfterExpression rest) : ∀ x ∈ rest.head?, isNameChar x = false :=
  fun x hx => (not_part_of_stopLetter (h.head x hx)).1

theorem tight (h : AfterExpression rest) : Tight grammar.blank rest :=
  fun x hx => (not_part_of_stopLetter (h.head x hx)).2.2.2

theorem not_bracket {more : List Char} (h : AfterExpression rest) : rest ≠ '[' :: more := by
  rintro rfl
  cases h with
  | mark hx => exact absurd hx (by decide)

/-- Neither a decimal nor a key follows on a dot. -/
theorem after_dot (h : AfterExpression rest) {x : Char} (hx : ['.', x] <+: rest) : x = '.' := by
  obtain ⟨more, hmore⟩ := hx
  cases h with
  | finish => cases hmore
  | mark hmark =>
      obtain ⟨rfl, _⟩ := List.cons.inj hmore
      exact absurd hmark (by decide)
  | dots => exact (List.cons.inj (List.cons.inj hmore).2).1

end AfterExpression

inductive Opens : List Char → Prop
  | name {v w : List Char} : isIdentifier v → (∀ x ∈ w.head?, x ∈ '?' :: stopLetters) → Opens (v ++ w)
  | mark {x : Char} {w : List Char} : isNameStart x = false → grammar.blank x = false → Opens (x :: w)

theorem blank_of_isNameChar {x : Char} (h : isNameChar x) : grammar.blank x = false := by
  by_contra hblank
  simp only [grammar, Bool.not_eq_false, Bool.or_eq_true, beq_iff_eq] at hblank
  rcases hblank with ((rfl | rfl) | rfl) | rfl <;> exact absurd h (by decide)

theorem tight_of_isIdentifier {v w : List Char} (h : isIdentifier v) : Tight grammar.blank (v ++ w) := by
  obtain ⟨x, v, rfl, hx, _⟩ := exists_of_isIdentifier h
  rintro y ⟨⟩
  exact blank_of_isNameChar (isNameChar_of_isNameStart hx)

theorem Opens.tight {w : List Char} (h : Opens w) : Tight grammar.blank w := by
  cases h with
  | name hv => exact tight_of_isIdentifier hv
  | mark _ hblank =>
      rintro y ⟨⟩
      exact hblank

namespace Expression

variable {dots : Expression → Bool} {bound rooted : Bool} {e : Expression} {keys : List Expression}
  {rest : List Char}

theorem head_writeKeys (hrest : AfterExpression rest) :
    ∀ x ∈ (writeKeys dots rooted keys ++ rest).head?, x ∈ stopLetters := by
  cases keys with
  | nil => exact hrest.head
  | cons key keys =>
      rw [writeKeys]
      cases dotted? dots rooted key <;> (rintro x ⟨⟩; decide)

theorem opens_root {root : String} (hroot : isIdentifier (unasked root.toList))
    (hrest : ∀ x ∈ rest.head?, x ∈ stopLetters) : Opens (root.toList ++ rest) := by
  rcases unasked_cases root.toList with hplain | hasked
  · rw [hplain]
    exact .name hroot fun x hx => List.mem_cons_of_mem _ (hrest x hx)
  · rw [hasked, List.append_assoc]
    refine .name hroot ?_
    rintro x ⟨⟩
    exact List.mem_cons_self

theorem opens_write (dots : Expression → Bool) (he : e.Writable bound) (hrest : AfterExpression rest) :
    Opens (e.write dots ++ rest) := by
  cases e with
  | string value single _ =>
      rw [write]
      cases single <;> exact .mark rfl rfl
  | number digits _ =>
      obtain ⟨x, v, hv, hx⟩ := IsNumber.head he
      rw [write, hv]
      rcases hx with rfl | hx
      · exact .mark rfl rfl
      · exact .mark (isNameStart_of_isDigit hx) (blank_of_isNameChar (isNameChar_of_isDigit hx))
  | literal value _ =>
      rw [write]
      exact .name value.isIdentifier_keyword fun x hx => List.mem_cons_of_mem _ (hrest.head x hx)
  | range first last _ =>
      rw [write]
      exact .mark rfl rfl
  | lookup root keys _ =>
      cases root with
      | some root =>
          rw [write, List.append_assoc]
          exact opens_root he.1 (head_writeKeys hrest)
      | none =>
          obtain ⟨key, keys, rfl⟩ := List.exists_cons_of_ne_nil he.1
          rw [write, writeKeys, dotted?_unrooted]
          exact .mark rfl rfl

/-- Wherever the expression is written, the rule matches it, and it is read from there with its place. -/
def Reads (dots : Expression → Bool) (r : Rule) (e : Expression) : Prop :=
  ∀ {s : State Rule} {rest : List Char}, AfterExpression rest → s.rest = e.write dots ++ rest →
    ∃ p, Gives grammar .top (call r) s (some (s.past (e.write dots) rest [p])) ∧
      ∀ offset, ofPair offset p = .ok (e.place dots (offset + s.offset))

def valueRule (bound : Bool) : Rule := if bound then rangeBound else expression

theorem span_spanning (offset start : Nat) (w : List Char) :
    Span.between (offset + start) (offset + (start + byteLength w)) = .spanning (offset + start) w := by
  rw [Span.spanning, Nat.add_assoc]

theorem span_pair (s : State Rule) (r : Rule) (w : List Char) (children : List (Pair Rule)) (offset : Nat) :
    (s.pair r w children).span offset = .spanning (offset + s.offset) w :=
  span_spanning offset s.offset w

section Alternatives

variable {s : State Rule} {x : Char} {w v : List Char}

/-- Where neither a quote mark nor a number starts, the text is no string and no number. -/
theorem gives_string_number_none (hs : ∀ x ∈ s.rest.head?, isQuote x = false ∧ x.isDigit = false ∧ x ≠ '-') :
    Gives grammar .top (call Rule.string ||| call Rule.number) s none :=
  (gives_string_none rfl fun x hx => (hs x hx).1).alt (gives_number_none rfl fun x hx => (hs x hx).2)

theorem not_mark_of_isNameStart (h : isNameStart x) : isQuote x = false ∧ x.isDigit = false ∧ x ≠ '-' := by
  refine ⟨isQuote_of_isNameChar (isNameChar_of_isNameStart h), ?_, ?_⟩
  · by_contra hdigit
    rw [isNameStart_of_isDigit (Bool.of_not_eq_false hdigit)] at h
    cases h
  · rintro rfl
    exact absurd h (by decide)

theorem head_name (h : isIdentifier v) (hs : s.rest = v ++ w) :
    ∀ x ∈ s.rest.head?, isQuote x = false ∧ x.isDigit = false ∧ x ≠ '-' := by
  obtain ⟨y, v, rfl, hy, _⟩ := exists_of_isIdentifier h
  rw [hs]
  rintro x ⟨⟩
  exact not_mark_of_isNameStart hy

end Alternatives

section Simple

variable {value digits : String} {single : Bool} {span : Span}

theorem reads_string (h : quoteMark single ∉ value.toList) : Reads dots expression (string value single span) := by
  intro s rest _ hs
  rw [write] at hs ⊢
  obtain ⟨q, hrule, htext, hgives⟩ := gives_string (c := .top) rfl h hs
  refine ⟨_, (gives_silent rfl).mpr hgives.first.first.first.first, fun offset => ?_⟩
  have hsingle : (q.rule == .singleQuoted) = single := by
    rw [hrule]
    cases single <;> rfl
  rw [State.pair, ofPair, Pair.string, htext, hsingle, String.ofList_toList, span_spanning, place, write]

theorem gives_written_number {s : State Rule} (h : IsNumber digits.toList) (hrest : AfterExpression rest)
    (hs : s.rest = digits.toList ++ rest) :
    Gives grammar .top (call Rule.number) s
      (some (s.past digits.toList rest [s.pair Rule.number digits.toList []])) := by
  refine gives_number rfl h hrest.not_isNameChar ?_ hs
  intro x hx
  rw [hrest.after_dot hx]
  rfl

theorem ofPair_number (s : State Rule) (offset : Nat) :
    ofPair offset (s.pair Rule.number digits.toList []) =
      .ok ((number digits span).place dots (offset + s.offset)) := by
  rw [State.pair, ofPair, String.ofList_toList, span_spanning, place, write]

theorem reads_number (h : IsNumber digits.toList) : Reads dots (valueRule bound) (number digits span) := by
  intro s rest hrest hs
  rw [write] at hs ⊢
  have hnumber := gives_written_number h hrest hs
  refine ⟨_, ?_, ofPair_number s⟩
  cases bound with
  | true => exact (gives_silent rfl).mpr hnumber.first
  | false =>
      have hstring : Gives grammar .top (call Rule.string) s none := by
        refine gives_string_none rfl ?_
        obtain ⟨y, v, hv, hy⟩ := h.head
        rw [hs, hv]
        rintro x ⟨⟩
        rcases hy with rfl | hy
        · rfl
        · exact isQuote_of_isNameChar (isNameChar_of_isDigit hy)
      exact (gives_silent rfl).mpr (hstring.alt hnumber).first.first.first

theorem reads_literal (l : Literal) : Reads dots expression (literal l span) := by
  intro s rest hrest hs
  rw [write] at hs ⊢
  have hearlier := gives_string_number_none (head_name l.isIdentifier_keyword hs)
  have hliteral := hearlier.alt (gives_literal rfl l hrest.not_isNameChar hs)
  refine ⟨_, (gives_silent rfl).mpr hliteral.first.first, fun offset => ?_⟩
  rw [State.pair, ofPair, String.ofList_toList, Literal.ofKeyword?_keyword]
  simp only [span_spanning, place, write]

end Simple

section Lookups

variable {root : String} {span : Span}

def inLookup : Context := Context.top.inside .compound

def keyRule : Expr Rule := lit "." ++ call lookupName ||| call bracketLookup

def KeysRead (dots : Expression → Bool) (keys : List Expression) : Prop :=
  ∀ {s : State Rule} {rest : List Char}, AfterExpression rest → s.rest = writeKeys dots true keys ++ rest →
    ∃ ps, Gives grammar inLookup (many keyRule) s (some (s.past (writeKeys dots true keys) rest ps)) ∧
      ∀ offset, keysOfPairs offset ps.reverse = .ok (placeKeys dots true (offset + s.offset) keys)

variable {s : State Rule} {more : List Char} {key : Expression} {root? : Option String}

theorem gives_bracketLookup (hkey : Reads dots expression key) (hwritable : key.Writable false)
    (hs : s.rest = '[' :: (key.write dots ++ [']']) ++ more) :
    ∃ q, Gives grammar inLookup (call bracketLookup) s (some (s.past ('[' :: (key.write dots ++ [']'])) more
        [s.pair bracketLookup ('[' :: (key.write dots ++ [']'])) [q]])) ∧
      ∀ offset, ofPair offset q = .ok (key.place dots (offset + s.offset + 1)) := by
  have hfollows : AfterExpression ([']'] ++ more) := .mark (by decide)
  have hs' : s.rest = ['['] ++ (key.write dots ++ ([']'] ++ more)) := by simpa using hs
  obtain ⟨q, hq, hplace⟩ := hkey (s := s.over ['['] (key.write dots ++ ([']'] ++ more))) hfollows rfl
  have hopen : Gives grammar .top (lit "[") s (some (s.past ['['] (key.write dots ++ ([']'] ++ more)) [])) :=
    gives_word_over hs'
  have h := (hopen.seq_tight (opens_write dots hwritable hfollows).tight hq).seq_word hfollows.tight
  have hpair := Gives.pair_past (c := inLookup) (r := bracketLookup) rfl Kind.noConfusion rfl rfl hs h
  exact ⟨q, hpair, hplace⟩

theorem gives_key (hkey : Reads dots expression key) (hwritable : key.Writable false)
    (hmore : ∀ x ∈ more.head?, x ∈ stopLetters)
    (hs : s.rest = writeKey (key.write dots) (dotted? dots true key) ++ more) :
    ∃ p, Gives grammar inLookup keyRule s
        (some (s.past (writeKey (key.write dots) (dotted? dots true key)) more [p])) ∧
      ∀ offset ps keys, keysOfPairs offset ps = .ok keys → keysOfPairs offset (p :: ps) = .ok
        (placeKey (offset + s.offset) (key.place dots (offset + s.offset + 1)) (dotted? dots true key) :: keys) := by
  cases hdotted : dotted? dots true key with
  | some name =>
      rw [hdotted, writeKey] at hs
      obtain ⟨hname, _⟩ := dotted?_eq_some hdotted
      have hs' : s.rest = ['.'] ++ (name.toList ++ more) := hs
      have hdot : Gives grammar inLookup (lit ".") s (some (s.past ['.'] (name.toList ++ more) [])) :=
        gives_word_over hs'
      have hkey := gives_askedRule (c := inLookup) (r := lookupName) (s := s.over ['.'] (name.toList ++ more))
        rfl rfl rfl hname (fun x hx => (not_part_of_stopLetter (hmore x hx)).imp_right And.left) rfl
      refine ⟨_, (hdot.seq_past Atomicity.noConfusion hkey).first, fun offset ps keys hps => ?_⟩
      rw [State.pair, keysOfPairs, hps, span_spanning, String.ofList_toList]
      rfl
  | none =>
      rw [hdotted, writeKey] at hs
      have hdot : Gives grammar inLookup (lit ".") s none := by
        apply gives_word_none_of_head
        rw [hs]
        rintro ⟨⟩
      obtain ⟨q, hq, hplace⟩ := gives_bracketLookup hkey hwritable hs
      refine ⟨_, hdot.seq_none.alt hq, fun offset ps keys hps => ?_⟩
      rw [State.pair, keysOfPairs, hplace, hps]
      rfl

theorem keysRead_nil : KeysRead dots [] := by
  intro s rest hrest hs
  rw [writeKeys] at hs ⊢
  rw [List.nil_append] at hs
  have hdot : Gives grammar inLookup (lit "." ++ call lookupName) s none := by
    by_cases h : ∃ more, rest = '.' :: more
    · obtain ⟨more, rfl⟩ := h
      have hpoint : Gives grammar inLookup (lit ".") s (some (s.past ['.'] more [])) := gives_word_over hs
      refine hpoint.seq_past_none Atomicity.noConfusion (gives_nameRule_none rfl rfl (.inr ⟨_, rfl⟩) ?_)
      intro x hx
      obtain ⟨more', hmore⟩ := List.head?_eq_some_iff.mp hx
      rw [hrest.after_dot ⟨more', congrArg ('.' :: ·) hmore.symm⟩]
      rfl
    · exact Gives.seq_none (gives_word_none fun more hmore => h ⟨more, hs.symm.trans hmore⟩)
  have hbracket : Gives grammar inLookup (call bracketLookup) s none :=
    gives_call_none rfl rfl inLookup fun more hmore => hrest.not_bracket (hs.symm.trans hmore)
  exact ⟨[], .many_none (hdot.alt hbracket) hs, fun _ => rfl⟩

theorem keysRead_cons (hkey : Reads dots expression key) (hwritable : key.Writable false)
    (hkeys : KeysRead dots keys) : KeysRead dots (key :: keys) := by
  intro s rest hrest hs
  rw [writeKeys, List.append_assoc] at hs
  rw [writeKeys]
  have hmore : ∀ x ∈ (writeKeys dots true keys ++ rest).head?, x ∈ stopLetters := head_writeKeys hrest
  obtain ⟨p, hp, hread⟩ := gives_key hkey hwritable hmore hs
  obtain ⟨ps, hps, hreads⟩ := hkeys (s := s.over _ (writeKeys dots true keys ++ rest)) hrest rfl
  refine ⟨ps ++ [p], hp.many_tight (fun x hx => (not_part_of_stopLetter (hmore x hx)).2.2.2) hps, fun offset => ?_⟩
  have hkeys := hreads offset
  rw [State.over, ← Nat.add_assoc] at hkeys
  rw [List.reverse_append, List.reverse_singleton, List.singleton_append, placeKeys]
  exact hread offset _ _ hkeys

theorem gives_lookup {v : List Char} {p : Pair Rule} (hkeys : KeysRead dots keys) (hrest : AfterExpression rest)
    (hs : s.rest = v ++ writeKeys dots true keys ++ rest)
    (hfirst : Gives grammar inLookup (call identifier ||| call bracketLookup) s
      (some (s.past v (writeKeys dots true keys ++ rest) [p]))) :
    ∃ ps, Gives grammar .top (call variableLookup) s (some (s.past (v ++ writeKeys dots true keys) rest
        [s.pair variableLookup (v ++ writeKeys dots true keys) (p :: ps)])) ∧
      ∀ offset, keysOfPairs offset ps = .ok (placeKeys dots true (offset + s.offset + byteLength v) keys) := by
  obtain ⟨ps, hps, hreads⟩ := hkeys (s := s.over v (writeKeys dots true keys ++ rest)) hrest rfl
  have hbody := hfirst.seq_past Atomicity.noConfusion hps
  have hpair := Gives.pair_past (c := .top) (r := variableLookup) rfl Kind.noConfusion rfl rfl hs hbody
  rw [List.reverse_append, List.reverse_singleton, List.singleton_append] at hpair
  refine ⟨ps.reverse, hpair, fun offset => ?_⟩
  rw [hreads, State.over, Nat.add_assoc]

theorem reads_rooted_lookup (hroot : isIdentifier (unasked root.toList)) (hkeys : KeysRead dots keys) :
    Reads dots variableLookup (lookup (some root) keys span) := by
  intro s rest hrest hs
  rw [write] at hs ⊢
  have hmore : ∀ x ∈ (writeKeys dots true keys ++ rest).head?, x ∈ stopLetters := head_writeKeys hrest
  have hfirst := gives_askedRule (c := inLookup) (r := identifier) rfl rfl rfl hroot
    (fun x hx => (not_part_of_stopLetter (hmore x hx)).imp_right And.left) (hs.trans (List.append_assoc ..))
  obtain ⟨ps, hlookup, hreads⟩ := gives_lookup hkeys hrest hs hfirst.first
  refine ⟨_, hlookup, fun offset => ?_⟩
  rw [State.pair, State.pair, ofPair, hreads, String.ofList_toList, span_spanning, place, write]
  rfl

theorem reads_rootless_lookup (hkey : Reads dots expression key) (hwritable : key.Writable false)
    (hkeys : KeysRead dots keys) : Reads dots variableLookup (lookup none (key :: keys) span) := by
  intro s rest hrest hs
  rw [write, writeKeys, dotted?_unrooted, writeKey] at hs ⊢
  have hname : Gives grammar inLookup (call identifier) s none := by
    refine gives_nameRule_none rfl rfl (.inr ⟨_, rfl⟩) ?_
    rw [hs]
    rintro x ⟨⟩
    rfl
  obtain ⟨q, hq, hplace⟩ := gives_bracketLookup hkey hwritable (hs.trans (List.append_assoc ..))
  obtain ⟨ps, hlookup, hreads⟩ := gives_lookup hkeys hrest hs (hname.alt hq)
  refine ⟨_, hlookup, fun offset => ?_⟩
  rw [State.pair, State.pair, ofPair, keysOfPairs, hplace, hreads, span_spanning, place, write, placeKeys, writeKeys,
    dotted?_unrooted]
  · rfl
  · rintro _ _ _ _ _ ⟨⟩

theorem head_lookup (hwritable : (lookup root? keys span).Writable bound)
    (hs : s.rest = (lookup root? keys span).write dots ++ more) : ∀ x ∈ s.rest.head?, isNameStart x ∨ x = '[' := by
  rw [hs]
  cases root? with
  | some root =>
      obtain ⟨y, v, hv, hy, _⟩ := exists_of_isIdentifier hwritable.1
      rw [write, List.append_assoc]
      rcases unasked_cases root.toList with h | h <;>
      · rw [h, hv]
        rintro x ⟨⟩
        exact .inl hy
  | none =>
      obtain ⟨key, keys, rfl⟩ := List.exists_cons_of_ne_nil hwritable.1
      rw [write, writeKeys, dotted?_unrooted]
      rintro x ⟨⟩
      exact .inr rfl

theorem not_mark_of_lookup (hs : ∀ x ∈ s.rest.head?, isNameStart x ∨ x = '[') :
    ∀ x ∈ s.rest.head?, isQuote x = false ∧ x.isDigit = false ∧ x ≠ '-' := by
  intro x hx
  rcases hs x hx with h | rfl
  · exact not_mark_of_isNameStart h
  · decide

theorem gives_literal_none_lookup (hwritable : (lookup root? keys span).Writable false) (hrest : AfterExpression rest)
    (hs : s.rest = (lookup root? keys span).write dots ++ rest) : Gives grammar .top (call Rule.literal) s none := by
  cases root? with
  | some root =>
      obtain ⟨hroot, hkeyword, _⟩ := hwritable
      have hmore : ∀ x ∈ (writeKeys dots true keys ++ rest).head?, isNameChar x = false :=
        fun x hx => (not_part_of_stopLetter (head_writeKeys hrest x hx)).1
      rw [write, List.append_assoc] at hs
      rcases unasked_cases root.toList with h | h
      · rw [h] at hs
        exact gives_literal_none rfl (isNameChar_of_isIdentifier hroot) hmore (hkeyword rfl) hs
      · rw [h, List.append_assoc] at hs
        exact gives_literal_none rfl (isNameChar_of_isIdentifier hroot) (by rintro x ⟨⟩; rfl) (hkeyword rfl) hs
  | none =>
      refine gives_literal_none_nameless rfl ?_
      obtain ⟨key, keys, rfl⟩ := List.exists_cons_of_ne_nil hwritable.1
      rw [hs, write, writeKeys, dotted?_unrooted]
      rintro x ⟨⟩
      rfl

/-- A lookup is read as such wherever it can be written. -/
theorem reads_lookup (h : Reads dots variableLookup (lookup root? keys span))
    (hwritable : (lookup root? keys span).Writable bound) : Reads dots (valueRule bound) (lookup root? keys span) := by
  intro s rest hrest hs
  have hhead := head_lookup hwritable hs
  have hmark := not_mark_of_lookup hhead
  obtain ⟨p, hp, hplace⟩ := h hrest hs
  refine ⟨p, ?_, hplace⟩
  cases bound with
  | true =>
      have hnumber : Gives grammar .top (call Rule.number) s none := gives_number_none rfl fun x hx => (hmark x hx).2
      exact (gives_silent rfl).mpr (hnumber.alt hp)
  | false =>
      have hliteral := (gives_string_number_none hmark).alt (gives_literal_none_lookup hwritable hrest hs)
      have hrange : Gives grammar .top (call Rule.range) s none := by
        refine gives_call_none rfl rfl .top ?_
        intro more hmore
        rcases hhead '(' (by rw [hmore]; rfl) with h | h <;> exact absurd h (by decide)
      exact (gives_silent rfl).mpr ((hliteral.alt hrange).alt hp)

end Lookups

theorem reads_range {first last : Expression} {span : Span} (hfirst : Reads dots rangeBound first)
    (hlast : Reads dots rangeBound last) (hwritable : (range first last span).Writable false) :
    Reads dots expression (range first last span) := by
  obtain ⟨_, hopens₁, hopens₂⟩ := hwritable
  intro s rest hrest hs
  have hfollows : AfterExpression (['.', '.'] ++ (last.write dots ++ ([')'] ++ rest))) := .dots
  have hfollows' : AfterExpression ([')'] ++ rest) := .mark (by decide)
  have htight := (opens_write dots hopens₁ hfollows).tight
  have htight' := (opens_write dots hopens₂ hfollows').tight
  have hs' : s.rest = ['('] ++ (first.write dots ++ (['.', '.'] ++ (last.write dots ++ ([')'] ++ rest)))) := by
    simpa [write] using hs
  have hopen : Gives grammar .top (lit "(") s (some (s.past ['('] _ [])) := gives_word_over hs'
  obtain ⟨p, hp, hplace⟩ := hfirst (s := s.over ['('] _) hfollows rfl
  have hbody := (hopen.seq_tight htight hp).seq_word hfollows.tight
  obtain ⟨q, hq, hplace'⟩ := hlast (s := s.over (['('] ++ first.write dots ++ ['.', '.']) _) hfollows' rfl
  have hbody := (hbody.seq_tight htight' hq).seq_word hfollows'.tight
  rw [write] at hs ⊢
  have hrange := Gives.pair_past (c := .top) (r := Rule.range) rfl Kind.noConfusion rfl rfl hs hbody
  have hnone : Gives grammar .top (call Rule.string ||| call Rule.number ||| call Rule.literal) s none := by
    have hhead : s.rest.head? = some '(' := by rw [hs']; rfl
    refine (gives_string_number_none ?_).alt (gives_literal_none_nameless rfl ?_) <;>
    · rw [hhead]
      rintro x ⟨⟩
      decide
  refine ⟨_, (gives_silent rfl).mpr (hnone.alt hrange).first, fun offset => ?_⟩
  have hchildren : ([q] ++ ([p] ++ [])).reverse = [p, q] := rfl
  have hplace₁ : ofPair offset p = .ok (first.place dots (offset + s.offset + 1)) := hplace offset
  have hoffset : (s.over (['('] ++ first.write dots ++ ['.', '.']) (last.write dots ++ ([')'] ++ rest))).offset =
      s.offset + (1 + byteLength (first.write dots) + 2) := by
    simp only [State.over, byteLength_append]
    rfl
  have hplace₂ := hplace' offset
  rw [hoffset, ← Nat.add_assoc, ← Nat.add_assoc, ← Nat.add_assoc] at hplace₂
  rw [hchildren, State.pair, ofPair, hplace₁, hplace₂, span_spanning, place, write]
  rfl

mutual

/-- Every expression that can be written is read with its place. -/
theorem reads_write (dots : Expression → Bool) : (bound : Bool) → (e : Expression) → e.Writable bound →
    Reads dots (valueRule bound) e
  | false, string _ _ _, h => reads_string h.2
  | _, number _ _, h => reads_number h
  | false, literal l _, _ => reads_literal l
  | false, range first last _, h =>
    reads_range (reads_write dots true first h.2.1) (reads_write dots true last h.2.2) h
  | _, lookup (some _) keys _, h => reads_lookup (reads_rooted_lookup h.1 (keysRead_writeKeys dots keys h.2.2)) h
  | _, lookup none [] _, h => absurd rfl h.1
  | _, lookup none (key :: keys) _, h =>
    reads_lookup (reads_rootless_lookup (reads_write dots false key h.2.1) h.2.1
      (keysRead_writeKeys dots keys h.2.2)) h

theorem keysRead_writeKeys (dots : Expression → Bool) : (keys : List Expression) → KeysWritable keys →
    KeysRead dots keys
  | [], _ => keysRead_nil
  | key :: keys, h => keysRead_cons (reads_write dots false key h.1) h.1 (keysRead_writeKeys dots keys h.2)

end

end Expression

end LiquidTemplate
