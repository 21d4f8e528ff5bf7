import LiquidTemplate.Token.Reader
import LiquidTemplate.Proofs.Except
import LiquidTemplate.Proofs.Rule.Arrangement

namespace LiquidTemplate

open Peg (Pair Grown Arranged)
open Rule

variable {text : List Char} {p : Pair Rule} {offset : Nat}

namespace Rule

def tagNames : List Rule := [blockName, tagName, closeName, rawTagName, statementName]

def tagPlaces : List (Peg.Place Rule) :=
  [.maybe [stripStart], .maybe tagNames, .maybe [tagMarkup, statementMarkup], .maybe [statementCommentBody],
    .maybe [stripEnd]]

def tagRules : List Rule :=
  [liquidTagOpen, liquidTag, liquidTagClose, rawTagOpen, rawTagClose, statementOpen, statementTag,
    statementClose, statementComment]

def markedRules : List Rule := [liquidTagOpen, statementOpen, liquidTag, statementTag]

theorem mem_markedRules_of_open {r : Rule} (h : r = .liquidTagOpen ∨ r = .statementOpen) : r ∈ markedRules := by
  rcases h with rfl | rfl <;> decide

theorem mem_markedRules_of_tag {r : Rule} (h : r = .liquidTag ∨ r = .statementTag) : r ∈ markedRules := by
  rcases h with rfl | rfl <;> decide

end Rule

namespace Token

def isTagNameRule : Rule → Bool
  | .blockName | .tagName | .closeName | .rawTagName | .statementName => true
  | _ => false

def isTagMarkupRule : Rule → Bool
  | .tagMarkup | .statementMarkup => true
  | _ => false

def trimOfPairs (pairs : List (Pair Rule)) : Trim :=
  ⟨pairs.any (·.rule == .stripStart), pairs.any (·.rule == .stripEnd)⟩

theorem arranged_tag (hp : Grown grammar text p) (hrule : p.rule ∈ tagRules) :
    Arranged tagPlaces p.children := by
  have hfills : ∀ r ∈ tagRules, (grammar.kind r).branches ∧
      ((grammar.body r).fills (grammar.seats 3) tagPlaces).any (Peg.vacates · []) := by
    decide
  exact hp.arranged (hfills _ hrule).1 (hfills _ hrule).2

/-- Of each piece the last one counts. -/
theorem foldlM_add {ps : List (Pair Rule)} (hps : ∀ p ∈ ps, p.rule ∈ tagPlaces.flatMap (·.rules)) (parts : Parts) :
    ps.foldlM (Parts.add offset) parts =
      .ok ⟨(ps.filter (isTagNameRule ·.rule)).getLast?.or parts.name,
        (ps.filter (isTagMarkupRule ·.rule)).getLast?.or parts.markup,
        (ps.filter (·.rule == .statementCommentBody)).getLast?.or parts.body,
        ⟨parts.trim.before || ps.any (·.rule == .stripStart), parts.trim.after || ps.any (·.rule == .stripEnd)⟩⟩ := by
  induction ps generalizing parts with
  | nil => simp [pure, Except.pure]
  | cons p ps ih =>
      obtain ⟨hp, hps⟩ := List.forall_mem_cons.mp hps
      have hbeq : ∀ r r' : Rule, (r == r') = decide (r = r') := fun _ _ => rfl
      simp only [tagPlaces, tagNames, List.flatMap_cons, List.flatMap_nil, Peg.Place.rules, List.cons_append,
        List.nil_append, List.mem_cons, List.not_mem_nil, or_false] at hp
      rcases hp with hp | hp | hp | hp | hp | hp | hp | hp | hp | hp
      all_goals simp [Parts.add, hp, ih hps, isTagNameRule, isTagMarkupRule, List.getLast?_cons, hbeq]

theorem getLast?_filter {places : List (Peg.Place Rule)} {ps : List (Pair Rule)} (h : Arranged places ps)
    (f : Rule → Bool) (rules : List Rule)
    (hf : ∀ place ∈ places, ∀ r ∈ place.rules, f r = place.rules.all f)
    (hrules : places.filter (·.rules.all f) = [.maybe rules]) :
    (ps.filter (f ·.rule)).getLast? = ps.find? (f ·.rule) := by
  have hone := h.filter hf
  rw [hrules] at hone
  obtain ⟨o, _, ho, _, rfl⟩ := hone.maybe
  rw [← List.head?_filter, ho]
  cases o <;> rfl

/-- The pieces of a tag are all expected, and each is found by its rule. -/
theorem partsOfPair_eq (hp : Grown grammar text p) (hrule : p.rule ∈ tagRules) :
    partsOfPair offset p = .ok ⟨p.children.find? (isTagNameRule ·.rule), p.children.find? (isTagMarkupRule ·.rule),
      p.children.find? (·.rule == .statementCommentBody), trimOfPairs p.children⟩ := by
  have harranged := arranged_tag hp hrule
  have hexpected := harranged.forall_rules (P := (· ∈ tagPlaces.flatMap (·.rules)))
    (fun place hplace r hr => List.mem_flatMap.mpr ⟨place, hplace, hr⟩)
  have hname := getLast?_filter harranged isTagNameRule tagNames (by decide) rfl
  have hmarkup := getLast?_filter harranged isTagMarkupRule [tagMarkup, statementMarkup] (by decide) rfl
  have hbody := getLast?_filter harranged (· == .statementCommentBody) [statementCommentBody] (by decide) rfl
  rw [partsOfPair, foldlM_add hexpected, hname, hmarkup, hbody]
  simp only [Option.or_none, Bool.false_or, trimOfPairs]

theorem find_name (hp : Grown grammar text p)
    (hrule : p.rule ∈ markedRules ++ [liquidTagClose, statementClose, rawTagOpen]) :
    ∃ name, p.children.find? (isTagNameRule ·.rule) = some name := by
  simp only [markedRules, List.cons_append, List.nil_append, List.mem_cons, List.not_mem_nil, or_false] at hrule
  rcases hrule with hrule | hrule | hrule | hrule | hrule | hrule | hrule
  · exact (arranged_children hp hrule rfl).find [blockName] (by decide) (by decide)
  · exact (arranged_children hp hrule rfl).find [blockName] (by decide) (by decide)
  · exact (arranged_children hp hrule rfl).find [tagName] (by decide) (by decide)
  · exact (arranged_children hp hrule rfl).find [statementName] (by decide) (by decide)
  · exact (arranged_children hp hrule rfl).find [closeName] (by decide) (by decide)
  · exact (arranged_children hp hrule rfl).find [closeName] (by decide) (by decide)
  · exact (arranged_children hp hrule rfl).find [rawTagName] (by decide) (by decide)

/-- The markup of a tag and where it stands, which is directly after the name if there is none. -/
inductive MarkupAt (offset : Nat) (p name : Pair Rule) : List Char → Span → Prop
  | found {m} : p.children.find? (isTagMarkupRule ·.rule) = some m → MarkupAt offset p name m.text (m.span offset)
  | missing : p.children.find? (isTagMarkupRule ·.rule) = none →
      MarkupAt offset p name [] (.point (name.span offset).hi)

theorem exists_markupAt (offset : Nat) (p name : Pair Rule) :
    ∃ markup markupSpan, MarkupAt offset p name markup markupSpan := by
  cases hmarkup : p.children.find? (isTagMarkupRule ·.rule) with
  | some m => exact ⟨_, _, .found hmarkup⟩
  | none => exact ⟨_, _, .missing hmarkup⟩

section Tags

variable {read : ReadText} {region : Region} {name : Pair Rule}

theorem tagOfPair_eq {build : Tag → Token} {markup : List Char} {markupSpan : Span} (hp : Grown grammar text p)
    (hrule : p.rule ∈ markedRules)
    (hname : p.children.find? (isTagNameRule ·.rule) = some name)
    (hmarkup : MarkupAt region.offset p name markup markupSpan) :
    tagOfPair read region build p =
      tagOfParts read region build name.string markup markupSpan (trimOfPairs p.children) (p.span region.offset) := by
  have htag : ∀ r ∈ markedRules, r ∈ tagRules := by decide
  rw [tagOfPair, partsOfPair_eq hp (htag _ hrule)]
  cases hmarkup with
  | found h | missing h => simp only [ok_bind, hname, h, expect_some]

theorem tagCloseOfPair_eq (hp : Grown grammar text p) (hrule : p.rule = .liquidTagClose ∨ p.rule = .statementClose) :
    ∃ name, p.children.find? (isTagNameRule ·.rule) = some name ∧ ∀ offset, tagCloseOfPair offset p =
      .ok (.tagClose ⟨name.string, trimOfPairs p.children, p.span offset⟩) := by
  obtain ⟨name, hname⟩ := find_name hp (by rcases hrule with hrule | hrule <;> simp [hrule])
  refine ⟨name, hname, fun offset => ?_⟩
  rw [tagCloseOfPair, partsOfPair_eq hp (by rcases hrule with hrule | hrule <;> simp [hrule, tagRules])]
  simp only [ok_bind, hname, expect_some]
  rfl

theorem commentOfPair_eq (hp : Grown grammar text p) (hrule : p.rule = .statementComment) :
    ∃ body, p.children = [body] ∧ ∀ offset, commentOfPair offset p =
      .ok (.rawTag ⟨"comment", "", body.string, body.span offset, {}, {},
          blockAround (p.span offset) (body.span offset)⟩ (verbatim body.text (body.span offset).lo)) := by
  obtain ⟨body, _, hchildren, hbody, rfl⟩ := arranged_children hp hrule rfl
  refine ⟨body, hchildren, fun offset => ?_⟩
  rw [commentOfPair, partsOfPair_eq hp (by simp [hrule, tagRules])]
  simp [hchildren, List.mem_singleton.mp hbody]

/-- The body of a raw tag stands between its opening and its closing. -/
theorem rawTagOfPair_eq (hp : Grown grammar text p) (hrule : p.rule = .liquidRawTag) :
    ∃ opening body closing name, p.children = [opening, body, closing] ∧ opening.rule = .rawTagOpen ∧
      body.rule = .rawBody ∧ closing.rule = .rawTagClose ∧
      opening.children.find? (isTagNameRule ·.rule) = some name ∧
      ∀ read region, rawTagOfPair read region p = (do
        let tokens ← rawTagBody read region name.string body.text (body.span region.offset).lo
        return .rawTag ⟨name.string, (opening.children.find? (isTagMarkupRule ·.rule)).elim "" Pair.string, body.string,
          body.span region.offset, trimOfPairs opening.children, trimOfPairs closing.children,
          ⟨p.span region.offset, opening.span region.offset, closing.span region.offset⟩⟩ tokens) := by
  obtain ⟨opening, _, hchildren, hopening, body, _, rfl, hbody, closing, _, rfl, hclosing, rfl⟩ :=
    arranged_children hp hrule rfl
  have hopening := List.mem_singleton.mp hopening
  have hclosing := List.mem_singleton.mp hclosing
  have hgrown : ∀ q ∈ [opening, body, closing], Grown grammar text q := hchildren ▸ hp.children
  obtain ⟨name, hname⟩ := find_name (hgrown opening (by simp)) (by simp [hopening])
  refine ⟨opening, body, closing, name, hchildren, hopening, List.mem_singleton.mp hbody, hclosing, hname, ?_⟩
  intro read region
  rw [rawTagOfPair, hchildren]
  simp only [List.getElem?_cons_zero, List.getElem?_cons_succ, expect_some, ok_bind, hname,
    partsOfPair_eq (hgrown opening (by simp)) (by simp [hopening, tagRules]),
    partsOfPair_eq (hgrown closing (by simp)) (by simp [hclosing, tagRules])]

end Tags

/-- An output without markup is empty. -/
theorem outputOfPair_eq (region : Region) (hp : Grown grammar text p) (hrule : p.rule = .liquidDrop) :
    outputOfPair region p =
      (fun markup => ⟨markup, trimOfPairs p.children, p.span region.offset⟩) <$>
        (p.children.find? (·.rule == .dropMarkup)).elim (.ok (.raw "")) (outputMarkup region) := by
  obtain ⟨before, _, hchildren, hbefore, h⟩ := (arranged_children hp hrule rfl).maybe
  obtain ⟨markup, _, rfl, hmarkup, h⟩ := h.maybe
  obtain ⟨after, _, rfl, hafter, rfl⟩ := h.maybe
  rw [outputOfPair, hchildren]
  cases before <;> cases markup <;> cases after <;> simp_all [addToOutput, trimOfPairs]
  all_goals rfl

theorem attribute_children (hp : Grown grammar text p)
    (hrule : p.rule ∈ [attrDoubleQuoted, attrSingleQuoted, attrUnquoted]) :
    ∃ name value, p.children = [name, value] ∧ name.rule = .attrName ∧
      value.rule ∈ [attrDqValue, attrSqValue, attrUqValue] := by
  simp only [List.mem_cons, List.not_mem_nil, or_false] at hrule
  rcases hrule with hrule | hrule | hrule
  all_goals
    obtain ⟨name, _, hchildren, hname, value, _, rfl, hvalue, rfl⟩ := arranged_children hp hrule rfl
    refine ⟨name, value, hchildren, List.mem_singleton.mp hname, ?_⟩
    rw [List.mem_singleton.mp hvalue]
    decide

section Elements

variable (read : ReadText) (region : Region)

theorem attributeOfParts_eq {name value : Pair Rule} (quotes : Quotes) (hchildren : p.children = [name, value])
    (hname : name.rule = .attrName) (hvalue : value.rule ∈ [attrDqValue, attrSqValue, attrUqValue]) :
    attributeOfParts read region quotes p = (do
      let name ← nameOfPair region name
      let parts ← value.children.mapM (valueOfPair read region)
      return .valueAttribute quotes name parts (value.span region.offset) (p.span region.offset)) := by
  rw [attributeOfParts, hchildren]
  simp only [List.mem_cons, List.not_mem_nil, or_false] at hvalue
  rcases hvalue with hvalue | hvalue | hvalue
  all_goals simp only [List.foldlM_cons, List.foldlM_nil, AttributeParts.add, hname, hvalue, bind_assoc, pure_bind]

theorem foldlM_attributes {ν : Type} (nameRule : Rule) {readName : Pair Rule → Except Error ν} {ps : List (Pair Rule)}
    (hps : ∀ q ∈ ps, q.rule ∈ attributeParts) (hname : nameRule ∉ attributeParts) (e : ElementParts ν) :
    ps.foldlM (ElementParts.add read region nameRule readName) e =
      (fun as => { e with attributes := e.attributes ++ as }) <$> ps.mapM (attributeOfPair read region) := by
  refine foldlM_collect (fun (e : ElementParts ν) as => { e with attributes := e.attributes ++ as }) ?_ ?_ ?_ e
  · intro q hq e
    have hne : q.rule ≠ nameRule := fun heq => hname (heq ▸ hps q hq)
    rw [ElementParts.add, if_neg hne, bind_pure_comp]
  · simp
  · simp

/-- An element starts with its name, and its attributes follow. -/
theorem elementOfPair_eq (hp : Grown grammar text p) (hrule : p.rule ∈ [htmlSelfClosing, htmlTagOpen, htmlTagClose]) :
    ∃ name attributes, p.children = name :: attributes ∧ name.rule = .htmlName ∧
      (∀ q ∈ attributes, q.rule ∈ attributeParts) ∧
      ∀ read region build, elementOfPair read region build p = (do
        let name ← nameOfPair region name
        let attributes ← attributes.mapM (attributeOfPair read region)
        return build name attributes (p.span region.offset)) := by
  have hfills : ∀ r ∈ [htmlSelfClosing, htmlTagOpen, htmlTagClose], (grammar.kind r).branches ∧
      ((grammar.body r).fills (grammar.seats 3) [.one [htmlName], .many attributeParts]).any (Peg.vacates · []) := by
    decide
  obtain ⟨name, attributes, hchildren, hname, hattributes⟩ := hp.arranged (hfills _ hrule).1 (hfills _ hrule).2
  refine ⟨name, attributes, hchildren, List.mem_singleton.mp hname, hattributes.all, fun read region build => ?_⟩
  rw [elementOfPair, hchildren, List.foldlM_cons, ElementParts.add, if_pos (List.mem_singleton.mp hname)]
  simp only [bind_assoc, pure_bind, foldlM_attributes read region htmlName hattributes.all (by decide),
    bind_map_left]
  rfl

theorem voidElementOfPair_eq (hp : Grown grammar text p) (hrule : p.rule = .htmlVoidElement) :
    ∃ name attributes, p.children = name :: attributes ∧ name.rule = .voidName ∧
      (∀ q ∈ attributes, q.rule ∈ attributeParts) ∧
      ∀ read region, voidElementOfPair read region p = (do
        let attributes ← attributes.mapM (attributeOfPair read region)
        return .voidElement (runOfPair region.offset name) attributes (p.span region.offset)) := by
  obtain ⟨name, attributes, hchildren, hname, hattributes⟩ := arranged_children hp hrule rfl
  refine ⟨name, attributes, hchildren, List.mem_singleton.mp hname, hattributes.all, fun read region => ?_⟩
  rw [voidElementOfPair, hchildren, List.foldlM_cons, ElementParts.add, if_pos (List.mem_singleton.mp hname)]
  simp only [ok_bind, pure_bind, foldlM_attributes read region voidName hattributes.all (by decide), bind_map_left]
  rfl

/-- A raw element ends with its body. -/
theorem rawElementOfPair_eq (hp : Grown grammar text p) (hrule : p.rule = .htmlRawTag) :
    ∃ name attributes body, p.children = name :: (attributes ++ [body]) ∧ name.rule = .htmlRawName ∧
      (∀ q ∈ attributes, q.rule ∈ attributeParts) ∧ body.rule = .htmlRawBody ∧
      ∀ read region, rawElementOfPair read region p = (do
        let attributes ← attributes.mapM (attributeOfPair read region)
        let tokens ← read ⟨(body.span region.offset).lo, .tolerant⟩ .liquid body.text
        return .rawElement ⟨runOfPair region.offset name, body.string, body.span region.offset,
          blockAround (p.span region.offset) (body.span region.offset)⟩ attributes tokens) := by
  obtain ⟨name, _, hchildren, hname, attributes, _, rfl, hattributes, body, _, rfl, hbody, rfl⟩ :=
    arranged_children hp hrule rfl
  have hname := List.mem_singleton.mp hname
  have hbody := List.mem_singleton.mp hbody
  refine ⟨name, attributes, body, hchildren, hname, hattributes, hbody, fun read region => ?_⟩
  have hrest : ∀ e : RawElementParts, attributes.foldlM (RawElementParts.add read region) e =
      (fun as => { e with attributes := e.attributes ++ as }) <$> attributes.mapM (attributeOfPair read region) := by
    refine foldlM_collect (fun (e : RawElementParts) as => { e with attributes := e.attributes ++ as }) ?_
      (by simp) (by simp)
    intro q hq e
    have hplain : ∀ r ∈ attributeParts, r ≠ .htmlRawName ∧ r ≠ .htmlRawBody := by decide
    obtain ⟨hne, hne'⟩ := hplain _ (hattributes q hq)
    unfold RawElementParts.add
    split
    · contradiction
    · contradiction
    · rw [bind_pure_comp]
  rw [rawElementOfPair, hchildren, List.foldlM_cons, RawElementParts.add, hname]
  simp only [ok_bind, List.foldlM_append, hrest, bind_map_left, List.foldlM_cons, List.foldlM_nil,
    RawElementParts.add, hbody, bind_assoc, pure_bind, expect_some]
  rfl

end Elements

/-- The documentation of a parameter has its name, in brackets or not. -/
theorem docParamOfPair_eq (hp : Grown grammar text p) (hrule : p.rule = .docParam) :
    ∃ name, p.children.find? (fun q => q.rule == .docOptionalName || q.rule == .docParamName) = some name ∧
      ∀ offset, docParamOfPair offset p = .ok (.docParam
        ⟨if name.rule = .docOptionalName then String.ofList (firstText name) else name.string,
          (p.children.find? (·.rule == .docParamType)).map (trimmed <| firstText ·),
          (p.children.find? (·.rule == .docParamDescription)).map Pair.string,
          name.rule != .docOptionalName, p.span offset⟩) := by
  obtain ⟨type, _, hchildren, htype, name, _, rfl, hname, h⟩ := (arranged_children hp hrule rfl).maybe
  obtain ⟨description, _, rfl, hdescription, rfl⟩ := h.maybe
  simp only [List.mem_cons, List.not_mem_nil, or_false] at htype hname hdescription
  refine ⟨name, ?_, fun offset => ?_⟩
  · rw [hchildren]
    cases type <;> simp_all
  · rw [docParamOfPair, hchildren]
    rcases hname with hname | hname <;> cases type <;> cases description <;> simp_all [addToDocParam]

end Token

end LiquidTemplate
