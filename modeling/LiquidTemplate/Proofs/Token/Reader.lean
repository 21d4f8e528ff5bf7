import LiquidTemplate.Proofs.Token.Parts

namespace LiquidTemplate

open Text
open Peg (Pair Grown)

theorem NamedTag.markupRule?_eq_none_iff {name : String} {named : NamedTag}
    (hnamed : NamedTag.ofName? name = some named) : named.markupRule? = none ↔ name = "liquid" := by
  constructor
  · intro hrule
    have hname := List.find?_some hnamed
    cases named with
    | liquid => exact (beq_iff_eq.mp hname).symm
    | _ => cases hrule
  · rintro rfl
    have hliquid : NamedTag.ofName? "liquid" = some .liquid := NamedTag.ofName?_name .liquid
    rw [hliquid] at hnamed
    cases hnamed
    rfl

namespace Token

variable {text : List Char} {read : ReadText} {region : Region} {p : Pair Rule} {t : Token}

/-- The markup of an output is read as a variable, or kept as text. -/
theorem outputMarkup_ok {m : OutputMarkup} (h : outputMarkup region p = .ok m) :
    m = .raw (trimmed p.text) ∨ ∃ markup value rest v,
      Markup.matchRule region (p.span region.offset).lo .markupVariable p.text = .ok (some markup) ∧
      Markup.parts markup = value :: rest ∧ Variable.ofPair (p.span region.offset).lo value = .ok v ∧
      m = .value v := by
  unfold outputMarkup at h
  obtain ⟨markup?, hmatch, h⟩ := bind_eq_ok.mp h
  cases markup? with
  | none =>
      cases h
      exact .inl rfl
  | some markup =>
      cases hparts : Markup.parts markup with
      | nil =>
          simp only [hparts] at h
          cases h
      | cons value rest =>
          simp only [hparts, List.getElem?_cons_zero, expect_some, ok_bind, bind_pure_comp] at h
          obtain ⟨v, hv, rfl⟩ := map_eq_ok.mp h
          exact .inr ⟨markup, value, rest, v, hmatch, hparts, hv, rfl⟩

theorem outputOfPair_ok {o : Output} (hp : Grown grammar text p) (hrule : p.rule = .liquidDrop)
    (h : outputOfPair region p = .ok o) :
    ∃ m, o = ⟨m, trimOfPairs p.children, p.span region.offset⟩ ∧
      ((∃ q, p.children.find? (·.rule == .dropMarkup) = some q ∧ outputMarkup region q = .ok m) ∨
        (p.children.find? (·.rule == .dropMarkup) = none ∧ m = .raw "")) := by
  rw [outputOfPair_eq region hp hrule] at h
  obtain ⟨m, hm, rfl⟩ := map_eq_ok.mp h
  refine ⟨m, rfl, ?_⟩
  cases hq : p.children.find? (·.rule == .dropMarkup) with
  | none =>
      rw [hq] at hm
      cases hm
      exact .inr ⟨rfl, rfl⟩
  | some q =>
      rw [hq] at hm
      exact .inl ⟨q, rfl, hm⟩

theorem pieceOfPair_cases {piece : Piece} (h : pieceOfPair region p = .ok piece) :
    (p.rule = .liquidDrop ∧ ∃ o, outputOfPair region p = .ok o ∧ piece = .output o) ∨
      (p.rule = .nameText ∨ p.rule = .attrNameText) ∧ piece = .text (runOfPair region.offset p) := by
  unfold pieceOfPair at h
  split at h
  · rename_i hrule
    obtain ⟨o, ho, rfl⟩ := map_eq_ok.mp h
    exact .inl ⟨hrule, o, ho, rfl⟩
  · rename_i hrule
    cases h
    exact .inr ⟨.inl hrule, rfl⟩
  · rename_i hrule
    cases h
    exact .inr ⟨.inr hrule, rfl⟩
  · cases h

/-- What a verbatim body holds is its text, without the blanks around it. -/
theorem mem_verbatim {body : List Char} {start : Nat} (h : t ∈ verbatim body start) :
    t = .text ⟨String.ofList (trim body),
      .between (start + (byteLength body - byteLength (trimStart body)))
        (start + (byteLength body - byteLength (trimStart body)) + byteLength (trim body))⟩ := by
  unfold verbatim at h
  split at h
  · cases h
  · exact List.mem_singleton.mp h

theorem rawTagBody_ok {name : String} {body : List Char} {start : Nat} {ts : List Token}
    (h : rawTagBody read region name body start = .ok ts) :
    (name = "doc" ∧ read ⟨start, region.mode⟩ .doc body = .ok ts) ∨
      (name = "style" ∧ read ⟨start, .tolerant⟩ .liquid body = .ok ts) ∨
      name ≠ "style" ∧ ts = verbatim body start := by
  unfold rawTagBody at h
  split at h
  · exact .inl ⟨rfl, h⟩
  · exact .inr (.inl ⟨rfl, h⟩)
  · rename_i hstyle
    cases h
    exact .inr (.inr ⟨hstyle, rfl⟩)

section Tags

variable (read region) (build : Tag → Token) (name : String) (markup : List Char) (markupSpan : Span) (trim : Trim)
  (span : Span)

/-- How a tag is read from its parts.  The name says by which rule the markup is read, or that it has
statements; these are kept as text if they cannot be read. -/
inductive TagRead : Token → Prop
  | unknown : NamedTag.ofName? name = none →
      TagRead (build ⟨name, .text (String.ofList markup), markupSpan, trim, span⟩)
  | known {named rule m} : NamedTag.ofName? name = some named → named.markupRule? = some rule →
      Markup.read region markupSpan.lo named rule markup = .ok m →
      TagRead (build ⟨name, m, markupSpan, trim, span⟩)
  | statements {body} : name = "liquid" → read ⟨markupSpan.lo, region.mode⟩ .statements markup = .ok body →
      TagRead (.statements ⟨markupSpan, trim, span⟩ body)
  | unread {e} : name = "liquid" → read ⟨markupSpan.lo, region.mode⟩ .statements markup = .error e →
      TagRead (build ⟨name, .text (trimmed markup), markupSpan, trim, span⟩)

variable {read region build name markup markupSpan trim span}

theorem TagRead.of_parts (h : tagOfParts read region build name markup markupSpan trim span = .ok t) :
    TagRead read region build name markup markupSpan trim span t := by
  unfold tagOfParts at h
  simp only at h
  split at h
  · rename_i hnamed
    cases h
    exact .unknown hnamed
  · rename_i named hnamed
    split at h
    · rename_i rule hrule
      obtain ⟨m, hm, rfl⟩ := map_eq_ok.mp h
      exact .known hnamed hrule hm
    · rename_i hrule
      have hname := (NamedTag.markupRule?_eq_none_iff hnamed).mp hrule
      split at h
      · rename_i body hbody
        cases h
        exact .statements hname hbody
      · rename_i e he
        split at h
        · cases h
        · cases h
          exact .unread hname he

end Tags

theorem tagOfPair_parts {build : Tag → Token} (hp : Grown grammar text p) (hrule : p.rule ∈ Rule.markedRules)
    (h : tagOfPair read region build p = .ok t) :
    ∃ name markup markupSpan, p.children.find? (isTagNameRule ·.rule) = some name ∧
      MarkupAt region.offset p name markup markupSpan ∧
      TagRead read region build name.string markup markupSpan (trimOfPairs p.children) (p.span region.offset) t := by
  obtain ⟨name, hname⟩ := find_name hp (List.mem_append_left _ hrule)
  obtain ⟨markup, markupSpan, hmarkup⟩ := exists_markupAt region.offset p name
  rw [tagOfPair_eq hp hrule hname hmarkup] at h
  exact ⟨name, markup, markupSpan, hname, hmarkup, .of_parts h⟩

inductive LiquidRead (read : ReadText) (region : Region) (p : Pair Rule) : Token → Prop
  | output {o} : p.rule = .liquidDrop → outputOfPair region p = .ok o → LiquidRead read region p (.output o)
  | tagOpen {t : Token} : p.rule = .liquidTagOpen ∨ p.rule = .statementOpen →
      tagOfPair read region .tagOpen p = .ok t → LiquidRead read region p t
  | tag {t : Token} : p.rule = .liquidTag ∨ p.rule = .statementTag →
      tagOfPair read region .tag p = .ok t → LiquidRead read region p t
  | tagClose {name} : p.rule = .liquidTagClose ∨ p.rule = .statementClose →
      p.children.find? (isTagNameRule ·.rule) = some name →
      LiquidRead read region p (.tagClose ⟨name.string, trimOfPairs p.children, p.span region.offset⟩)
  | rawTag {opening body closing rest name markup ts} : p.rule = .liquidRawTag →
      p.children = opening :: body :: closing :: rest →
      opening.children.find? (isTagNameRule ·.rule) = some name →
      markup = (opening.children.find? (isTagMarkupRule ·.rule)).elim "" Pair.string →
      rawTagBody read region name.string body.text (body.span region.offset).lo = .ok ts →
      LiquidRead read region p (.rawTag ⟨name.string, markup, body.string, body.span region.offset,
        trimOfPairs opening.children, trimOfPairs closing.children,
        ⟨p.span region.offset, opening.span region.offset, closing.span region.offset⟩⟩ ts)
  | comment {body rest} : p.rule = .statementComment → p.children = body :: rest →
      LiquidRead read region p (.rawTag ⟨"comment", "", body.string, body.span region.offset, {}, {},
        blockAround (p.span region.offset) (body.span region.offset)⟩
        (verbatim body.text (body.span region.offset).lo))

namespace LiquidRead

theorem of_close (hp : Grown grammar text p) (hrule : p.rule = .liquidTagClose ∨ p.rule = .statementClose)
    (h : tagCloseOfPair region.offset p = .ok t) : LiquidRead read region p t := by
  obtain ⟨name, hname, heq⟩ := tagCloseOfPair_eq hp hrule
  rw [heq] at h
  cases h
  exact .tagClose hrule hname

theorem of_raw (hp : Grown grammar text p) (hrule : p.rule = .liquidRawTag) (h : rawTagOfPair read region p = .ok t) :
    LiquidRead read region p t := by
  obtain ⟨opening, body, closing, name, hchildren, _, _, _, hname, heq⟩ := rawTagOfPair_eq hp hrule
  rw [heq] at h
  simp only [bind_eq_ok, pure_eq_ok] at h
  obtain ⟨ts, hts, rfl⟩ := h
  exact .rawTag hrule hchildren hname rfl hts

theorem of_comment (hp : Grown grammar text p) (hrule : p.rule = .statementComment)
    (h : commentOfPair region.offset p = .ok t) : LiquidRead read region p t := by
  obtain ⟨body, hchildren, heq⟩ := commentOfPair_eq hp hrule
  rw [heq] at h
  cases h
  exact .comment hrule hchildren

theorem of_pair (hp : Grown grammar text p) (h : liquidOfPair read region p = .ok t) : LiquidRead read region p t := by
  unfold liquidOfPair at h
  split at h
  case h_10 => cases h
  all_goals rename_i hrule
  · obtain ⟨o, ho, rfl⟩ := map_eq_ok.mp h
    exact .output hrule ho
  · exact .tagOpen (.inl hrule) h
  · exact .tagOpen (.inr hrule) h
  · exact .tag (.inl hrule) h
  · exact .tag (.inr hrule) h
  · exact of_close hp (.inl hrule) h
  · exact of_close hp (.inr hrule) h
  · exact of_raw hp hrule h
  · exact of_comment hp hrule h

end LiquidRead

inductive ValueRead (read : ReadText) (region : Region) (p : Pair Rule) : Token → Prop
  | text : p.rule ∈ [.attrDqText, .attrSqText, .attrUqText] →
      ValueRead read region p (.text (runOfPair region.offset p))
  | liquid {t : Token} : liquidOfPair read region p = .ok t → ValueRead read region p t

theorem ValueRead.of_pair (h : valueOfPair read region p = .ok t) : ValueRead read region p t := by
  unfold valueOfPair at h
  split at h
  case h_4 => exact .liquid h
  all_goals
    rename_i hrule
    cases h
    exact .text (by simp [hrule])

inductive AttributeRead (read : ReadText) (region : Region) (p : Pair Rule) : Token → Prop
  | value {quotes name value rest pieces parts} : p.rule ∈ [.attrDoubleQuoted, .attrSingleQuoted, .attrUnquoted] →
      p.children = name :: value :: rest → nameOfPair region name = .ok pieces →
      value.children.mapM (valueOfPair read region) = .ok parts →
      AttributeRead read region p
        (.valueAttribute quotes pieces parts (value.span region.offset) (p.span region.offset))
  | bare {name rest pieces} : p.rule = .attrEmpty → p.children = name :: rest →
      nameOfPair region name = .ok pieces → AttributeRead read region p (.bareAttribute pieces (p.span region.offset))
  | liquid {t : Token} : liquidOfPair read region p = .ok t → AttributeRead read region p t

namespace AttributeRead

theorem of_parts {quotes : Quotes} (hp : Grown grammar text p)
    (hrule : p.rule ∈ [.attrDoubleQuoted, .attrSingleQuoted, .attrUnquoted])
    (h : attributeOfParts read region quotes p = .ok t) : AttributeRead read region p t := by
  obtain ⟨name, value, hchildren, hname, hvalue⟩ := attribute_children hp hrule
  rw [attributeOfParts_eq read region quotes hchildren hname hvalue] at h
  simp only [bind_eq_ok, pure_eq_ok] at h
  obtain ⟨pieces, hpieces, parts, hparts, rfl⟩ := h
  exact .value hrule hchildren hpieces hparts

theorem of_pair (hp : Grown grammar text p) (h : attributeOfPair read region p = .ok t) :
    AttributeRead read region p t := by
  unfold attributeOfPair at h
  split at h
  case h_5 => exact .liquid h
  all_goals rename_i hrule
  · exact of_parts hp (by simp [hrule]) h
  · exact of_parts hp (by simp [hrule]) h
  · exact of_parts hp (by simp [hrule]) h
  · obtain ⟨name, _, hchildren, _, rfl⟩ := arranged_children hp hrule rfl
    simp only [hchildren, bind_eq_ok, pure_eq_ok] at h
    obtain ⟨pieces, hpieces, rfl⟩ := h
    exact .bare hrule hchildren hpieces

end AttributeRead

theorem elementOfPair_ok {build : List Piece → List Token → Span → Token} (hp : Grown grammar text p)
    (hrule : p.rule ∈ [.htmlSelfClosing, .htmlTagOpen, .htmlTagClose])
    (h : elementOfPair read region build p = .ok t) :
    ∃ name rest pieces as, p.children = name :: rest ∧ nameOfPair region name = .ok pieces ∧
      rest.mapM (attributeOfPair read region) = .ok as ∧ t = build pieces as (p.span region.offset) := by
  obtain ⟨name, rest, hchildren, _, _, heq⟩ := elementOfPair_eq hp hrule
  rw [heq] at h
  simp only [bind_eq_ok, pure_eq_ok] at h
  obtain ⟨pieces, hpieces, as, has, rfl⟩ := h
  exact ⟨name, rest, pieces, as, hchildren, hpieces, has, rfl⟩

theorem docParamOfPair_ok {offset : Nat} (hp : Grown grammar text p) (hrule : p.rule = .docParam)
    (h : docParamOfPair offset p = .ok t) : ∃ param, t = .docParam param ∧ param.span = p.span offset := by
  obtain ⟨name, _, heq⟩ := docParamOfPair_eq hp hrule
  rw [heq] at h
  cases h
  exact ⟨_, rfl, rfl⟩

inductive PairRead (read : ReadText) (region : Region) (p : Pair Rule) : Token → Prop
  | text : p.rule ∈ [.textNode, .liquidTextNode, .docText] →
      PairRead read region p (.text (runOfPair region.offset p))
  | frontmatter : p.rule = .yamlFrontmatter →
      PairRead read region p (.frontmatter (String.ofList (firstText p)) (p.span region.offset))
  | doctype : p.rule = .htmlDoctype →
      PairRead read region p (.doctype (p.children.head?.map Pair.string) (p.span region.offset))
  | comment : p.rule = .htmlComment →
      PairRead read region p (.comment (String.ofList (firstText p)) (p.span region.offset))
  | rawElement {name rest body as ts} : p.rule = .htmlRawTag → p.children = name :: rest →
      p.children.getLast? = some body → rest.dropLast.mapM (attributeOfPair read region) = .ok as →
      read ⟨(body.span region.offset).lo, .tolerant⟩ .liquid body.text = .ok ts →
      PairRead read region p (.rawElement ⟨runOfPair region.offset name, body.string, body.span region.offset,
        blockAround (p.span region.offset) (body.span region.offset)⟩ as ts)
  | voidElement {name rest as} : p.rule = .htmlVoidElement → p.children = name :: rest →
      rest.mapM (attributeOfPair read region) = .ok as →
      PairRead read region p (.voidElement (runOfPair region.offset name) as (p.span region.offset))
  | selfClosing {name rest pieces as} : p.rule = .htmlSelfClosing → p.children = name :: rest →
      nameOfPair region name = .ok pieces → rest.mapM (attributeOfPair read region) = .ok as →
      PairRead read region p (.selfClosing pieces as (p.span region.offset))
  | elementOpen {name rest pieces as} : p.rule = .htmlTagOpen → p.children = name :: rest →
      nameOfPair region name = .ok pieces → rest.mapM (attributeOfPair read region) = .ok as →
      PairRead read region p (.elementOpen pieces as (p.span region.offset))
  | elementClose {name rest pieces} : p.rule = .htmlTagClose → p.children = name :: rest →
      nameOfPair region name = .ok pieces → PairRead read region p (.elementClose pieces (p.span region.offset))
  | docParam {param} : p.rule = .docParam → param.span = p.span region.offset →
      PairRead read region p (.docParam param)
  | docExample : p.rule = .docExample →
      PairRead read region p (.docExample (trimmed (firstText p)) (p.span region.offset))
  | docDescription : p.rule = .docDescription →
      PairRead read region p (.docDescription (trimmed (firstText p)) (p.span region.offset))
  | liquid {t : Token} : liquidOfPair read region p = .ok t → PairRead read region p t

theorem dropLast_subset {name : Pair Rule} {rest : List (Pair Rule)} (hchildren : p.children = name :: rest) :
    rest.dropLast ⊆ p.children := by
  rw [hchildren]
  exact List.subset_cons_of_subset _ (List.dropLast_subset rest)

namespace PairRead

theorem of_raw (hp : Grown grammar text p) (hrule : p.rule = .htmlRawTag)
    (h : rawElementOfPair read region p = .ok t) : PairRead read region p t := by
  obtain ⟨name, attributes, body, hchildren, _, _, _, heq⟩ := rawElementOfPair_eq hp hrule
  rw [heq] at h
  simp only [bind_eq_ok, pure_eq_ok] at h
  obtain ⟨as, has, ts, hts, rfl⟩ := h
  have hlast : p.children.getLast? = some body := by
    rw [hchildren, ← List.cons_append, List.getLast?_concat]
  exact .rawElement hrule hchildren hlast (by rwa [List.dropLast_concat]) hts

theorem of_void (hp : Grown grammar text p) (hrule : p.rule = .htmlVoidElement)
    (h : voidElementOfPair read region p = .ok t) : PairRead read region p t := by
  obtain ⟨name, attributes, hchildren, _, _, heq⟩ := voidElementOfPair_eq hp hrule
  rw [heq] at h
  simp only [bind_eq_ok, pure_eq_ok] at h
  obtain ⟨as, has, rfl⟩ := h
  exact .voidElement hrule hchildren has

theorem of_pair (hp : Grown grammar text p) (h : ofPair read region p = .ok t) : PairRead read region p t := by
  unfold ofPair at h
  simp only at h
  split at h
  case h_15 => exact .liquid h
  all_goals rename_i hrule
  case h_1 | h_2 | h_3 =>
    cases h
    exact .text (by simp [hrule])
  case h_7 => exact of_raw hp hrule h
  case h_8 => exact of_void hp hrule h
  case h_9 =>
    obtain ⟨name, rest, pieces, as, hchildren, hpieces, has, rfl⟩ := elementOfPair_ok hp (by simp [hrule]) h
    exact .selfClosing hrule hchildren hpieces has
  case h_10 =>
    obtain ⟨name, rest, pieces, as, hchildren, hpieces, has, rfl⟩ := elementOfPair_ok hp (by simp [hrule]) h
    exact .elementOpen hrule hchildren hpieces has
  case h_11 =>
    obtain ⟨name, rest, pieces, as, hchildren, hpieces, _, rfl⟩ := elementOfPair_ok hp (by simp [hrule]) h
    exact .elementClose hrule hchildren hpieces
  case h_12 =>
    obtain ⟨param, rfl, hspan⟩ := docParamOfPair_ok hp hrule h
    exact .docParam hrule hspan
  all_goals cases h
  · exact .frontmatter hrule
  · exact .doctype hrule
  · exact .comment hrule
  · exact .docExample hrule
  · exact .docDescription hrule

end PairRead

end Token

end LiquidTemplate
