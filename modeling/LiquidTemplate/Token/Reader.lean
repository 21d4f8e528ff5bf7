import LiquidTemplate.Markup.Reader
import LiquidTemplate.Token

namespace LiquidTemplate

open Peg (Pair)

inductive Entry where
  /-- Liquid in HTML. -/
  | liquidHtml
  /-- Liquid; HTML is text. -/
  | liquid
  /-- The statements of a `liquid` tag, one on a line. -/
  | statements
  /-- The body of a `doc` tag. -/
  | doc
  deriving DecidableEq, Repr, Inhabited

def Entry.startRule : Entry → Rule
  | liquidHtml => .liquidHtmlDocument
  | liquid => .liquidDocument
  | statements => .liquidTagContents
  | doc => .liquidDocContents

namespace Token

abbrev ReadText := Region → Entry → List Char → Except Error (List Token)

def firstText (p : Pair Rule) : List Char :=
  match p.children with
  | [] => []
  | child :: _ => child.text

def trimmed (text : List Char) : String := String.ofList (Text.trim text)

def runOfPair (offset : Nat) (p : Pair Rule) : TextRun := ⟨p.string, p.span offset⟩

structure Parts where
  name : Option (Pair Rule) := none
  markup : Option (Pair Rule) := none
  body : Option (Pair Rule) := none
  trim : Trim := {}

def Parts.add (offset : Nat) (parts : Parts) (p : Pair Rule) : Except Error Parts :=
  match p.rule with
  | .stripStart => .ok { parts with trim.before := true }
  | .stripEnd => .ok { parts with trim.after := true }
  | .blockName | .tagName | .closeName | .rawTagName | .statementName =>
    .ok { parts with name := some p }
  | .tagMarkup | .statementMarkup => .ok { parts with markup := some p }
  | .statementCommentBody => .ok { parts with body := some p }
  | _ => .error (unexpected offset p)

def partsOfPair (offset : Nat) (p : Pair Rule) : Except Error Parts :=
  p.children.foldlM (Parts.add offset) {}

def outputMarkup (region : Region) (p : Pair Rule) : Except Error OutputMarkup := do
  let start := (p.span region.offset).lo
  match ← Markup.matchRule region start .markupVariable p.text with
  | none => return .raw (trimmed p.text)
  | some markup =>
    let value ← expect "variable" (p.span region.offset) (Markup.parts markup)[0]?
    return .value (← Variable.ofPair start value)

def addToOutput (region : Region) (o : Output) (p : Pair Rule) : Except Error Output :=
  match p.rule with
  | .stripStart => .ok { o with trim.before := true }
  | .stripEnd => .ok { o with trim.after := true }
  | .dropMarkup => do return { o with markup := ← outputMarkup region p }
  | _ => .error (unexpected region.offset p)

def outputOfPair (region : Region) (p : Pair Rule) : Except Error Output :=
  p.children.foldlM (addToOutput region) ⟨.raw "", {}, p.span region.offset⟩

def pieceOfPair (region : Region) (p : Pair Rule) : Except Error Piece :=
  match p.rule with
  | .liquidDrop => .output <$> outputOfPair region p
  | .nameText | .attrNameText => .ok (.text (runOfPair region.offset p))
  | _ => .error (unexpected region.offset p)

def nameOfPair (region : Region) (p : Pair Rule) : Except Error (List Piece) :=
  p.children.mapM (pieceOfPair region)

/-- A tag from its name and markup.  Statements that cannot be read are an error in strict mode,
and kept as text otherwise. -/
def tagOfParts (read : ReadText) (region : Region) (build : Tag → Token) (name : String)
    (markup : List Char) (markupSpan : Span) (trim : Trim) (span : Span) : Except Error Token :=
  let tag := fun m => build ⟨name, m, markupSpan, trim, span⟩
  match NamedTag.ofName? name with
  | none => .ok (tag (.text (String.ofList markup)))
  | some named =>
    match named.markupRule? with
    | some rule => tag <$> Markup.read region markupSpan.lo named rule markup
    | none =>
      match read ⟨markupSpan.lo, region.mode⟩ .statements markup with
      | .ok body => .ok (.statements ⟨markupSpan, trim, span⟩ body)
      | .error e =>
        if region.mode = .strict then .error e else .ok (tag (.text (trimmed markup)))

def tagOfPair (read : ReadText) (region : Region) (build : Tag → Token) (p : Pair Rule) :
    Except Error Token := do
  let parts ← partsOfPair region.offset p
  let name ← expect "tag name" (p.span region.offset) parts.name
  let (markup, markupSpan) := match parts.markup with
    | some markup => (markup.text, markup.span region.offset)
    | none => ([], .point (name.span region.offset).hi)
  tagOfParts read region build name.string markup markupSpan parts.trim (p.span region.offset)

def tagCloseOfPair (offset : Nat) (p : Pair Rule) : Except Error Token := do
  let parts ← partsOfPair offset p
  let name ← expect "closing tag name" (p.span offset) parts.name
  return .tagClose ⟨name.string, parts.trim, p.span offset⟩

/-- A verbatim body as one text without the blanks around it, or as nothing if it is blank. -/
def verbatim (body : List Char) (start : Nat) : List Token :=
  match Text.trim body with
  | [] => []
  | value =>
    let start := start + (Text.byteLength body - Text.byteLength (Text.trimStart body))
    [.text ⟨String.ofList value, .between start (start + Text.byteLength value)⟩]

def rawTagBody (read : ReadText) (region : Region) (name : String) (body : List Char)
    (start : Nat) : Except Error (List Token) :=
  match name with
  | "doc" => read ⟨start, region.mode⟩ .doc body
  | "style" => read ⟨start, .tolerant⟩ .liquid body
  | _ => .ok (verbatim body start)

def rawTagOfPair (read : ReadText) (region : Region) (p : Pair Rule) : Except Error Token := do
  let span := p.span region.offset
  let opening ← expect "raw tag opening" span p.children[0]?
  let body ← expect "raw tag body" span p.children[1]?
  let closing ← expect "raw tag closing" span p.children[2]?
  let parts ← partsOfPair region.offset opening
  let closingParts ← partsOfPair region.offset closing
  let name ← expect "raw tag name" span parts.name
  let bodySpan := body.span region.offset
  let tokens ← rawTagBody read region name.string body.text bodySpan.lo
  let block := ⟨span, opening.span region.offset, closing.span region.offset⟩
  return .rawTag
    ⟨name.string, parts.markup.elim "" Pair.string, body.string, bodySpan, parts.trim,
      closingParts.trim, block⟩ tokens

def blockAround (span body : Span) : Block :=
  ⟨span, .between span.lo body.lo, .between body.hi span.hi⟩

def commentOfPair (offset : Nat) (p : Pair Rule) : Except Error Token := do
  let parts ← partsOfPair offset p
  let body ← expect "comment body" (p.span offset) parts.body
  let bodySpan := body.span offset
  return .rawTag
    ⟨"comment", "", body.string, bodySpan, {}, {}, blockAround (p.span offset) bodySpan⟩
    (verbatim body.text bodySpan.lo)

def liquidOfPair (read : ReadText) (region : Region) (p : Pair Rule) : Except Error Token :=
  match p.rule with
  | .liquidDrop => .output <$> outputOfPair region p
  | .liquidTagOpen | .statementOpen => tagOfPair read region .tagOpen p
  | .liquidTag | .statementTag => tagOfPair read region .tag p
  | .liquidTagClose | .statementClose => tagCloseOfPair region.offset p
  | .liquidRawTag => rawTagOfPair read region p
  | .statementComment => commentOfPair region.offset p
  | _ => .error (unexpected region.offset p)

def valueOfPair (read : ReadText) (region : Region) (p : Pair Rule) : Except Error Token :=
  match p.rule with
  | .attrDqText | .attrSqText | .attrUqText => .ok (.text (runOfPair region.offset p))
  | _ => liquidOfPair read region p

structure AttributeParts where
  name : List Piece
  value : List Token
  valueSpan : Span

def AttributeParts.add (read : ReadText) (region : Region) (a : AttributeParts) (p : Pair Rule) :
    Except Error AttributeParts :=
  match p.rule with
  | .attrName => do return { a with name := ← nameOfPair region p }
  | .attrDqValue | .attrSqValue | .attrUqValue => do
    let value ← p.children.mapM (valueOfPair read region)
    return { a with value, valueSpan := p.span region.offset }
  | _ => .error (unexpected region.offset p)

def attributeOfParts (read : ReadText) (region : Region) (quotes : Quotes) (p : Pair Rule) :
    Except Error Token := do
  let span := p.span region.offset
  let a ← p.children.foldlM (AttributeParts.add read region) ⟨[], [], .point span.hi⟩
  return .valueAttribute quotes a.name a.value a.valueSpan span

def attributeOfPair (read : ReadText) (region : Region) (p : Pair Rule) : Except Error Token :=
  match p.rule with
  | .attrDoubleQuoted => attributeOfParts read region .double p
  | .attrSingleQuoted => attributeOfParts read region .single p
  | .attrUnquoted => attributeOfParts read region .none p
  | .attrEmpty =>
    match p.children with
    | name :: _ => do return .bareAttribute (← nameOfPair region name) (p.span region.offset)
    | [] => .ok (.bareAttribute [] (p.span region.offset))
  | _ => liquidOfPair read region p

structure ElementParts (ν : Type) where
  name : Option ν := none
  attributes : List Token := []

def ElementParts.add {ν : Type} (read : ReadText) (region : Region) (nameRule : Rule)
    (readName : Pair Rule → Except Error ν) (e : ElementParts ν) (p : Pair Rule) :
    Except Error (ElementParts ν) :=
  if p.rule = nameRule then do return { e with name := some (← readName p) }
  else do return { e with attributes := e.attributes ++ [← attributeOfPair read region p] }

def elementOfPair (read : ReadText) (region : Region)
    (build : List Piece → List Token → Span → Token) (p : Pair Rule) : Except Error Token := do
  let e ← p.children.foldlM (ElementParts.add read region .htmlName (nameOfPair region)) {}
  return build (e.name.getD []) e.attributes (p.span region.offset)

def voidElementOfPair (read : ReadText) (region : Region) (p : Pair Rule) :
    Except Error Token := do
  let readName := fun q => .ok (runOfPair region.offset q)
  let e ← p.children.foldlM (ElementParts.add read region .voidName readName) {}
  match e.name with
  | some name => return .voidElement name e.attributes (p.span region.offset)
  | none => .error (malformed region.offset p)

structure RawElementParts where
  name : Option TextRun := none
  attributes : List Token := []
  body : Option (Pair Rule) := none

def RawElementParts.add (read : ReadText) (region : Region) (e : RawElementParts)
    (p : Pair Rule) : Except Error RawElementParts :=
  match p.rule with
  | .htmlRawName => .ok { e with name := some (runOfPair region.offset p) }
  | .htmlRawBody => .ok { e with body := some p }
  | _ => do return { e with attributes := e.attributes ++ [← attributeOfPair read region p] }

def rawElementOfPair (read : ReadText) (region : Region) (p : Pair Rule) :
    Except Error Token := do
  let span := p.span region.offset
  let e ← p.children.foldlM (RawElementParts.add read region) {}
  let body ← expect "raw element body" span e.body
  let bodySpan := body.span region.offset
  let tokens ← read ⟨bodySpan.lo, .tolerant⟩ .liquid body.text
  match e.name with
  | some name =>
    return .rawElement ⟨name, body.string, bodySpan, blockAround span bodySpan⟩ e.attributes tokens
  | none => .error (malformed region.offset p)

def addToDocParam (offset : Nat) (d : DocParam) (p : Pair Rule) : Except Error DocParam :=
  match p.rule with
  | .docParamType => .ok { d with type := some (trimmed (firstText p)) }
  | .docParamName => .ok { d with name := p.string }
  | .docOptionalName => .ok { d with required := false, name := String.ofList (firstText p) }
  | .docParamDescription => .ok { d with description := some p.string }
  | _ => .error (unexpected offset p)

def docParamOfPair (offset : Nat) (p : Pair Rule) : Except Error Token :=
  .docParam <$> p.children.foldlM (addToDocParam offset) ⟨"", none, none, true, p.span offset⟩

def ofPair (read : ReadText) (region : Region) (p : Pair Rule) : Except Error Token :=
  let span := p.span region.offset
  match p.rule with
  | .textNode | .liquidTextNode | .docText => .ok (.text (runOfPair region.offset p))
  | .yamlFrontmatter => .ok (.frontmatter (String.ofList (firstText p)) span)
  | .htmlDoctype => .ok (.doctype (p.children.head?.map Pair.string) span)
  | .htmlComment => .ok (.comment (String.ofList (firstText p)) span)
  | .htmlRawTag => rawElementOfPair read region p
  | .htmlVoidElement => voidElementOfPair read region p
  | .htmlSelfClosing => elementOfPair read region .selfClosing p
  | .htmlTagOpen => elementOfPair read region .elementOpen p
  | .htmlTagClose => elementOfPair read region (fun name _ span => .elementClose name span) p
  | .docParam => docParamOfPair region.offset p
  | .docExample => .ok (.docExample (trimmed (firstText p)) span)
  | .docDescription => .ok (.docDescription (trimmed (firstText p)) span)
  | _ => liquidOfPair read region p

/-- Reads a text, with at most `depth` texts inside each other. -/
def readWithin : Nat → ReadText
  | 0, region, _, _ => .error (.unreadable (.fault .exhausted) (.point region.offset))
  | depth + 1, region, entry, source =>
    match grammar.parse entry.startRule source with
    | .error mismatch => .error (.ofMismatch region.offset mismatch)
    | .ok pairs =>
      ((pairs.flatMap (·.children)).filter (·.rule != .endOfInput)).mapM
        (ofPair (readWithin depth) region)

/-- Cuts a text that starts at the region's offset into tokens. -/
def read (region : Region) (entry : Entry) (source : List Char) : Except Error (List Token) :=
  readWithin (source.length + 1) region entry source

end Token

end LiquidTemplate
