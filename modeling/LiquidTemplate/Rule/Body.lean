import LiquidTemplate.Rule
import LiquidTemplate.Peg.Grammar

namespace LiquidTemplate

open Peg Peg.Expr Rule

/-- The character that an editor puts where it asks for completions; names may contain it. -/
def placeholder : Char := '\u2588'

namespace Rule

def outputStart : Expr Rule := word ['{', '{']

def outputStop : Expr Rule := word ['}', '}']

def tagStart : Expr Rule := word ['{', '%']

def tagStop : Expr Rule := word ['%', '}']

def alpha : Expr Rule := char Char.isAlpha

def alphanumeric : Expr Rule := char Char.isAlphanum

def digit : Expr Rule := char Char.isDigit

def lineBreak : Expr Rule := lit "\n" ||| lit "\r\n" ||| lit "\r"

def spaces : Expr Rule := many (call space)

def inlineSpaces : Expr Rule := many (call inlineSpace)

def words (blank w : Rule) : Expr Rule := call w ++ many (plus (call blank) ++ call w)

/-- A word that no name character follows. -/
def whole (e : Expr Rule) : Expr Rule := e ++ notAhead (call idChar)

/-- Named arguments at the end of a markup, with commas before and after them as one likes. -/
def trailingArguments : Expr Rule :=
  many (opt (lit ",") ++ call namedArgument) ++ opt (lit ",") ++ call endOfInput

def kind : Rule → Kind
  | space | inlineSpace | idStart | idChar | nameChar | htmlNode | liquidNode | textWord
  | htmlTextStop | liquidWord | liquidTextStop | dropWord | markupWord | rawCloseAhead
  | liquidStatement | lineWord | docNode | docRun | docWord | doctypeWord | attrList | attrItem
  | whitespace | rangeBound | expression | argument => .silent
  | endOfInput | stripStart | stripEnd | range | liquidVariable | filter | namedArgument
  | condition | comparison | cycleGroup | renderSnippet | renderVariable | renderAlias
  | markupVariable | markupCondition | markupAssign | markupVariableName | markupCase
  | markupWhen | markupFor | markupCycle | markupRender | markupPaginate | markupContentFor
  | markupForm | markupLayout | markupString => .plain
  | liquidHtmlDocument | liquidDocument | liquidTagContents | liquidDocContents | yamlFrontmatter
  | liquidDrop | liquidTagClose | liquidTagOpen | liquidTag | liquidRawTag | rawTagOpen
  | rawTagClose | statementComment | statementClose | statementOpen | statementTag | docParam
  | docParamType | docOptionalName | docExample | docDescription | htmlComment | htmlDoctype
  | htmlRawTag | htmlVoidElement | htmlSelfClosing | htmlTagOpen | htmlTagClose | htmlName
  | attrName | attrDoubleQuoted | attrDqValue | attrSingleQuoted | attrSqValue | attrUnquoted
  | attrUqValue | attrEmpty | string | variableLookup => .compound
  | frontmatterBody | textNode | liquidTextNode | dropMarkup | tagMarkup | tagName | closeName
  | blockName | rawTagName | rawBody | statementCommentBody | statementName | statementMarkup
  | docTypeText | docParamName | docParamDescription | docBlockContent | docText | htmlCommentBody
  | doctypeValue | htmlRawName | htmlRawBody | voidName | nameText | attrNameText | attrDqText
  | attrSqText | attrUqText | identifier | variableName | filterName | argumentName | lookupName
  | singleQuoted | doubleQuoted | number | literal | comparator | logicalOperator | kwIn | kwBy
  | kwAs | reversed | renderKind => .atomic
  | bracketLookup => .spaced

def body : Rule → Expr Rule
  | endOfInput => finish
  -- characters
  | space => lit " " ||| lit "\t" ||| lit "\n" ||| lit "\r" ||| lit "\x0c"
  | inlineSpace => lit " " ||| lit "\t"
  | idStart => alpha ||| lit "_" ||| word [placeholder]
  | idChar => alphanumeric ||| lit "_" ||| lit "-" ||| word [placeholder]
  | nameChar => alphanumeric ||| lit "-" ||| lit "_" ||| lit ":" ||| lit "."
  | stripStart => lit "-"
  | stripEnd => lit "-"
  -- whole texts
  | liquidHtmlDocument =>
    start ++ spaces ++ opt (call yamlFrontmatter) ++ many (spaces ++ call htmlNode) ++ spaces
      ++ call endOfInput
  | liquidDocument =>
    start ++ many (spaces ++ (call liquidNode ||| call liquidTextNode)) ++ spaces
      ++ call endOfInput
  | liquidTagContents =>
    start ++ many (spaces ++ call liquidStatement) ++ spaces ++ call endOfInput
  | liquidDocContents => start ++ many (spaces ++ call docNode) ++ spaces ++ call endOfInput
  | htmlNode =>
    call htmlDoctype ||| call htmlComment ||| call htmlRawTag ||| call htmlVoidElement
      ||| call htmlSelfClosing ||| call htmlTagClose ||| call htmlTagOpen ||| call liquidNode
      ||| call textNode
  | liquidNode =>
    call liquidRawTag ||| call liquidTagClose ||| call liquidTagOpen ||| call liquidTag
      ||| call liquidDrop
  | yamlFrontmatter =>
    lit "---" ++ inlineSpaces ++ lineBreak ++ call frontmatterBody ++ lit "---"
      ++ ahead (call space ||| call endOfInput)
  | frontmatterBody => until0 (lit "---")
  -- text
  | textNode => words space textWord
  | textWord => until1 (call space ||| call htmlTextStop)
  | htmlTextStop =>
    outputStart ||| tagStart ||| lit "<" ++ (alpha ||| lit "/" ||| lit "!" ||| outputStart)
      ||| call endOfInput
  | liquidTextNode => words space liquidWord
  | liquidWord => until1 (call space ||| call liquidTextStop)
  | liquidTextStop => outputStart ||| tagStart ||| call endOfInput
  -- outputs and tags
  | liquidDrop =>
    outputStart ++ opt (call stripStart) ++ spaces ++ opt (call dropMarkup) ++ spaces
      ++ opt (call stripEnd) ++ outputStop
  | dropMarkup => words space dropWord
  | dropWord => until1 (call space ||| word ['-', '}', '}'] ||| outputStop)
  | tagMarkup => words space markupWord
  | markupWord => until1 (call space ||| word ['-', '%', '}'] ||| tagStop)
  | tagName =>
    lit "#" ||| call idStart ++ many (notAhead (lit "-" ++ tagStop) ++ call idChar)
  | closeName => call idStart ++ many (notAhead (lit "-" ++ tagStop) ++ call idChar)
  | blockName =>
    whole (lit "capture" ||| lit "case" ||| lit "form" ||| lit "for" ||| lit "if"
      ||| lit "paginate" ||| lit "tablerow" ||| lit "unless")
  | rawTagName =>
    whole (lit "raw" ||| lit "comment" ||| lit "javascript" ||| lit "schema"
      ||| lit "stylesheet" ||| lit "style" ||| lit "doc")
  | liquidTagClose =>
    tagStart ++ opt (call stripStart) ++ spaces ++ lit "end" ++ call closeName ++ spaces
      ++ opt (call stripEnd) ++ tagStop
  | liquidTagOpen =>
    tagStart ++ opt (call stripStart) ++ spaces ++ call blockName
      ++ opt (spaces ++ call tagMarkup) ++ spaces ++ opt (call stripEnd) ++ tagStop
  | liquidTag =>
    tagStart ++ opt (call stripStart) ++ spaces ++ call tagName
      ++ opt (spaces ++ call tagMarkup) ++ spaces ++ opt (call stripEnd) ++ tagStop
  | liquidRawTag => call rawTagOpen ++ call rawBody ++ call rawTagClose
  | rawTagOpen =>
    tagStart ++ opt (call stripStart) ++ spaces ++ push (call rawTagName)
      ++ opt (spaces ++ call tagMarkup) ++ spaces ++ opt (call stripEnd) ++ tagStop
  | rawBody => until0 (call rawCloseAhead)
  | rawCloseAhead =>
    tagStart ++ opt (lit "-") ++ spaces ++ lit "end" ++ top ++ spaces ++ opt (lit "-") ++ tagStop
  | rawTagClose =>
    tagStart ++ opt (call stripStart) ++ spaces ++ lit "end" ++ pop ++ spaces
      ++ opt (call stripEnd) ++ tagStop
  -- statements, one on a line
  | liquidStatement =>
    call statementComment ||| call statementClose ||| call statementOpen ||| call statementTag
  | statementComment =>
    whole (lit "comment") ++ call statementCommentBody ++ whole (lit "endcomment")
  | statementCommentBody => until0 (whole (lit "endcomment"))
  | statementClose =>
    lit "end" ++ call closeName ++ ahead (inlineSpaces ++ (lineBreak ||| call endOfInput))
  | statementOpen => call blockName ++ opt (inlineSpaces ++ call statementMarkup)
  | statementTag => call statementName ++ opt (inlineSpaces ++ call statementMarkup)
  | statementName => lit "#" ||| call idStart ++ many (call idChar)
  | statementMarkup => words inlineSpace lineWord
  | lineWord => until1 (call inlineSpace ||| lineBreak)
  -- documentation
  | docNode => call docParam ||| call docExample ||| call docDescription ||| call docText
  | docParam =>
    whole (lit "@param") ++ opt (plus (call inlineSpace) ++ call docParamType)
      ++ plus (call inlineSpace) ++ (call docOptionalName ||| call docParamName)
      ++ opt (inlineSpaces ++ lit "-") ++ opt (inlineSpaces ++ call docParamDescription)
  | docParamType => word ['{'] ++ call docTypeText ++ word ['}']
  | docTypeText => until0 (word ['}'])
  | docParamName => call idStart ++ many (call idChar)
  | docOptionalName => lit "[" ++ call docParamName ++ lit "]"
  | docParamDescription => words inlineSpace lineWord
  | docExample => whole (lit "@example") ++ call docBlockContent
  | docDescription => whole (lit "@description") ++ call docBlockContent
  | docBlockContent => call docRun
  | docText => any ++ call docRun
  | docRun => many (spaces ++ call docWord)
  | docWord => until1 (call space ||| lit "@" ++ alpha)
  -- HTML
  | htmlComment => lit "<!--" ++ call htmlCommentBody ++ lit "-->"
  | htmlCommentBody => until0 (lit "-->")
  | htmlDoctype =>
    lit "<!" ++ litCaseless "doctype" ++ opt (plus (call space) ++ call doctypeValue) ++ spaces
      ++ lit ">"
  | doctypeValue => words space doctypeWord
  | doctypeWord => until1 (call space ||| lit ">")
  | htmlRawTag =>
    lit "<" ++ push (call htmlRawName) ++ call attrList ++ spaces ++ lit ">"
      ++ call htmlRawBody ++ lit "</" ++ pop ++ spaces ++ lit ">"
  | htmlRawName =>
    (litCaseless "script" ||| litCaseless "style" ||| litCaseless "svg")
      ++ notAhead (call nameChar)
  | htmlRawBody => until0 (lit "</" ++ top ++ spaces ++ lit ">")
  | htmlVoidElement =>
    lit "<" ++ call voidName ++ call attrList ++ spaces ++ opt (lit "/") ++ lit ">"
  | voidName =>
    (litCaseless "area" ||| litCaseless "base" ||| litCaseless "br" ||| litCaseless "col"
      ||| litCaseless "embed" ||| litCaseless "hr" ||| litCaseless "img" ||| litCaseless "input"
      ||| litCaseless "link" ||| litCaseless "meta" ||| litCaseless "param"
      ||| litCaseless "source" ||| litCaseless "track" ||| litCaseless "wbr")
      ++ notAhead (call nameChar)
  | htmlSelfClosing =>
    lit "<" ++ ahead (alpha ||| outputStart) ++ call htmlName ++ call attrList ++ spaces
      ++ lit "/>"
  | htmlTagOpen =>
    lit "<" ++ ahead (alpha ||| outputStart) ++ call htmlName ++ call attrList ++ spaces
      ++ lit ">"
  | htmlTagClose => lit "</" ++ spaces ++ call htmlName ++ spaces ++ lit ">"
  | htmlName => plus (call liquidDrop ||| call nameText)
  | nameText => plus (call nameChar)
  | attrList => many (spaces ++ call attrItem)
  | attrItem =>
    call attrDoubleQuoted ||| call attrSingleQuoted ||| call attrUnquoted ||| call liquidNode
      ||| call attrEmpty
  | attrName => plus (call liquidDrop ||| call attrNameText)
  | attrNameText =>
    until1 (call space ||| lit "=" ||| lit ">" ||| lit "/" ||| lit "\"" ||| lit "'"
      ||| outputStart ||| tagStart ||| lit "<")
  | attrDoubleQuoted =>
    call attrName ++ spaces ++ lit "=" ++ spaces ++ lit "\"" ++ call attrDqValue ++ lit "\""
  | attrDqValue => many (call liquidNode ||| call attrDqText)
  | attrDqText => until1 (lit "\"" ||| outputStart ||| tagStart)
  | attrSingleQuoted =>
    call attrName ++ spaces ++ lit "=" ++ spaces ++ lit "'" ++ call attrSqValue ++ lit "'"
  | attrSqValue => many (call liquidNode ||| call attrSqText)
  | attrSqText => until1 (lit "'" ||| outputStart ||| tagStart)
  | attrUnquoted => call attrName ++ spaces ++ lit "=" ++ spaces ++ call attrUqValue
  | attrUqValue => plus (call liquidDrop ||| call attrUqText)
  | attrUqText =>
    until1 (call space ||| lit ">" ||| lit "\"" ||| lit "'" ||| lit "=" ||| lit "\x60"
      ||| outputStart ||| tagStart ||| lit "/>")
  | attrEmpty => call attrName
  -- markup
  | whitespace => lit " " ||| lit "\t" ||| lit "\n" ||| lit "\r"
  | identifier => call idStart ++ many (call idChar) ++ opt (lit "?")
  | variableName => call idStart ++ many (call idChar)
  | filterName => call idStart ++ many (call idChar)
  | argumentName => call idStart ++ many (call idChar)
  | lookupName => call idStart ++ many (call idChar) ++ opt (lit "?")
  | string =>
    lit "'" ++ call singleQuoted ++ lit "'" ||| lit "\"" ++ call doubleQuoted ++ lit "\""
  | singleQuoted => until0 (lit "'")
  | doubleQuoted => until0 (lit "\"")
  | number => whole (opt (lit "-") ++ plus digit ++ opt (lit "." ++ plus digit))
  | literal =>
    whole (lit "true" ||| lit "false" ||| lit "nil" ||| lit "null" ||| lit "empty"
      ||| lit "blank")
  | range => lit "(" ++ call rangeBound ++ lit ".." ++ call rangeBound ++ lit ")"
  | rangeBound => call number ||| call variableLookup
  | variableLookup =>
    (call identifier ||| call bracketLookup)
      ++ many (lit "." ++ call lookupName ||| call bracketLookup)
  | bracketLookup => lit "[" ++ call expression ++ lit "]"
  | expression =>
    call string ||| call number ||| call literal ||| call range ||| call variableLookup
  | liquidVariable => call expression ++ many (call filter)
  | filter =>
    lit "|" ++ call filterName
      ++ opt (lit ":" ++ call argument ++ many (lit "," ++ call argument))
  | argument => call namedArgument ||| call expression
  | namedArgument => call argumentName ++ lit ":" ++ call expression
  | condition => call comparison ||| call expression
  | comparison => call expression ++ call comparator ++ call expression
  | comparator =>
    lit "==" ||| lit "!=" ||| lit "<>" ||| lit ">=" ||| lit "<=" ||| lit ">" ||| lit "<"
      ||| whole (lit "contains")
  | logicalOperator => whole (lit "and" ||| lit "or")
  | kwIn => whole (lit "in")
  | kwBy => whole (lit "by")
  | kwAs => whole (lit "as")
  | reversed => whole (lit "reversed")
  | renderKind => whole (lit "with" ||| lit "for")
  | cycleGroup => call expression
  | renderSnippet => call string ||| call variableLookup
  | renderVariable => call renderKind ++ call expression
  | renderAlias => call kwAs ++ call variableName
  | markupVariable => start ++ call liquidVariable ++ call endOfInput
  | markupCondition =>
    start ++ call condition ++ many (call logicalOperator ++ call condition) ++ call endOfInput
  | markupAssign =>
    start ++ call variableName ++ lit "=" ++ call liquidVariable ++ call endOfInput
  | markupVariableName => start ++ (call variableName ||| call string) ++ call endOfInput
  | markupCase => start ++ call expression ++ call endOfInput
  | markupWhen =>
    start ++ call expression ++ many ((lit "," ||| call logicalOperator) ++ call expression)
      ++ call endOfInput
  | markupFor =>
    start ++ call variableName ++ call kwIn ++ call expression ++ opt (call reversed)
      ++ trailingArguments
  | markupCycle =>
    start ++ opt (call cycleGroup ++ lit ":") ++ call expression
      ++ many (lit "," ++ call expression) ++ opt (lit ",") ++ call endOfInput
  | markupRender =>
    start ++ call renderSnippet ++ opt (call renderVariable) ++ opt (call renderAlias)
      ++ trailingArguments
  | markupPaginate =>
    start ++ call expression ++ call kwBy ++ call expression ++ trailingArguments
  | markupContentFor => start ++ call string ++ trailingArguments
  | markupForm =>
    start ++ call argument ++ many (lit "," ++ call argument) ++ opt (lit ",")
      ++ call endOfInput
  | markupLayout => start ++ call expression ++ call endOfInput
  | markupString => start ++ call string ++ call endOfInput

end Rule

/-- The template grammar.  Blanks between the parts of a markup are spaces, tabs and line ends. -/
def grammar : Grammar Rule where
  kind := Rule.kind
  body := Rule.body
  blank c := c == ' ' || c == '\t' || c == '\n' || c == '\r'

end LiquidTemplate
