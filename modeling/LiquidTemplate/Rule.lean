namespace LiquidTemplate

inductive Rule where
  | endOfInput
  | space
  | inlineSpace
  | idStart
  | idChar
  | nameChar
  | stripStart
  | stripEnd
  | liquidHtmlDocument
  | liquidDocument
  | liquidTagContents
  | liquidDocContents
  | htmlNode
  | liquidNode
  | yamlFrontmatter
  | frontmatterBody
  | textNode
  | textWord
  | htmlTextStop
  | liquidTextNode
  | liquidWord
  | liquidTextStop
  | liquidDrop
  | dropMarkup
  | dropWord
  | tagMarkup
  | markupWord
  | tagName
  | closeName
  | blockName
  | rawTagName
  | liquidTagClose
  | liquidTagOpen
  | liquidTag
  | liquidRawTag
  | rawTagOpen
  | rawBody
  | rawCloseAhead
  | rawTagClose
  | liquidStatement
  | statementComment
  | statementCommentBody
  | statementClose
  | statementOpen
  | statementTag
  | statementName
  | statementMarkup
  | lineWord
  | docNode
  | docParam
  | docParamType
  | docTypeText
  | docParamName
  | docOptionalName
  | docParamDescription
  | docExample
  | docDescription
  | docBlockContent
  | docText
  | docRun
  | docWord
  | htmlComment
  | htmlCommentBody
  | htmlDoctype
  | doctypeValue
  | doctypeWord
  | htmlRawTag
  | htmlRawName
  | htmlRawBody
  | htmlVoidElement
  | voidName
  | htmlSelfClosing
  | htmlTagOpen
  | htmlTagClose
  | htmlName
  | nameText
  | attrList
  | attrItem
  | attrName
  | attrNameText
  | attrDoubleQuoted
  | attrDqValue
  | attrDqText
  | attrSingleQuoted
  | attrSqValue
  | attrSqText
  | attrUnquoted
  | attrUqValue
  | attrUqText
  | attrEmpty
  | whitespace
  | identifier
  | variableName
  | filterName
  | argumentName
  | lookupName
  | string
  | singleQuoted
  | doubleQuoted
  | number
  | literal
  | range
  | rangeBound
  | variableLookup
  | bracketLookup
  | expression
  | liquidVariable
  | filter
  | argument
  | namedArgument
  | condition
  | comparison
  | comparator
  | logicalOperator
  | kwIn
  | kwBy
  | kwAs
  | reversed
  | renderKind
  | cycleGroup
  | renderSnippet
  | renderVariable
  | renderAlias
  | markupVariable
  | markupCondition
  | markupAssign
  | markupVariableName
  | markupCase
  | markupWhen
  | markupFor
  | markupCycle
  | markupRender
  | markupPaginate
  | markupContentFor
  | markupForm
  | markupLayout
  | markupString
  deriving DecidableEq, Repr, Inhabited

namespace Rule

def name : Rule → String
  | endOfInput => "EOI"
  | space => "space"
  | inlineSpace => "inline_space"
  | idStart => "id_start"
  | idChar => "id_char"
  | nameChar => "name_char"
  | stripStart => "strip_start"
  | stripEnd => "strip_end"
  | liquidHtmlDocument => "liquid_html_document"
  | liquidDocument => "liquid_document"
  | liquidTagContents => "liquid_tag_contents"
  | liquidDocContents => "liquid_doc_contents"
  | htmlNode => "html_node"
  | liquidNode => "liquid_node"
  | yamlFrontmatter => "yaml_frontmatter"
  | frontmatterBody => "frontmatter_body"
  | textNode => "text_node"
  | textWord => "text_word"
  | htmlTextStop => "html_text_stop"
  | liquidTextNode => "liquid_text_node"
  | liquidWord => "liquid_word"
  | liquidTextStop => "liquid_text_stop"
  | liquidDrop => "liquid_drop"
  | dropMarkup => "drop_markup"
  | dropWord => "drop_word"
  | tagMarkup => "tag_markup"
  | markupWord => "markup_word"
  | tagName => "tag_name"
  | closeName => "close_name"
  | blockName => "block_name"
  | rawTagName => "raw_tag_name"
  | liquidTagClose => "liquid_tag_close"
  | liquidTagOpen => "liquid_tag_open"
  | liquidTag => "liquid_tag"
  | liquidRawTag => "liquid_raw_tag"
  | rawTagOpen => "raw_tag_open"
  | rawBody => "raw_body"
  | rawCloseAhead => "raw_close_ahead"
  | rawTagClose => "raw_tag_close"
  | liquidStatement => "liquid_statement"
  | statementComment => "statement_comment"
  | statementCommentBody => "statement_comment_body"
  | statementClose => "statement_close"
  | statementOpen => "statement_open"
  | statementTag => "statement_tag"
  | statementName => "statement_name"
  | statementMarkup => "statement_markup"
  | lineWord => "line_word"
  | docNode => "doc_node"
  | docParam => "doc_param"
  | docParamType => "doc_param_type"
  | docTypeText => "doc_type_text"
  | docParamName => "doc_param_name"
  | docOptionalName => "doc_optional_name"
  | docParamDescription => "doc_param_description"
  | docExample => "doc_example"
  | docDescription => "doc_description"
  | docBlockContent => "doc_block_content"
  | docText => "doc_text"
  | docRun => "doc_run"
  | docWord => "doc_word"
  | htmlComment => "html_comment"
  | htmlCommentBody => "html_comment_body"
  | htmlDoctype => "html_doctype"
  | doctypeValue => "doctype_value"
  | doctypeWord => "doctype_word"
  | htmlRawTag => "html_raw_tag"
  | htmlRawName => "html_raw_name"
  | htmlRawBody => "html_raw_body"
  | htmlVoidElement => "html_void_element"
  | voidName => "void_name"
  | htmlSelfClosing => "html_self_closing"
  | htmlTagOpen => "html_tag_open"
  | htmlTagClose => "html_tag_close"
  | htmlName => "html_name"
  | nameText => "name_text"
  | attrList => "attr_list"
  | attrItem => "attr_item"
  | attrName => "attr_name"
  | attrNameText => "attr_name_text"
  | attrDoubleQuoted => "attr_double_quoted"
  | attrDqValue => "attr_dq_value"
  | attrDqText => "attr_dq_text"
  | attrSingleQuoted => "attr_single_quoted"
  | attrSqValue => "attr_sq_value"
  | attrSqText => "attr_sq_text"
  | attrUnquoted => "attr_unquoted"
  | attrUqValue => "attr_uq_value"
  | attrUqText => "attr_uq_text"
  | attrEmpty => "attr_empty"
  | whitespace => "WHITESPACE"
  | identifier => "identifier"
  | variableName => "variable_name"
  | filterName => "filter_name"
  | argumentName => "argument_name"
  | lookupName => "lookup_name"
  | string => "string"
  | singleQuoted => "single_quoted"
  | doubleQuoted => "double_quoted"
  | number => "number"
  | literal => "literal"
  | range => "range"
  | rangeBound => "range_bound"
  | variableLookup => "variable_lookup"
  | bracketLookup => "bracket_lookup"
  | expression => "expression"
  | liquidVariable => "liquid_variable"
  | filter => "filter"
  | argument => "argument"
  | namedArgument => "named_argument"
  | condition => "condition"
  | comparison => "comparison"
  | comparator => "comparator"
  | logicalOperator => "logical_operator"
  | kwIn => "kw_in"
  | kwBy => "kw_by"
  | kwAs => "kw_as"
  | reversed => "reversed"
  | renderKind => "render_kind"
  | cycleGroup => "cycle_group"
  | renderSnippet => "render_snippet"
  | renderVariable => "render_variable"
  | renderAlias => "render_alias"
  | markupVariable => "markup_variable"
  | markupCondition => "markup_condition"
  | markupAssign => "markup_assign"
  | markupVariableName => "markup_variable_name"
  | markupCase => "markup_case"
  | markupWhen => "markup_when"
  | markupFor => "markup_for"
  | markupCycle => "markup_cycle"
  | markupRender => "markup_render"
  | markupPaginate => "markup_paginate"
  | markupContentFor => "markup_content_for"
  | markupForm => "markup_form"
  | markupLayout => "markup_layout"
  | markupString => "markup_string"

/-- All rules, in the order of reports. -/
def all : List Rule :=
  [endOfInput, space, inlineSpace, idStart, idChar, nameChar, stripStart, stripEnd,
   liquidHtmlDocument, liquidDocument, liquidTagContents, liquidDocContents, htmlNode, liquidNode,
   yamlFrontmatter, frontmatterBody, textNode, textWord, htmlTextStop, liquidTextNode, liquidWord,
   liquidTextStop, liquidDrop, dropMarkup, dropWord, tagMarkup, markupWord, tagName, closeName,
   blockName, rawTagName, liquidTagClose, liquidTagOpen, liquidTag, liquidRawTag, rawTagOpen,
   rawBody, rawCloseAhead, rawTagClose, liquidStatement, statementComment, statementCommentBody,
   statementClose, statementOpen, statementTag, statementName, statementMarkup, lineWord, docNode,
   docParam, docParamType, docTypeText, docParamName, docOptionalName, docParamDescription,
   docExample, docDescription, docBlockContent, docText, docRun, docWord, htmlComment,
   htmlCommentBody, htmlDoctype, doctypeValue, doctypeWord, htmlRawTag, htmlRawName, htmlRawBody,
   htmlVoidElement, voidName, htmlSelfClosing, htmlTagOpen, htmlTagClose, htmlName, nameText,
   attrList, attrItem, attrName, attrNameText, attrDoubleQuoted, attrDqValue, attrDqText,
   attrSingleQuoted, attrSqValue, attrSqText, attrUnquoted, attrUqValue, attrUqText, attrEmpty,
   whitespace, identifier, variableName, filterName, argumentName, lookupName, string, singleQuoted,
   doubleQuoted, number, literal, range, rangeBound, variableLookup, bracketLookup, expression,
   liquidVariable, filter, argument, namedArgument, condition, comparison, comparator,
   logicalOperator, kwIn, kwBy, kwAs, reversed, renderKind, cycleGroup, renderSnippet,
   renderVariable, renderAlias, markupVariable, markupCondition, markupAssign, markupVariableName,
   markupCase, markupWhen, markupFor, markupCycle, markupRender, markupPaginate, markupContentFor,
   markupForm, markupLayout, markupString]

def ofName? (name : String) : Option Rule := all.find? (·.name == name)

end Rule

end LiquidTemplate
