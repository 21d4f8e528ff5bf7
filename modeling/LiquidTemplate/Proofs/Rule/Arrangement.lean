import LiquidTemplate.Proofs.Peg.Arrangement
import LiquidTemplate.Proofs.Rule.Shape

namespace LiquidTemplate

open Peg Peg.Place Rule

namespace Rule

def liquidParts : List Rule := [liquidRawTag, liquidTagClose, liquidTagOpen, liquidTag, liquidDrop]

def attributeParts : List Rule :=
  [attrDoubleQuoted, attrSingleQuoted, attrUnquoted, attrEmpty] ++ liquidParts

def expressionParts : List Rule := [string, number, literal, range, variableLookup]

/-- The places of a rule's parts.  Rules without parts have none. -/
def places : Rule → List (Place Rule)
  | liquidHtmlDocument =>
    [maybe [yamlFrontmatter],
      many ([htmlDoctype, htmlComment, htmlRawTag, htmlVoidElement, htmlSelfClosing, htmlTagClose,
        htmlTagOpen, textNode] ++ liquidParts), one [endOfInput]]
  | liquidDocument => [many (liquidTextNode :: liquidParts), one [endOfInput]]
  | liquidTagContents =>
    [many [statementComment, statementClose, statementOpen, statementTag], one [endOfInput]]
  | liquidDocContents => [many [docParam, docExample, docDescription, docText], one [endOfInput]]
  | yamlFrontmatter => [one [frontmatterBody]]
  | liquidDrop => [maybe [stripStart], maybe [dropMarkup], maybe [stripEnd]]
  | liquidTagClose => [maybe [stripStart], one [closeName], maybe [stripEnd]]
  | liquidTagOpen => [maybe [stripStart], one [blockName], maybe [tagMarkup], maybe [stripEnd]]
  | liquidTag => [maybe [stripStart], one [tagName], maybe [tagMarkup], maybe [stripEnd]]
  | liquidRawTag => [one [rawTagOpen], one [rawBody], one [rawTagClose]]
  | rawTagOpen => [maybe [stripStart], one [rawTagName], maybe [tagMarkup], maybe [stripEnd]]
  | rawTagClose => [maybe [stripStart], maybe [stripEnd]]
  | statementComment => [one [statementCommentBody]]
  | statementClose => [one [closeName]]
  | statementOpen => [one [blockName], maybe [statementMarkup]]
  | statementTag => [one [statementName], maybe [statementMarkup]]
  | docParam => [maybe [docParamType], one [docOptionalName, docParamName], maybe [docParamDescription]]
  | docParamType => [one [docTypeText]]
  | docOptionalName => [one [docParamName]]
  | docExample | docDescription => [one [docBlockContent]]
  | htmlComment => [one [htmlCommentBody]]
  | htmlDoctype => [maybe [doctypeValue]]
  | htmlRawTag => [one [htmlRawName], many attributeParts, one [htmlRawBody]]
  | htmlVoidElement => [one [voidName], many attributeParts]
  | htmlSelfClosing | htmlTagOpen => [one [htmlName], many attributeParts]
  | htmlTagClose => [one [htmlName]]
  | htmlName => [one [liquidDrop, nameText], many [liquidDrop, nameText]]
  | attrName => [one [liquidDrop, attrNameText], many [liquidDrop, attrNameText]]
  | attrDoubleQuoted => [one [attrName], one [attrDqValue]]
  | attrSingleQuoted => [one [attrName], one [attrSqValue]]
  | attrUnquoted => [one [attrName], one [attrUqValue]]
  | attrEmpty => [one [attrName]]
  | attrDqValue => [many (attrDqText :: liquidParts)]
  | attrSqValue => [many (attrSqText :: liquidParts)]
  | attrUqValue => [one [liquidDrop, attrUqText], many [liquidDrop, attrUqText]]
  | string => [one [singleQuoted, doubleQuoted]]
  | range => [one [number, variableLookup], one [number, variableLookup]]
  | variableLookup => [one [identifier, bracketLookup], many [lookupName, bracketLookup]]
  | bracketLookup | cycleGroup => [one expressionParts]
  | liquidVariable => [one expressionParts, many [filter]]
  | filter => [one [filterName], many (namedArgument :: expressionParts)]
  | namedArgument => [one [argumentName], one expressionParts]
  | condition => [one (comparison :: expressionParts)]
  | comparison => [one expressionParts, one [comparator], one expressionParts]
  | renderSnippet => [one [string, variableLookup]]
  | renderVariable => [one [renderKind], one expressionParts]
  | renderAlias => [one [kwAs], one [variableName]]
  | markupVariable => [one [liquidVariable], one [endOfInput]]
  | markupCondition => [one [condition], many [logicalOperator, condition], one [endOfInput]]
  | markupAssign => [one [variableName], one [liquidVariable], one [endOfInput]]
  | markupVariableName => [one [variableName, string], one [endOfInput]]
  | markupCase | markupLayout => [one expressionParts, one [endOfInput]]
  | markupWhen => [one expressionParts, many (logicalOperator :: expressionParts), one [endOfInput]]
  | markupFor =>
    [one [variableName], one [kwIn], one expressionParts, maybe [reversed], many [namedArgument],
      one [endOfInput]]
  | markupCycle => [maybe [cycleGroup], one expressionParts, many expressionParts, one [endOfInput]]
  | markupRender =>
    [one [renderSnippet], maybe [renderVariable], maybe [renderAlias], many [namedArgument],
      one [endOfInput]]
  | markupPaginate =>
    [one expressionParts, one [kwBy], one expressionParts, many [namedArgument], one [endOfInput]]
  | markupContentFor => [one [string], many [namedArgument], one [endOfInput]]
  | markupForm =>
    [one (namedArgument :: expressionParts), many (namedArgument :: expressionParts), one [endOfInput]]
  | markupString => [one [string], one [endOfInput]]
  | _ => []

theorem fills_places (r : Rule) (hr : (grammar.kind r).branches) :
    ((grammar.body r).fills (grammar.seats 3) r.places).any (vacates · []) := by
  revert hr
  cases r <;> decide

end Rule

/-- A pair has its parts at the places of its rule. -/
theorem arranged_children {text : List Char} {p : Pair Rule} {r : Rule} (h : Grown grammar text p)
    (hp : p.rule = r) (hr : (grammar.kind r).branches) : Arranged r.places p.children := by
  subst hp
  exact h.arranged hr (fills_places p.rule hr)

/-- The parts of pairs of some rules are of rules that have a place in these. -/
theorem children_within {text : List Char} {p : Pair Rule} {rules : List Rule} (h : Grown grammar text p)
    (hp : p.rule ∈ rules) (allowed : List Rule)
    (hallowed : ∀ r ∈ rules, (grammar.kind r).branches ∧
      ∀ place ∈ r.places, ∀ s ∈ place.rules, s ∈ allowed) :
    ∀ q ∈ p.children, q.rule ∈ allowed := by
  obtain ⟨hbranches, hplaces⟩ := hallowed p.rule hp
  exact (arranged_children h rfl hbranches).forall_rules hplaces

end LiquidTemplate
