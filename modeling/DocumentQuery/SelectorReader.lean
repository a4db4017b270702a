import DocumentQuery.Lexer
import DocumentQuery.TokenReader

namespace DocumentQuery

open TokenReader

/-- The name after the bar of a qualified type test; none is the star. -/
def readTypeName (source : String) : TokenReader (Option String) := do
  match ← peek with
  | .ident name => advance; return some name
  | .star => advance; return none
  | _ => unexpected source .elementName

/-- Goes on after what stands before a bar, if a bar follows. -/
def readQualified (source : String) (ns : NamespaceTest) (plain : Option TypeTest) :
    TokenReader (Option TypeTest) := do
  if (← peek) = .bar then
    advance
    let name ← readTypeName source
    return some ⟨some ns, name⟩
  else return plain

/-- Reads `name`, `*`, `prefix|name`, `*|name` or `|name`, or nothing. -/
def readTypeTest (source : String) : TokenReader (Option TypeTest) := do
  match ← peek with
  | .ident name => advance; readQualified source (.bound name) (some ⟨none, some name⟩)
  | .star => advance; readQualified source .any (some ⟨none, none⟩)
  | .bar => readQualified source .without none
  | _ => return none

/-- Reads the namespace in front of an attribute name. A name counts as one only with a bar
after it, but a star has to have a bar. -/
def readAttributeNamespace (source : String) : TokenReader (Option NamespaceTest) := do
  match ← peek with
  | .ident name =>
    if (← get).following = .bar then
      advance
      advance
      return some (.bound name)
    else return none
  | .star =>
    advance
    if (← peek) = .bar then
      advance
      return some .any
    else unexpected source .bar
  | .bar => advance; return some .without
  | _ => return none

/-- Reads an operator and a value; without them the attribute only has to be there. -/
def readComparison (source : String) : TokenReader (AttributeOperator × Option String) := do
  match ← peek with
  | .operator op =>
    advance
    match ← peek with
    | .quoted value => advance; return (op, some value)
    | .ident value => advance; return (op, some value)
    | _ => unexpected source .attributeValue
  | _ => return (.exactly, none)

/-- Reads an attribute test from its opening bracket on. -/
def readAttributeTest (source : String) : TokenReader AttributeTest := do
  advance
  let ns ← readAttributeNamespace source
  match ← peek with
  | .ident name =>
    advance
    let (operator, value) ← readComparison source
    if (← peek) = .closeBracket then
      advance
      return ⟨ns, name, operator, value⟩
    else unexpected source .closingBracket
  | _ => unexpected source .attributeName

/-- Reads the parentheses after a pseudo-class, with their place. -/
def readParentheses : TokenReader (Option (String × Nat)) := do
  match ← peek with
  | .arguments raw =>
    let position := (← get).position
    advance
    return some (raw, position)
  | _ => return none

/-- The argument that a pseudo-class of some kind takes from its parentheses. The reader of
nested selectors gets their text without the white space around it. -/
def argumentOf (nested : String → Except SelectorError Selector) (source name : String) :
    ArgumentKind → Option (String × Nat) → Except SelectorError Argument
  | .ignored, _ => .ok .none
  | .none, none => .ok .none
  | .none, some (_, position) => .error (.malformed source position (.needlessArgument name))
  | _, none => .error (.missingValue name)
  | kind, some (raw, position) =>
    let text := trimmed raw
    if text = "" then
      match kind with
      | .selector => .error (.malformed source position (.blankArgument name))
      | _ => .error (.missingValue name)
    else match kind with
      | .selector => (nested text).map .selector
      | .nth => .ok (.nth (NthRule.read raw))
      | .index =>
        match readWord text.toList with
        | some value => .ok (.index value)
        | none => .error (.malformed source position (.noInteger name text))
      | _ => .ok (.text text)

/-- Reads a pseudo-class after its name, which may be written in any case. -/
def readPseudoClass (nested : String → Except SelectorError Selector) (source name : String) :
    TokenReader PseudoClass := do
  match PseudoClassName.ofName? name with
  | some pseudo =>
    let written ← readParentheses
    match argumentOf nested source name pseudo.argumentKind written with
    | .ok argument => return ⟨pseudo, argument⟩
    | .error e => throw e
  | none => throw (.unknownPseudoClass name)

/-- Adds the next simple test to a compound; none when no simple test follows. -/
def readSimple (nested : String → Except SelectorError Selector) (source : String)
    (c : Compound) : TokenReader (Option Compound) := do
  match ← peek with
  | .idTest id =>
    if c.id.isSome ∧ c.id ≠ some id then fail source .differentIds
    else
      advance
      return some { c with id := some id }
  | .classTest name =>
    advance
    return some { c with classes := c.classes ++ [name] }
  | .openBracket =>
    let test ← readAttributeTest source
    return some { c with attributes := c.attributes ++ [test] }
  | .pseudoClass name =>
    advance
    let test ← readPseudoClass nested source name
    return some { c with pseudoClasses := c.pseudoClasses ++ [test] }
  | .pseudoElement name =>
    advance
    match PseudoElement.ofName? name with
    | some test => return some { c with pseudoElements := c.pseudoElements ++ [test] }
    | none => throw (.unknownPseudoElement name)
  | _ => return none

/-- Adds all simple tests that follow to a compound. Only the last of a list of tokens without
an end mark can leave the cursor where it was. -/
def readSimples (nested : String → Except SelectorError Selector) (source : String)
    (c : Compound) (ts : Cursor) : EStateM.Result SelectorError Cursor Compound :=
  match readSimple nested source c ts with
  | .ok none rest => .ok c rest
  | .ok (some more) rest =>
    if rest.length < ts.length then readSimples nested source more rest
    else .error .endless rest
  | .error e rest => .error e rest
termination_by ts.length

/-- Reads a compound, which has to hold at least one test. -/
def readCompound (nested : String → Except SelectorError Selector) (source : String) :
    TokenReader Compound := do
  let typeTest ← readTypeTest source
  let c ← readSimples nested source { typeTest }
  if c.isEmpty then unexpected source .selector else return c

/-- Reads the compounds and combinators of a group after its first combinator. -/
def readSteps (nested : String → Except SelectorError Selector) (source : String)
    (k : Combinator) (ts : Cursor) : EStateM.Result SelectorError Cursor (List Step) :=
  match readCompound nested source ts with
  | .error e rest => .error e rest
  | .ok c rest =>
    match rest.token with
    | .combinator next =>
      if rest.advance.length < ts.length then
        match readSteps nested source next rest.advance with
        | .ok steps after => .ok (⟨k, c⟩ :: steps) after
        | .error e after => .error e after
      else .error .endless rest
    | _ => .ok [⟨k, c⟩] rest
termination_by ts.length

/-- Reads a group; without a combinator in front it begins with descendants of the scope. -/
def readGroup (nested : String → Except SelectorError Selector) (source : String) :
    TokenReader Group := do
  match ← peek with
  | .combinator first =>
    advance
    return ⟨← readSteps nested source first⟩
  | _ => return ⟨← readSteps nested source .descendant⟩

/-- Reads groups between commas. -/
def readGroups (nested : String → Except SelectorError Selector) (source : String)
    (ts : Cursor) : EStateM.Result SelectorError Cursor (List Group) :=
  match readGroup nested source ts with
  | .error e rest => .error e rest
  | .ok g rest =>
    if rest.token = .comma then
      if rest.advance.length < ts.length then
        match readGroups nested source rest.advance with
        | .ok groups after => .ok (g :: groups) after
        | .error e after => .error e after
      else .error .endless rest
    else .ok [g] rest
termination_by ts.length

/-- Reads a selector, which has to go up to the end mark. -/
def readSelector (nested : String → Except SelectorError Selector) (source : String) :
    TokenReader Selector := do
  let groups ← readGroups nested source
  if (← peek) = .finish then return ⟨groups⟩ else unexpected source .endOrComma

/-- Reads the selector that a text holds. -/
def readText (nested : String → Except SelectorError Selector) (source : String) :
    Except SelectorError Selector := do
  let ts ← tokenize source
  match readSelector nested source ts with
  | .ok selector _ => .ok selector
  | .error e _ => .error e

/-- Reads a nested selector with `levels` levels of nesting left of the `limit` allowed. -/
def readNested (limit : Nat) : Nat → String → Except SelectorError Selector
  | 0, _ => .error (.nestedTooDeep limit)
  | levels + 1, text => readText (readNested limit levels) text

/-- Reads a selector from a token list of the text `source`, in which selectors may be nested
`limit` deep. -/
def selectorReader (limit : Nat) (source : String) : TokenReader Selector :=
  readSelector (readNested limit limit) source

/-- Reads a selector text, in which selectors may be nested `limit` deep. -/
def parse (limit : Nat) (text : String) : Except SelectorError Selector :=
  readText (readNested limit limit) text

end DocumentQuery
