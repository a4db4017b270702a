import DocumentQuery.Document
import DocumentQuery.Token

namespace DocumentQuery

/-- What the grammar asks for at some place of a selector. -/
inductive Expectation where
  | selector | elementName | attributeName | attributeValue | closingBracket | bar | endOrComma
deriving DecidableEq

/-- What is wrong with a selector text. -/
inductive Fault where
  | missingId
  | missingClass
  | missingPseudo
  | strayCharacter (c : Char)
  | strayInBrackets (c : Char)
  | openArguments
  | openBrackets
  | openString
  | differentIds
  | wrongToken (expected : Expectation) (found : Token)
  | needlessArgument (name : String)
  | blankArgument (name : String)
  | noInteger (name text : String)
deriving DecidableEq

/-- Every way in which reading a selector or asking a query can fail. A token list that ends
without its end mark in the middle of a compound keeps its reader at the last token. -/
inductive SelectorError where
  | malformed (selector : String) (position : Nat) (fault : Fault)
  | unknownPseudoClass (name : String)
  | unknownPseudoElement (name : String)
  | missingValue (name : String)
  | nestedTooDeep (limit : Nat)
  | unknownNode (id : NodeId)
  | endless
deriving DecidableEq

def Expectation.description : Expectation → String
  | .selector => "a selector"
  | .elementName => "an element name or '*' after '|'"
  | .attributeName => "an attribute name"
  | .attributeValue => "an attribute value"
  | .closingBracket => "']'"
  | .bar => "'|'"
  | .endOrComma => "',' or end of input"

def Fault.message : Fault → String
  | .missingId => "expected a name after '#'"
  | .missingClass => "expected a class name after '.'"
  | .missingPseudo => "expected a pseudo-class name after ':'"
  | .strayCharacter c => "unexpected character '" ++ c.toString ++ "'"
  | .strayInBrackets c => "unexpected character '" ++ c.toString ++ "' in attribute selector"
  | .openArguments => "unterminated pseudo-class argument"
  | .openBrackets => "unterminated attribute selector"
  | .openString => "unterminated string"
  | .differentIds => "a compound selector cannot require two different ids"
  | .wrongToken expected found =>
    "expected " ++ expected.description ++ ", found " ++ found.description
  | .needlessArgument name => "':" ++ name ++ "' does not take an argument"
  | .blankArgument name => "':" ++ name ++ "()' has an empty argument"
  | .noInteger name text => "':" ++ name ++ "' expects an integer, found '" ++ text ++ "'"

def SelectorError.message : SelectorError → String
  | .malformed selector position fault =>
    "syntax error at position " ++ naturalText position ++ " in '" ++ selector ++ "': "
      ++ fault.message
  | .unknownPseudoClass name => "unknown pseudo-class ':" ++ name ++ "'"
  | .unknownPseudoElement name => "unknown pseudo-element '::" ++ name ++ "'"
  | .missingValue name => "pseudo-class ':" ++ name ++ "' requires a value"
  | .nestedTooDeep limit => "selector nesting exceeds the limit of " ++ naturalText limit
  | .unknownNode id => "node NodeId(" ++ naturalText id ++ ") is not part of the tree"
  | .endless => "the token list has no end"

end DocumentQuery
