import DocumentQuery.Selector

namespace DocumentQuery

/-- The smallest parts of a selector text. -/
inductive Token where
  | ident (name : String)
  | idTest (name : String)
  | classTest (name : String)
  | star
  | bar
  | pseudoClass (name : String)
  | pseudoElement (name : String)
  | arguments (raw : String)
  | openBracket
  | closeBracket
  | operator (op : AttributeOperator)
  | quoted (value : String)
  | combinator (k : Combinator)
  | comma
  | finish
deriving DecidableEq

/-- A token and the place of its first character in the text, in characters. -/
structure Lexeme where
  token : Token
  position : Nat
deriving DecidableEq

namespace Token

/-- Whether a compound may end with this token, so that blanks after it mean descendants. -/
def endsCompound : Token → Bool
  | .ident _ | .idTest _ | .classTest _ | .star | .closeBracket | .pseudoClass _
  | .pseudoElement _ | .arguments _ => true
  | _ => false

/-- How an error message names the token. -/
def description : Token → String
  | .ident name => "identifier '" ++ name ++ "'"
  | .idTest name => "'#" ++ name ++ "'"
  | .classTest name => "'." ++ name ++ "'"
  | .star => "'*'"
  | .bar => "'|'"
  | .pseudoClass name => "':" ++ name ++ "'"
  | .pseudoElement name => "'::" ++ name ++ "'"
  | .arguments raw => "'(" ++ raw ++ ")'"
  | .openBracket => "'['"
  | .closeBracket => "']'"
  | .operator op => "'" ++ op.sign ++ "'"
  | .quoted value => "string \"" ++ value ++ "\""
  | .combinator .descendant => "whitespace"
  | .combinator k => "'" ++ k.sign ++ "'"
  | .comma => "','"
  | .finish => "end of input"

end Token

end DocumentQuery
