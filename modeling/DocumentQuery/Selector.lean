import DocumentQuery.NthRule
import DocumentQuery.PseudoNames

namespace DocumentQuery

/-- How a node is related to the node of the step before it. -/
inductive Combinator where
  | descendant | child | adjacentSibling | generalSibling
deriving DecidableEq

/-- The sign of a combinator; a space for descendants. -/
def Combinator.sign : Combinator → String
  | .descendant => " "
  | .child => ">"
  | .adjacentSibling => "+"
  | .generalSibling => "~"

/-- How an attribute test compares the value of the attribute with its own. -/
inductive AttributeOperator where
  | exactly | containsWithSpace | containsWithHyphen | containsSubstring | beginsWith | endsWith
deriving DecidableEq

def AttributeOperator.sign : AttributeOperator → String
  | .exactly => "="
  | .containsWithSpace => "~="
  | .containsWithHyphen => "|="
  | .containsSubstring => "*="
  | .beginsWith => "^="
  | .endsWith => "$="

/-- What stands before the bar of a qualified name: a star, nothing, or a prefix. -/
inductive NamespaceTest where
  | any
  | without
  | bound (nsPrefix : String)
deriving DecidableEq

/-- The test `ns|name` on a node; without a name it is the star. -/
structure TypeTest where
  ns : Option NamespaceTest
  name : Option String
deriving DecidableEq

/-- The test `[ns|name op "value"]`; without a value the attribute only has to be there. -/
structure AttributeTest where
  ns : Option NamespaceTest
  name : String
  operator : AttributeOperator
  value : Option String
deriving DecidableEq

mutual

/-- A list of alternatives, of which a node has to match one. -/
structure Selector where
  groups : List Group

/-- A chain of steps from a scope node to the matched node. -/
structure Group where
  steps : List Step

/-- One step of a chain: how to move, and what has to hold there. -/
structure Step where
  combinator : Combinator
  compound : Compound

/-- Tests that one node has to satisfy together. -/
structure Compound where
  typeTest : Option TypeTest := none
  id : Option String := none
  classes : List String := []
  attributes : List AttributeTest := []
  pseudoClasses : List PseudoClass := []
  pseudoElements : List PseudoElement := []

structure PseudoClass where
  name : PseudoClassName
  argument : Argument

/-- What was written in the parentheses of a pseudo-class. -/
inductive Argument where
  | none
  | text (value : String)
  | nth (rule : NthRule)
  | index (value : Int64)
  | selector (nested : Selector)

end

/-- Whether a compound holds no test at all. -/
def Compound.isEmpty (c : Compound) : Bool :=
  c.typeTest.isNone && c.id.isNone && c.classes.isEmpty && c.attributes.isEmpty
    && c.pseudoClasses.isEmpty && c.pseudoElements.isEmpty

/-- A selector of one compound. -/
def Selector.ofCompound (c : Compound) : Selector :=
  ⟨[⟨[⟨.descendant, c⟩]⟩]⟩

end DocumentQuery
