import DocumentQuery.EscapedNames
import DocumentQuery.Selector

namespace DocumentQuery

/-- The namespace in front of a qualified name, with its bar. -/
def namespaceText : Option NamespaceTest → List Char
  | none => []
  | some .any => ['*', '|']
  | some .without => ['|']
  | some (.bound nsPrefix) => identifierText nsPrefix.toList ++ ['|']

def typeNameText : Option String → List Char
  | some name => identifierText name.toList
  | none => ['*']

def typeTestText : Option TypeTest → List Char
  | some test => namespaceText test.ns ++ typeNameText test.name
  | none => []

def idText : Option String → List Char
  | some id => '#' :: nameText id.toList
  | none => []

def classesText (classes : List String) : List Char :=
  classes.flatMap fun name => '.' :: identifierText name.toList

/-- The operator is written only in front of a value. -/
def comparisonText (test : AttributeTest) : List Char :=
  match test.value with
  | some value => test.operator.sign.toList ++ quotedText value.toList
  | none => []

def attributeText (test : AttributeTest) : List Char :=
  '[' :: namespaceText test.ns ++ identifierText test.name.toList ++ comparisonText test ++ [']']

def attributesText (tests : List AttributeTest) : List Char :=
  tests.flatMap attributeText

def pseudoElementsText (tests : List PseudoElement) : List Char :=
  tests.flatMap fun test => ':' :: ':' :: test.spelling.toList

/-- The combinator in front of a group; descendants go without saying. -/
def leadingText : Combinator → List Char
  | .descendant => []
  | k => k.sign.toList ++ [' ']

/-- The combinator between two compounds. -/
def betweenText : Combinator → List Char
  | .descendant => [' ']
  | k => ' ' :: k.sign.toList ++ [' ']

mutual

/-- The written form of a selector: its groups between commas. -/
def Selector.chars : Selector → List Char
  | ⟨[]⟩ => []
  | ⟨g :: gs⟩ => g.chars ++ laterGroupsText gs

def laterGroupsText : List Group → List Char
  | [] => []
  | g :: gs => ',' :: ' ' :: g.chars ++ laterGroupsText gs

def Group.chars : Group → List Char
  | ⟨[]⟩ => []
  | ⟨⟨k, c⟩ :: ss⟩ => leadingText k ++ c.chars ++ laterStepsText ss

def laterStepsText : List Step → List Char
  | [] => []
  | ⟨k, c⟩ :: ss => betweenText k ++ c.chars ++ laterStepsText ss

def Compound.chars : Compound → List Char
  | ⟨typeTest, id, classes, attributes, pseudoClasses, pseudoElements⟩ =>
    typeTestText typeTest ++ idText id ++ classesText classes ++ attributesText attributes
      ++ pseudoClassesText pseudoClasses ++ pseudoElementsText pseudoElements

def pseudoClassesText : List PseudoClass → List Char
  | [] => []
  | p :: ps => p.chars ++ pseudoClassesText ps

def PseudoClass.chars : PseudoClass → List Char
  | ⟨name, argument⟩ => ':' :: name.spelling.toList ++ argument.chars

/-- The parentheses of a pseudo-class and what stands in them. -/
def Argument.chars : Argument → List Char
  | .none => []
  | .text value => '(' :: value.toList ++ [')']
  | .nth rule => '(' :: rule.chars ++ [')']
  | .index value => '(' :: integerText value.toInt ++ [')']
  | .selector nested => '(' :: nested.chars ++ [')']

end

/-- The text of a selector, in the form that reads back as the same selector. -/
def Selector.text (selector : Selector) : String :=
  String.ofList selector.chars

end DocumentQuery
