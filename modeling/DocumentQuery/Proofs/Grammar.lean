import DocumentQuery.NthRule
import DocumentQuery.Proofs.TokenStream

namespace DocumentQuery

/-- One of the tests that stand in a row after the type test of a compound. -/
inductive SimpleTest where
  | id (name : String)
  | named (name : String)
  | bracketed (test : AttributeTest)
  | pseudoClass (test : PseudoClass)
  | pseudoElement (test : PseudoElement)

/-- A compound with one more test. -/
def Compound.add (c : Compound) : SimpleTest → Compound
  | .id name => { c with id := some name }
  | .named name => { c with classes := c.classes ++ [name] }
  | .bracketed test => { c with attributes := c.attributes ++ [test] }
  | .pseudoClass test => { c with pseudoClasses := c.pseudoClasses ++ [test] }
  | .pseudoElement test => { c with pseudoElements := c.pseudoElements ++ [test] }

/-- Tests in the order written, where each kind is collected in a list of its own. -/
def Compound.collect (typeTest : Option TypeTest) (tests : List SimpleTest) : Compound :=
  tests.foldl Compound.add { typeTest }

/-- No two tests ask for different ids. -/
def AgreeOnId (tests : List SimpleTest) : Prop :=
  ∀ a b, .id a ∈ tests → .id b ∈ tests → a = b

def namespaceTokens : Option NamespaceTest → List Token
  | none => []
  | some .any => [.star, .bar]
  | some .without => [.bar]
  | some (.bound nsPrefix) => [.ident nsPrefix, .bar]

def nameToken : Option String → Token
  | some name => .ident name
  | none => .star

def typeTokens : Option TypeTest → List Token
  | some test => namespaceTokens test.ns ++ [nameToken test.name]
  | none => []

/-- The tokens of an operator and a value, which may be a name or a string. -/
inductive ComparisonDerives : List Token → AttributeOperator → Option String → Prop where
  | absent : ComparisonDerives [] .exactly none
  | ident (op : AttributeOperator) (value : String) :
      ComparisonDerives [.operator op, .ident value] op (some value)
  | quoted (op : AttributeOperator) (value : String) :
      ComparisonDerives [.operator op, .quoted value] op (some value)

inductive AttributeDerives : List Token → AttributeTest → Prop where
  | mk {ts : List Token} {test : AttributeTest} (h : ComparisonDerives ts test.operator test.value) :
      AttributeDerives (.openBracket :: (namespaceTokens test.ns ++ .ident test.name :: ts ++
        [.closeBracket])) test

def argumentTokens : Option String → List Token
  | some raw => [.arguments raw]
  | none => []

section

-- Which texts a nested selector may be read from.
variable (nested : String → Selector → Prop)

/-- What a pseudo-class of some kind makes of the text in its parentheses. -/
inductive ArgumentDerives : ArgumentKind → Option String → Argument → Prop where
  | none : ArgumentDerives .none none .none
  | ignored (raw : Option String) : ArgumentDerives .ignored raw .none
  | text {raw : String} (h : trimmed raw ≠ "") :
      ArgumentDerives .text (some raw) (.text (trimmed raw))
  | nth {raw : String} (h : trimmed raw ≠ "") :
      ArgumentDerives .nth (some raw) (.nth (NthRule.read raw))
  | index {raw : String} {value : Int64} (h : trimmed raw ≠ "")
      (hv : readWord (trimmed raw).toList = some value) :
      ArgumentDerives .index (some raw) (.index value)
  | selector {raw : String} {s : Selector} (h : trimmed raw ≠ "") (hs : nested (trimmed raw) s) :
      ArgumentDerives .selector (some raw) (.selector s)

inductive SimpleDerives : List Token → SimpleTest → Prop where
  | id (name : String) : SimpleDerives [.idTest name] (.id name)
  | named (name : String) : SimpleDerives [.classTest name] (.named name)
  | bracketed {ts : List Token} {test : AttributeTest} (h : AttributeDerives ts test) :
      SimpleDerives ts (.bracketed test)
  | pseudoClass {name : String} {pseudo : PseudoClassName} {raw : Option String}
      {argument : Argument} (hn : PseudoClassName.ofName? name = some pseudo)
      (ha : ArgumentDerives nested pseudo.argumentKind raw argument) :
      SimpleDerives (.pseudoClass name :: argumentTokens raw) (.pseudoClass ⟨pseudo, argument⟩)
  | pseudoElement {name : String} {test : PseudoElement}
      (hn : PseudoElement.ofName? name = some test) :
      SimpleDerives [.pseudoElement name] (.pseudoElement test)

inductive SimplesDerive : List Token → List SimpleTest → Prop where
  | nil : SimplesDerive [] []
  | cons {ts us : List Token} {test : SimpleTest} {tests : List SimpleTest}
      (h : SimpleDerives nested ts test) (hs : SimplesDerive us tests) :
      SimplesDerive (ts ++ us) (test :: tests)

/-- A compound is a type test and simple tests in any order, at least one test in all. -/
inductive CompoundDerives : List Token → Compound → Prop where
  | mk {typeTest : Option TypeTest} {ts : List Token} {tests : List SimpleTest}
      (hs : SimplesDerive nested ts tests) (hi : AgreeOnId tests)
      (hn : typeTest.isSome = true ∨ tests ≠ []) :
      CompoundDerives (typeTokens typeTest ++ ts) (Compound.collect typeTest tests)

/-- Compounds with combinators between them; the combinator of the first one stands in front. -/
inductive StepsDerive : Combinator → List Token → List Step → Prop where
  | last {k : Combinator} {ts : List Token} {c : Compound} (hc : CompoundDerives nested ts c) :
      StepsDerive k ts [⟨k, c⟩]
  | next {k next : Combinator} {ts us : List Token} {c : Compound} {steps : List Step}
      (hc : CompoundDerives nested ts c) (hs : StepsDerive next us steps) :
      StepsDerive k (ts ++ .combinator next :: us) (⟨k, c⟩ :: steps)

/-- Without a combinator in front, the first one is for descendants. -/
inductive GroupDerives : List Token → Group → Prop where
  | implicit {ts : List Token} {steps : List Step} (h : StepsDerive nested .descendant ts steps) :
      GroupDerives ts ⟨steps⟩
  | explicit {k : Combinator} {ts : List Token} {steps : List Step}
      (h : StepsDerive nested k ts steps) : GroupDerives (.combinator k :: ts) ⟨steps⟩

inductive GroupsDerive : List Token → List Group → Prop where
  | last {ts : List Token} {g : Group} (h : GroupDerives nested ts g) : GroupsDerive ts [g]
  | next {ts us : List Token} {g : Group} {gs : List Group} (h : GroupDerives nested ts g)
      (hs : GroupsDerive us gs) : GroupsDerive (ts ++ .comma :: us) (g :: gs)

/-- The tokens between the beginning and the end mark derive a selector. -/
def SelectorDerives (ts : List Token) (s : Selector) : Prop :=
  GroupsDerive nested ts s.groups

end

theorem SelectorDerives.of_pseudoClass {nested : String → Selector → Prop} {name : String}
    {pseudo : PseudoClassName} {raw : Option String} {argument : Argument}
    (hn : PseudoClassName.ofName? name = some pseudo)
    (ha : ArgumentDerives nested pseudo.argumentKind raw argument) :
    SelectorDerives nested (.pseudoClass name :: argumentTokens raw)
      ⟨[⟨[⟨.descendant, { pseudoClasses := [⟨pseudo, argument⟩] }⟩]⟩]⟩ := by
  have htests : SimplesDerive nested (.pseudoClass name :: argumentTokens raw)
      [.pseudoClass ⟨pseudo, argument⟩] := by
    simpa using SimplesDerive.cons (.pseudoClass hn ha) .nil
  have hagree : AgreeOnId [.pseudoClass ⟨pseudo, argument⟩] := by simp [AgreeOnId]
  exact .last (.implicit (.last (@CompoundDerives.mk _ none _ _ htests hagree (by simp))))

/-- A text means a selector in which selectors are nested on fewer levels than given. -/
def TextDerives : Nat → String → Selector → Prop
  | 0, _, _ => False
  | levels + 1, text, s =>
    ∃ ts, tokensFrom .outside none (skipBlanks text.toList) = some (ts ++ [.finish]) ∧
      SelectorDerives (TextDerives levels) ts s

end DocumentQuery
