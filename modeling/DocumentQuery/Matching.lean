import DocumentQuery.DistinctMembers
import DocumentQuery.NodeTests
import DocumentQuery.QueryState

namespace DocumentQuery

/-- What a query is asked about: the tree, the scope node, the prefixes bound for the query,
and the source of random answers. -/
structure QueryContext where
  document : Document
  scope : NodeId
  prefixes : Bindings
  random : Nat → Bool

namespace QueryContext

/-- The namespace of a prefix: the one bound for the query, else the one that the document
gives it at a node. A prefix without a namespace is warned of. -/
def resolve (ctx : QueryContext) (nsPrefix : String) (id : NodeId) : Query (Option String) :=
  match (ctx.prefixes.get? nsPrefix).or (ctx.document.namespaceFor? id nsPrefix) with
  | some uri => return some uri
  | none => do
    Query.warn ("namespace prefix '" ++ nsPrefix ++ "' is not declared; '" ++ nsPrefix
      ++ "|' matches nothing")
    return none

/-- Whether an element has the namespace that a test asks for. -/
def namespaceHolds (ctx : QueryContext) (ns : Option NamespaceTest) (id : NodeId) (e : Element) :
    Query Bool :=
  match ns with
  | none | some .any => return true
  | some .without => return e.nsUri.isNone
  | some (.bound nsPrefix) => do
    match ← ctx.resolve nsPrefix id with
    | some uri => return e.nsUri == some uri
    | none => return false

/-- Whether an element passes a type test. Names are equal up to the case of ASCII letters. -/
def typeHolds (ctx : QueryContext) (typeTest : Option TypeTest) (id : NodeId) (e : Element) :
    Query Bool :=
  match typeTest with
  | none => return true
  | some test =>
    if (test.name.map (sameName e.tag)).getD true then ctx.namespaceHolds test.ns id e
    else return false

/-- Whether a node passes an attribute test. Without a namespace, and with an empty one, the
name is compared with whole qualified names. -/
def attributeHolds (ctx : QueryContext) (id : NodeId) (test : AttributeTest) : Query Bool :=
  match test.ns with
  | none | some .without =>
    return ctx.document.attributeMatches id test.name test.value test.operator
  | some .any => return ctx.document.localAttributeMatches id test.name test.value test.operator
  | some (.bound nsPrefix) => do
    match ← ctx.resolve nsPrefix id with
    | some uri =>
      return ctx.document.attributeInMatches id test.name uri test.value test.operator
    | none => return false

/-- Whether an element has the id and all the classes that a compound asks for. -/
def namesHold (id : Option String) (classes : List String) (e : Element) : Bool :=
  (id.isNone || e.id? == id) && classes.all fun name => e.classes.contains name

/-- Whether a node passes the tests of a compound that name no pseudo-class or pseudo-element. -/
def plainTestsHold (ctx : QueryContext) (typeTest : Option TypeTest) (id : Option String)
    (classes : List String) (attributes : List AttributeTest) (node : NodeId) : Query Bool :=
  match ctx.document.element? node with
  | some e =>
    Query.both (ctx.typeHolds typeTest node e)
      (if namesHold id classes e then Query.all (ctx.attributeHolds node) attributes
        else return false)
  | none => return false

/-- Without a layout, a pseudo-element is there exactly when its element has text. -/
def pseudoElementsHold (ctx : QueryContext) (tests : List PseudoElement) (node : NodeId) : Bool :=
  tests.all fun _ => !(ctx.document.textContent node).isEmpty

/-- Whether a node satisfies a pseudo-class, where `nested` asks whether the nested selector
finds anything from the node. -/
def pseudoClassHolds (ctx : QueryContext) (pseudo : PseudoClassName) (argument : Argument)
    (nested : Query Bool) (node : NodeId) : Query Bool :=
  if pseudo.isUserAgentState then do
    Query.warn ("':" ++ pseudo.spelling ++ "' has no user-agent context and never matches")
    return false
  else match pseudo with
    | .indeterminate => do
      Query.warn "':indeterminate' answers with a random boolean"
      Query.draw ctx.random
    | .has | .matching | .is | .any => nested
    | .not => return !(← nested)
    | _ => return pseudo.fits argument ctx.document ctx.scope node

end QueryContext

/-- The elements that stand in a relation to a node, in tree order. -/
def Combinator.targets (k : Combinator) (doc : Document) (id : NodeId) : List NodeId :=
  match k with
  | .descendant => (doc.descendants id).filter doc.isElement
  | .child => doc.elementChildren id
  | .adjacentSibling => (doc.nextElement? id).toList
  | .generalSibling => (doc.followingSiblings id).filter doc.isElement

mutual

/-- Whether a selector finds anything from a node. -/
def Selector.findsFrom (ctx : QueryContext) : Selector → NodeId → Query Bool
  | ⟨groups⟩, start => anyGroupFinds ctx groups start

def anyGroupFinds (ctx : QueryContext) : List Group → NodeId → Query Bool
  | [], _ => return false
  | g :: gs, start => do
    let found ← g.foundFrom ctx start
    if found.isEmpty then anyGroupFinds ctx gs start else return true

/-- The nodes that a group finds from a node. -/
def Group.foundFrom (ctx : QueryContext) : Group → NodeId → Query (List NodeId)
  | ⟨steps⟩, start => stepsFrom ctx steps [start]

/-- The nodes that steps lead to from some nodes. Each step tests every node it reaches once,
in the order in which it is first reached, and a step without a match ends the search. -/
def stepsFrom (ctx : QueryContext) : List Step → List NodeId → Query (List NodeId)
  | [], current => return current
  | ⟨k, c⟩ :: rest, current => do
    let reached := distinct (current.flatMap (k.targets ctx.document))
    let kept ← Query.keep (fun node => c.holds ctx node) reached
    if kept.isEmpty then return [] else stepsFrom ctx rest kept

/-- Whether a node passes all tests of a compound, tested in order up to the first failure. -/
def Compound.holds (ctx : QueryContext) : Compound → NodeId → Query Bool
  | ⟨typeTest, id, classes, attributes, pseudoClasses, pseudoElements⟩, node =>
    Query.both (ctx.plainTestsHold typeTest id classes attributes node)
      (Query.both (pseudoClassesHold ctx pseudoClasses node)
        (return ctx.pseudoElementsHold pseudoElements node))

def pseudoClassesHold (ctx : QueryContext) : List PseudoClass → NodeId → Query Bool
  | [], _ => return true
  | p :: ps, node => Query.both (p.holds ctx node) (pseudoClassesHold ctx ps node)

def PseudoClass.holds (ctx : QueryContext) : PseudoClass → NodeId → Query Bool
  | ⟨name, argument⟩, node =>
    ctx.pseudoClassHolds name argument (argument.findsFrom ctx node) node

/-- Whether the nested selector of an argument finds anything from a node. -/
def Argument.findsFrom (ctx : QueryContext) : Argument → NodeId → Query Bool
  | .selector nested, node => nested.findsFrom ctx node
  | .none, _ | .text _, _ | .nth _, _ | .index _, _ => return false

end

end DocumentQuery
