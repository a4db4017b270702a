import DocumentQuery.DocumentOrder
import DocumentQuery.SelectorReader
import DocumentQuery.SubjectTest

namespace DocumentQuery

/-- How deep selectors may be nested unless an engine says otherwise. -/
def defaultNesting : Nat := 32

/-- The settings of queries: how deep selectors may be nested, prefixes bound ahead of the
document's own, and the answers of `:indeterminate` in turn. -/
structure Engine where
  nesting : Nat := defaultNesting
  prefixes : Bindings := .empty
  random : Nat → Bool := fun _ => false

namespace Engine

def context (engine : Engine) (doc : Document) (scope : NodeId) : QueryContext :=
  ⟨doc, scope, engine.prefixes, engine.random⟩

def parse (engine : Engine) (text : String) : Except SelectorError Selector :=
  DocumentQuery.parse engine.nesting text

/-- The nodes that groups find from a scope node, group after group. -/
def foundByGroups (ctx : QueryContext) (scope : NodeId) : List Group → Query (List NodeId)
  | [] => return []
  | g :: gs => do
    let found ← g.foundFrom ctx scope
    return found ++ (← foundByGroups ctx scope gs)

/-- The nodes that a selector finds from scope nodes, one after another. -/
def foundFromScopes (engine : Engine) (doc : Document) (selector : Selector) :
    List NodeId → Query (List NodeId)
  | [] => return []
  | scope :: scopes => do
    let found ← foundByGroups (engine.context doc scope) scope selector.groups
    return found ++ (← engine.foundFromScopes doc selector scopes)

/-- All nodes that a selector finds from some scope node, each once, in document order. -/
def find (engine : Engine) (doc : Document) (selector : Selector) (scopes : List NodeId) :
    Query (Except SelectorError (List NodeId)) :=
  match scopes.find? fun scope => !doc.contains scope with
  | some unknown => return .error (.unknownNode unknown)
  | none => do
    let found ← engine.foundFromScopes doc selector scopes
    return .ok (doc.inOrder (distinct found))

/-- Reads a selector and finds its nodes. -/
def select (engine : Engine) (doc : Document) (text : String) (scopes : List NodeId) :
    Query (Except SelectorError (List NodeId)) :=
  match engine.parse text with
  | .ok selector => engine.find doc selector scopes
  | .error e => return .error e

/-- Whether a selector matches a node, seen from a scope node. -/
def matchesNode (engine : Engine) (doc : Document) (selector : Selector) (node scope : NodeId) :
    Query (Except SelectorError Bool) :=
  match [node, scope].find? fun id => !doc.contains id with
  | some unknown => return .error (.unknownNode unknown)
  | none => return .ok (← selector.matchesNode (engine.context doc scope) node)

end Engine

end DocumentQuery
