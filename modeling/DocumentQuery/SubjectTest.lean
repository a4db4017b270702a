import Std.Data.TreeMap
import DocumentQuery.Matching

namespace DocumentQuery

/-- The elements that may stand to the left of a node in a chain, the nearest first. -/
def Combinator.sources (k : Combinator) (doc : Document) (id : NodeId) : List NodeId :=
  match k with
  | .descendant => (doc.ancestors id).filter doc.isElement
  | .child => (doc.parent? id).toList.filter doc.isElement
  | .adjacentSibling => (doc.previousElement? id).toList
  | .generalSibling => (doc.precedingSiblings id).filter doc.isElement

/-- Whether a node stands in the relation of the first step to the scope node. Descendants
need not lie below the scope. -/
def Combinator.relatesToScope (k : Combinator) (doc : Document) (scope id : NodeId) : Bool :=
  match k with
  | .descendant => true
  | .child => doc.parent? id == some scope
  | .adjacentSibling => doc.previousElement? id == some scope
  | .generalSibling => (doc.precedingSiblings id).contains scope

/-- Answers already found for a number of steps and a node. -/
abbrev Answers := Std.TreeMap (Nat × Nat) Bool lexOrd.compare

/-- A part of a query that keeps answers. -/
abbrev CachedQuery := StateT Answers Query

namespace CachedQuery

/-- Whether some member passes a test; nothing after the first that passes is tested. -/
def any (test : α → CachedQuery Bool) : List α → CachedQuery Bool
  | [] => return false
  | x :: xs => do if ← test x then return true else any test xs

/-- The kept answer to a question, or else the computed one, which is then kept. -/
def cached (key : Nat × Nat) (compute : CachedQuery Bool) : CachedQuery Bool := do
  match (← get)[key]? with
  | some known => return known
  | none =>
    let answer ← compute
    modify fun answers => answers.insert key answer
    return answer

end CachedQuery

/-- Whether a node can be the last of a chain of steps, which are given last first. Every way
to the left is tried until one succeeds. -/
def chainEndsAt (ctx : QueryContext) : List Step → NodeId → CachedQuery Bool
  | [], _ => return true
  | ⟨k, c⟩ :: left, node =>
    CachedQuery.cached (left.length + 1, node) do
      if ← c.holds ctx node then
        match left with
        | [] => return k.relatesToScope ctx.document ctx.scope node
        | _ :: _ => CachedQuery.any (chainEndsAt ctx left) (k.sources ctx.document node)
      else return false

/-- Whether a group matches a node. -/
def Group.endsAt (ctx : QueryContext) (g : Group) (node : NodeId) : Query Bool :=
  (chainEndsAt ctx g.steps.reverse node).run' ∅

/-- Whether one of the groups matches a node; nothing after the first that does is tested. -/
def anyGroupEndsAt (ctx : QueryContext) (node : NodeId) : List Group → Query Bool
  | [] => return false
  | g :: gs => do if ← g.endsAt ctx node then return true else anyGroupEndsAt ctx node gs

/-- Whether a node is an element that one of the groups matches. -/
def Selector.matchesNode (ctx : QueryContext) (selector : Selector) (node : NodeId) :
    Query Bool :=
  if ctx.document.isElement node then anyGroupEndsAt ctx node selector.groups
  else return false

end DocumentQuery
