import DocumentQuery.DocumentAxes
import DocumentQuery.NthRule

namespace DocumentQuery

/-- Whether a rule admits a position: some natural number of steps from the offset reaches it.
A positive step with a larger offset admits nothing, and neither does the rule of two zeros. -/
def NthRule.admits (rule : NthRule) (position : Nat) : Bool :=
  let step := rule.step.toInt
  let offset := rule.offset.toInt
  if (step = 0 ∧ offset = 0) ∨ (0 < step ∧ step < offset) then false
  else if step = 0 then position = offset
  else
    let distance := position - (if offset < 0 then step + offset else offset)
    distance.tmod step = 0 ∧ 0 ≤ distance.tdiv step

namespace Document

/-- Whether a sibling counts for the position of a node: it is an element and, when only the
same type counts, has the same tag up to the case of ASCII letters. -/
def counts (doc : Document) (id : NodeId) (sameType : Bool) (sibling : NodeId) : Bool :=
  match doc.element? sibling with
  | some other =>
    !sameType || ((doc.element? id).map fun e => sameName e.tag other.tag).getD false
  | none => false

/-- The siblings on the side from which positions are counted. -/
def siblingsTo (doc : Document) (id : NodeId) (fromEnd : Bool) : List NodeId :=
  if fromEnd then doc.followingSiblings id else doc.precedingSiblings id

/-- The position of a node among the siblings that count, from one on. -/
def siblingPosition (doc : Document) (id : NodeId) (fromEnd sameType : Bool) : Nat :=
  1 + (doc.siblingsTo id fromEnd).countP (doc.counts id sameType)

/-- Whether a rule admits the position of a node. A node without a parent has none. -/
def hasNthPosition (doc : Document) (id : NodeId) (rule : NthRule) (fromEnd sameType : Bool) :
    Bool :=
  (doc.parent? id).isSome && rule.admits (doc.siblingPosition id fromEnd sameType)

/-- Whether a node with a parent has no counting sibling on one side. -/
def isOutermostOfType (doc : Document) (id : NodeId) (fromEnd : Bool) : Bool :=
  (doc.parent? id).isSome && !(doc.siblingsTo id fromEnd).any (doc.counts id true)

end Document

end DocumentQuery
