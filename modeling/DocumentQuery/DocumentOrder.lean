import DocumentQuery.DocumentAxes

namespace DocumentQuery

/-- Numbers the nodes that have no place yet, in the order of the list, from `next` on. -/
def fillPlaces (next : Nat) : List (Option Nat) → List Nat
  | [] => []
  | some place :: rest => place :: fillPlaces next rest
  | none :: rest => next :: fillPlaces (next + 1) rest

namespace Document

/-- The document node and everything below it, in tree order. -/
def attached (doc : Document) : List NodeId :=
  0 :: doc.descendants 0

/-- For each node its place among the attached nodes, if it is one of them. -/
def attachedPlaces (doc : Document) : Array (Option Nat) :=
  doc.attached.zipIdx.foldl (fun places (id, place) => places.setIfInBounds id (some place))
    (Array.replicate doc.size none)

/-- For each node its place in document order: attached nodes in tree order, then the
others in the order of their numbers. -/
def places (doc : Document) : List Nat :=
  fillPlaces doc.attached.length doc.attachedPlaces.toList

/-- Nodes in document order. -/
def inOrder (doc : Document) (ids : List NodeId) : List NodeId :=
  let places := doc.places.toArray
  ids.mergeSort fun a b => places.getD a doc.size ≤ places.getD b doc.size

end Document

end DocumentQuery
