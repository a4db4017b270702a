import DocumentQuery.Document

namespace DocumentQuery

namespace Document

/-- The nodes reached by following a link, at most `limit` of them. -/
def chain (link : NodeId → Option NodeId) : Nat → Option NodeId → List NodeId
  | 0, _ => []
  | _, none => []
  | limit + 1, some id => id :: chain link limit (link id)

/-- The ancestors of a node, its parent first. No chain of distinct nodes is longer than
the tree has nodes. -/
def ancestors (doc : Document) (id : NodeId) : List NodeId :=
  chain doc.parent? doc.size (doc.parent? id)

/-- The siblings before a node, the nearest first. -/
def precedingSiblings (doc : Document) (id : NodeId) : List NodeId :=
  chain doc.previous? doc.size (doc.previous? id)

/-- The siblings after a node, the nearest first. -/
def followingSiblings (doc : Document) (id : NodeId) : List NodeId :=
  chain doc.next? doc.size (doc.next? id)

/-- A node and what lies below it in tree order, down to `depth` levels, in front of `rest`. -/
def visit (doc : Document) : Nat → NodeId → List NodeId → List NodeId
  | 0, _, rest => rest
  | depth + 1, id, rest => id :: (doc.children id).foldr (visit doc depth) rest

/-- The nodes below a node in tree order. -/
def descendants (doc : Document) (id : NodeId) : List NodeId :=
  (doc.children id).foldr (doc.visit doc.size) []

def isDescendant (doc : Document) (id ancestor : NodeId) : Bool :=
  (doc.ancestors id).contains ancestor

/-- A node and its ancestors, the node first. -/
def lineage (doc : Document) (id : NodeId) : List NodeId :=
  id :: doc.ancestors id

def previousElement? (doc : Document) (id : NodeId) : Option NodeId :=
  (doc.precedingSiblings id).find? doc.isElement

def nextElement? (doc : Document) (id : NodeId) : Option NodeId :=
  (doc.followingSiblings id).find? doc.isElement

/-- The data of a text node, or of all text nodes below another node in tree order. -/
def textContent (doc : Document) (id : NodeId) : List Char :=
  match doc.text? id with
  | some data => data.toList
  | none => (doc.descendants id).flatMap fun below => ((doc.text? below).getD "").toList

end Document

end DocumentQuery
