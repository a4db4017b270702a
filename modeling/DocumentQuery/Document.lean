import DocumentQuery.Bindings
import DocumentQuery.TextParts

namespace DocumentQuery

/-- The number of a node in the order of allocation; node 0 is the document itself. -/
abbrev NodeId := Nat

/-- A named node with attributes. Attribute names keep their prefix, as in `xml:lang`. -/
structure Element where
  tag : String
  nsPrefix : Option String
  nsUri : Option String
  attributes : Bindings

/-- The value of the attribute with this qualified name. -/
def Element.attribute? (e : Element) (name : String) : Option String :=
  e.attributes.get? name

def Element.id? (e : Element) : Option String :=
  e.attribute? "id"

/-- The words of the `class` attribute, in the order written and with repetitions. -/
def Element.classes (e : Element) : List String :=
  match e.attribute? "class" with
  | some value => (words value.toList).map String.ofList
  | none => []

/-- The classes of an element, each once, in ascending order by code points. -/
def Element.sortedClasses (e : Element) : List String :=
  e.classes.eraseDups.mergeSort

inductive NodeKind where
  | document
  | element (e : Element)
  | text (data : String)
  | comment (data : String)
  | instruction (target data : String)

/-- A node with its links. A node that was never appended has no parent and no siblings. -/
structure Node where
  kind : NodeKind
  parent : Option NodeId := none
  children : List NodeId := []
  next : Option NodeId := none
  previous : Option NodeId := none

/-- All nodes of a tree, each at the index that is its number. -/
structure Document where
  nodes : Array Node

namespace Document

/-- The tree of the document node alone. -/
def blank : Document :=
  ⟨#[{ kind := .document }]⟩

def size (doc : Document) : Nat :=
  doc.nodes.size

def contains (doc : Document) (id : NodeId) : Bool :=
  id < doc.size

def node? (doc : Document) (id : NodeId) : Option Node :=
  doc.nodes[id]?

def parent? (doc : Document) (id : NodeId) : Option NodeId :=
  (doc.node? id).bind Node.parent

def children (doc : Document) (id : NodeId) : List NodeId :=
  ((doc.node? id).map Node.children).getD []

def next? (doc : Document) (id : NodeId) : Option NodeId :=
  (doc.node? id).bind Node.next

def previous? (doc : Document) (id : NodeId) : Option NodeId :=
  (doc.node? id).bind Node.previous

def element? (doc : Document) (id : NodeId) : Option Element :=
  match doc.node? id with
  | some { kind := .element e, .. } => some e
  | _ => none

def isElement (doc : Document) (id : NodeId) : Bool :=
  (doc.element? id).isSome

/-- The data of a text node. -/
def text? (doc : Document) (id : NodeId) : Option String :=
  match doc.node? id with
  | some { kind := .text data, .. } => some data
  | _ => none

/-- The value of an attribute, when the node is an element that has it. -/
def attribute? (doc : Document) (id : NodeId) (name : String) : Option String :=
  (doc.element? id).bind fun e => e.attribute? name

def elementChildren (doc : Document) (id : NodeId) : List NodeId :=
  (doc.children id).filter doc.isElement

/-- The first element child of the document node. -/
def documentElement? (doc : Document) : Option NodeId :=
  (doc.elementChildren 0).head?

/-- Adds a node without links; its number is the size before. -/
def alloc (doc : Document) (kind : NodeKind) : Document :=
  ⟨doc.nodes.push { kind }⟩

def modify (doc : Document) (id : NodeId) (f : Node → Node) : Document :=
  ⟨doc.nodes.modify id f⟩

/-- Makes `child` the last child of `parent`. Links that `child` had from an earlier
place stay where nothing overwrites them. Both nodes must be in the tree. -/
def append (doc : Document) (parent child : NodeId) : Option Document :=
  if doc.contains parent && doc.contains child then
    let attached := (doc.modify parent fun n => { n with children := n.children ++ [child] }).modify
      child fun n => { n with parent := some parent }
    match (doc.children parent).getLast? with
    | some last => some ((attached.modify last fun n => { n with next := some child }).modify
        child fun n => { n with previous := some last })
    | none => some attached
  else none

end Document

end DocumentQuery
