import DocumentQuery.DocumentAxes

namespace DocumentQuery

/-- The namespace that the prefix `xml` always has. -/
def xmlNamespace : String := "http://www.w3.org/XML/1998/namespace"

/-- The namespace of namespace declarations. -/
def declarationNamespace : String := "http://www.w3.org/2000/xmlns/"

/-- The namespace that an element itself gives a prefix: its own, when it bears the prefix,
or that of its declaration `xmlns:` for it. -/
def Element.namespaceFor? (e : Element) (nsPrefix : String) : Option String :=
  if e.nsPrefix = some nsPrefix ∧ e.nsUri.isSome then e.nsUri
  else e.attribute? ("xmlns:" ++ nsPrefix)

/-- The part of a qualified name after its first colon, or all of it when it has none. -/
def localPart (name : String) : List Char :=
  match splitFirst ':' name.toList with
  | some (_, after) => after
  | none => name.toList

namespace Document

/-- The namespace of a prefix, seen from a node: the nearest one that the node or an
ancestor gives it. -/
def namespaceFor? (doc : Document) (id : NodeId) (nsPrefix : String) : Option String :=
  if nsPrefix = "xml" then some xmlNamespace
  else if nsPrefix = "xmlns" then some declarationNamespace
  else (doc.lineage id).findSome? fun n => (doc.element? n).bind fun e => e.namespaceFor? nsPrefix

/-- The value of the attribute with this local name whose prefix has the namespace `uri`. -/
def attributeIn? (doc : Document) (id : NodeId) (uri localName : String) : Option String := do
  let e ← doc.element? id
  e.attributes.entries.findSome? fun (name, value) => do
    let (before, after) ← splitFirst ':' name.toList
    if after = localName.toList ∧ doc.namespaceFor? id (String.ofList before) = some uri then
      some value
    else none

end Document

end DocumentQuery
