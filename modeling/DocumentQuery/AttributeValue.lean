import DocumentQuery.NamespaceLookup
import DocumentQuery.Selector

namespace DocumentQuery

/-- Whether an attribute value, `whole`, passes a comparison with `part`. A value of fewer
UTF-8 bytes than `part` never does. -/
def AttributeOperator.holds (op : AttributeOperator) (part whole : String) : Bool :=
  if whole.utf8ByteSize < part.utf8ByteSize then false
  else match op with
    | .exactly => part == whole
    | .containsWithSpace => (words whole.toList).contains part.toList
    | .containsWithHyphen => (hyphenParts whole.toList).contains part.toList
    | .containsSubstring => occursIn part.toList whole.toList
    | .beginsWith => part.toList.isPrefixOf whole.toList
    | .endsWith => part.toList.isSuffixOf whole.toList

/-- Whether a value is there and passes the comparison, if one is asked for. -/
def AttributeOperator.accepts (op : AttributeOperator) (part : Option String) :
    Option String → Bool
  | none => false
  | some whole =>
    match part with
    | none => true
    | some part => op.holds part whole

namespace Document

/-- Tests the attribute with this qualified name. -/
def attributeMatches (doc : Document) (id : NodeId) (name : String) (value : Option String)
    (op : AttributeOperator) : Bool :=
  op.accepts value (doc.attribute? id name)

/-- Tests the attribute with this local name in the namespace `uri`. -/
def attributeInMatches (doc : Document) (id : NodeId) (name uri : String)
    (value : Option String) (op : AttributeOperator) : Bool :=
  op.accepts value (doc.attributeIn? id uri name)

/-- Tests all attributes whose qualified names have this local part. -/
def localAttributeMatches (doc : Document) (id : NodeId) (name : String)
    (value : Option String) (op : AttributeOperator) : Bool :=
  ((doc.element? id).map fun e =>
    e.attributes.entries.any fun (qualified, whole) =>
      localPart qualified == name.toList && op.accepts value (some whole)).getD false

end Document

end DocumentQuery
