import DocumentQuery.AttributeValue
import DocumentQuery.LowerCase
import DocumentQuery.SiblingPosition
import DocumentQuery.UrlScheme

namespace DocumentQuery

namespace Document

/-- Whether the nearest `lang` or `xml:lang` attribute of a node and its ancestors fits a
language. A language with a hyphen has to be the whole value, one without may be any part. -/
def hasLanguage (doc : Document) (id : NodeId) (language : String) : Bool :=
  let declared := (doc.lineage id).findSome? fun n =>
    (doc.attribute? n "lang").or (doc.attribute? n "xml:lang")
  match declared with
  | some value =>
    let op : AttributeOperator :=
      if language.toList.contains '-' then .exactly else .containsWithHyphen
    op.holds language value
  | none => false

def hasAttribute (doc : Document) (id : NodeId) (name : String) : Bool :=
  (doc.attribute? id name).isSome

/-- Whether a node links to a place in reach of files: its target has no scheme or `file`. -/
def hasLocalLink (doc : Document) (id : NodeId) : Bool :=
  match doc.attribute? id "href" with
  | some target => ((urlScheme target).map fun scheme => sameName scheme "file").getD true
  | none => false

/-- Whether a node holds nothing but comments, instructions and texts without characters. -/
def isEmptyNode (doc : Document) (id : NodeId) : Bool :=
  (doc.children id).all fun child =>
    match (doc.node? child).map Node.kind with
    | some (.text data) => data.isEmpty
    | some (.comment _) | some (.instruction _ _) => true
    | _ => false

/-- Whether a node is a heading, `h1` to `h9`. -/
def isHeading (doc : Document) (id : NodeId) : Bool :=
  match (doc.element? id).map fun e => e.tag.toList with
  | some [h, level] => (h == 'h' || h == 'H') && '1' ≤ level && level ≤ '9'
  | _ => false

def hasTypeAttribute (doc : Document) (id : NodeId) (kind : String) : Bool :=
  doc.attribute? id "type" == some kind

/-- Whether the text content of a node holds a text, in any case. -/
def containsText (doc : Document) (id : NodeId) (text : String) : Bool :=
  occursIn (lowerCase (unquoted text.toList)) (lowerCase (doc.textContent id))

/-- Whether the text content of a node is a text. -/
def hasText (doc : Document) (id : NodeId) (text : String) : Bool :=
  doc.textContent id == unquoted text.toList

end Document

/-- The text of an argument; any other argument counts as an empty one. -/
def Argument.textValue : Argument → String
  | .text value => value
  | _ => ""

/-- The position rule of an argument; any other argument counts as the rule of two zeros. -/
def Argument.nthRule : Argument → NthRule
  | .nth rule => rule
  | _ => ⟨0, 0⟩

/-- The integer of an argument; any other argument counts as zero. -/
def Argument.indexValue : Argument → Int64
  | .index value => value
  | _ => 0

/-- The pseudo-classes that a node satisfies by its place, attributes and text alone. -/
def PseudoClassName.fits (pseudo : PseudoClassName) (argument : Argument) (doc : Document)
    (scope id : NodeId) : Bool :=
  match pseudo with
  | .lang => doc.hasLanguage id argument.textValue
  | .anyLink => ["href", "src", "link"].any (doc.hasAttribute id)
  | .link => doc.hasAttribute id "href"
  | .localLink => doc.hasLocalLink id
  | .root => doc.documentElement? == some id
  | .scope | .xRoot | .xReset => id == scope
  | .even => doc.hasNthPosition id ⟨2, 0⟩ false false
  | .odd => doc.hasNthPosition id ⟨2, 1⟩ false false
  | .nthChild | .nth | .eq => doc.hasNthPosition id argument.nthRule false false
  | .nthLastChild => doc.hasNthPosition id argument.nthRule true false
  | .nthOfType => doc.hasNthPosition id argument.nthRule false true
  | .nthLastOfType => doc.hasNthPosition id argument.nthRule true true
  | .firstOfType => doc.isOutermostOfType id false
  | .lastOfType => doc.isOutermostOfType id true
  | .onlyOfType => doc.isOutermostOfType id false && doc.isOutermostOfType id true
  | .lt => doc.hasNthPosition id ⟨-1, argument.indexValue⟩ false false
  | .gt =>
    (doc.parent? id).isSome
      && argument.indexValue.toInt < doc.siblingPosition id false false
  | .first | .firstChild => doc.hasNthPosition id ⟨0, 1⟩ false false
  | .last | .lastChild => doc.hasNthPosition id ⟨0, 1⟩ true false
  | .onlyChild => doc.hasNthPosition id ⟨0, 1⟩ false false && doc.hasNthPosition id ⟨0, 1⟩ true false
  | .empty => doc.isEmptyNode id
  | .parent => !doc.isEmptyNode id
  | .enabled | .disabled | .checked => doc.hasAttribute id pseudo.spelling
  | .text | .radio | .checkbox | .file | .password | .submit | .image | .reset | .button =>
    doc.hasTypeAttribute id pseudo.spelling
  | .header => doc.isHeading id
  | .contains => doc.containsText id argument.textValue
  | .containsExactly => doc.hasText id argument.textValue
  | _ => false

end DocumentQuery
