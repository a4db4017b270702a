import DocumentQuery.Matching
import DocumentQuery.Proofs.DocumentRelations

namespace DocumentQuery

/-- Whether `y` is an element that stands in a relation to `x`. -/
def Combinator.Relates (k : Combinator) (doc : Document) (x y : NodeId) : Prop :=
  doc.isElement y = true ∧
    match k with
    | .descendant => doc.Below y x
    | .child => doc.parent? y = some x
    | .adjacentSibling =>
      ∃ between, doc.Follows x between y ∧ ∀ z ∈ between, doc.isElement z = false
    | .generalSibling => ∃ between, doc.Follows x between y

theorem Combinator.mem_targets {k : Combinator} {doc : Document} (h : doc.Linked) {x y : NodeId} :
    y ∈ k.targets doc x ↔ k.Relates doc x y := by
  cases k with
  | descendant => simp [targets, Relates, h.mem_descendants, and_comm]
  | child => simp [targets, Relates, Document.elementChildren, h.mem_children, and_comm]
  | adjacentSibling => simp [targets, Relates, h.nextElement?_eq_some]
  | generalSibling => simp [targets, Relates, h.mem_followingSiblings, and_comm]

/-- The namespace of a prefix, seen from a node. -/
def QueryContext.namespaceOf (ctx : QueryContext) (nsPrefix : String) (x : NodeId) :
    Option String :=
  (ctx.prefixes.get? nsPrefix).or (ctx.document.namespaceFor? x nsPrefix)

def NamespaceTest.MetBy (ctx : QueryContext) (x : NodeId) (e : Element) : NamespaceTest → Prop
  | .any => True
  | .without => e.nsUri = none
  | .bound nsPrefix => ∃ uri, ctx.namespaceOf nsPrefix x = some uri ∧ e.nsUri = some uri

def TypeTest.MetBy (ctx : QueryContext) (x : NodeId) (e : Element) (test : TypeTest) : Prop :=
  (∀ name ∈ test.name, sameName e.tag name = true) ∧ ∀ ns ∈ test.ns, ns.MetBy ctx x e

def AttributeTest.MetBy (ctx : QueryContext) (x : NodeId) (test : AttributeTest) : Prop :=
  match test.ns with
  | none | some .without =>
    ctx.document.attributeMatches x test.name test.value test.operator = true
  | some .any => ctx.document.localAttributeMatches x test.name test.value test.operator = true
  | some (.bound nsPrefix) => ∃ uri, ctx.namespaceOf nsPrefix x = some uri ∧
    ctx.document.attributeInMatches x test.name uri test.value test.operator = true

/-- Whether a node satisfies a pseudo-class, where `found` says that the nested selector finds
something from the node. -/
def PseudoClassName.MetBy (ctx : QueryContext) (x : NodeId) (argument : Argument)
    (found : Prop) (pseudo : PseudoClassName) : Prop :=
  match pseudo with
  | .has | .matching | .is | .any => found
  | .not => ¬found
  | .indeterminate => ctx.random 0 = true
  | _ => pseudo.isUserAgentState = false ∧ pseudo.fits argument ctx.document ctx.scope x = true

mutual

/-- Whether a selector finds `y` from `x`. -/
def Selector.Leads (ctx : QueryContext) : Selector → NodeId → NodeId → Prop
  | ⟨groups⟩, x, y => someGroupLeads ctx groups x y

def someGroupLeads (ctx : QueryContext) : List Group → NodeId → NodeId → Prop
  | [], _, _ => False
  | g :: gs, x, y => g.Leads ctx x y ∨ someGroupLeads ctx gs x y

def Group.Leads (ctx : QueryContext) : Group → NodeId → NodeId → Prop
  | ⟨steps⟩, x, y => stepsLead ctx steps x y

/-- Whether steps lead from `x` to `y`: for each step there is a node that stands in the relation
of the step to the node before it and passes the tests of the step. -/
def stepsLead (ctx : QueryContext) : List Step → NodeId → NodeId → Prop
  | [], x, y => x = y
  | ⟨k, c⟩ :: rest, x, y =>
    ∃ z, k.Relates ctx.document x z ∧ c.MetBy ctx z ∧ stepsLead ctx rest z y

/-- Whether a node is an element that passes all tests of a compound. -/
def Compound.MetBy (ctx : QueryContext) : Compound → NodeId → Prop
  | ⟨typeTest, id, classes, attributes, pseudoClasses, pseudoElements⟩, x =>
    (∃ e, ctx.document.element? x = some e ∧ (∀ test ∈ typeTest, test.MetBy ctx x e) ∧
      (∀ name ∈ id, e.id? = some name) ∧ ∀ name ∈ classes, name ∈ e.classes) ∧
    (∀ test ∈ attributes, test.MetBy ctx x) ∧ allMetBy ctx pseudoClasses x ∧
    (pseudoElements ≠ [] → ctx.document.textContent x ≠ [])

def allMetBy (ctx : QueryContext) : List PseudoClass → NodeId → Prop
  | [], _ => True
  | p :: ps, x => p.MetBy ctx x ∧ allMetBy ctx ps x

def PseudoClass.MetBy (ctx : QueryContext) : PseudoClass → NodeId → Prop
  | ⟨name, argument⟩, x => name.MetBy ctx x argument (∃ y, argument.Leads ctx x y)

def Argument.Leads (ctx : QueryContext) : Argument → NodeId → NodeId → Prop
  | .selector nested, x, y => nested.Leads ctx x y
  | .none, _, _ | .text _, _, _ | .nth _, _, _ | .index _, _, _ => False

end

variable {ctx : QueryContext} {x y : NodeId}

theorem someGroupLeads_iff {groups : List Group} :
    someGroupLeads ctx groups x y ↔ ∃ g ∈ groups, g.Leads ctx x y := by
  induction groups with
  | nil => simp [someGroupLeads]
  | cons g gs ih => rw [someGroupLeads, ih, List.exists_mem_cons_iff]

theorem Selector.leads_iff {s : Selector} : s.Leads ctx x y ↔ ∃ g ∈ s.groups, g.Leads ctx x y := by
  cases s
  exact someGroupLeads_iff

theorem allMetBy_iff {tests : List PseudoClass} :
    allMetBy ctx tests x ↔ ∀ p ∈ tests, p.MetBy ctx x := by
  induction tests with
  | nil => simp [allMetBy]
  | cons p ps ih => rw [allMetBy, ih, List.forall_mem_cons]

end DocumentQuery
