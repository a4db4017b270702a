import DocumentQuery.Engine
import DocumentQuery.Proofs.QueryAnswers

namespace DocumentQuery

open Query

/-- Whether the links of the tree agree and all random answers are the same. -/
structure QueryContext.Settled (ctx : QueryContext) : Prop where
  linked : ctx.document.Linked
  steady : ∀ i, ctx.random i = ctx.random 0

variable {ctx : QueryContext}

mutual

theorem Selector.decides_findsFrom (h : ctx.Settled) : ∀ (s : Selector) (x : NodeId),
    (s.findsFrom ctx x).Decides (∃ y, s.Leads ctx x y)
  | ⟨groups⟩, x => decides_anyGroupFinds h groups x

theorem decides_anyGroupFinds (h : ctx.Settled) : ∀ (groups : List Group) (x : NodeId),
    (anyGroupFinds ctx groups x).Decides (∃ y, someGroupLeads ctx groups x y)
  | [], _ => decides_pure (by simp [someGroupLeads])
  | g :: gs, x => by
    refine (g.ensures_foundFrom h x).bind fun found hf => ?_
    cases found with
    | nil =>
      refine (decides_anyGroupFinds h gs x).congr ?_
      simp [someGroupLeads, ← hf]
    | cons y found =>
      refine decides_pure (iff_of_true rfl ⟨y, .inl ?_⟩)
      exact (hf y).mp List.mem_cons_self

theorem Group.ensures_foundFrom (h : ctx.Settled) : ∀ (g : Group) (x : NodeId),
    (g.foundFrom ctx x).Ensures fun found => ∀ y, y ∈ found ↔ g.Leads ctx x y
  | ⟨steps⟩, x => by
    refine (ensures_stepsFrom h steps [x]).mono fun found hf y => ?_
    rw [hf]
    simp [Group.Leads]

theorem ensures_stepsFrom (h : ctx.Settled) : ∀ (steps : List Step) (current : List NodeId),
    (stepsFrom ctx steps current).Ensures fun found =>
      ∀ y, y ∈ found ↔ ∃ x ∈ current, stepsLead ctx steps x y
  | [], current => ensures_pure (by simp [stepsLead])
  | ⟨k, c⟩ :: rest, current => by
    refine (ensures_keep fun x _ => c.decides_holds h x).bind fun kept hk => ?_
    have hkept : ∀ z, z ∈ kept ↔
        ∃ x ∈ current, k.Relates ctx.document x z ∧ c.MetBy ctx z := by
      intro z
      rw [hk, mem_distinct, List.mem_flatMap]
      simp only [k.mem_targets h.linked, ← and_assoc, exists_and_right]
    have hrest : Ensures (if kept.isEmpty then return [] else stepsFrom ctx rest kept)
        fun found => ∀ y, y ∈ found ↔ ∃ z ∈ kept, stepsLead ctx rest z y := by
      cases kept with
      | nil => exact ensures_pure (by simp)
      | cons z kept => exact ensures_stepsFrom h rest (z :: kept)
    refine hrest.mono fun found hf y => ?_
    rw [hf]
    constructor
    · rintro ⟨z, hz, hy⟩
      obtain ⟨x, hx, hrelates, hmet⟩ := (hkept z).mp hz
      exact ⟨x, hx, z, hrelates, hmet, hy⟩
    · rintro ⟨x, hx, z, hrelates, hmet, hy⟩
      exact ⟨z, (hkept z).mpr ⟨x, hx, hrelates, hmet⟩, hy⟩

/-- A compound is tested right, whatever was asked before. -/
theorem Compound.decides_holds (h : ctx.Settled) : ∀ (c : Compound) (x : NodeId),
    (c.holds ctx x).Decides (c.MetBy ctx x)
  | ⟨typeTest, id, classes, attributes, pseudoClasses, pseudoElements⟩, x => by
    refine (QueryContext.decides_plainTestsHold.both fun _ =>
      (decides_pseudoClassesHold h pseudoClasses x).both fun _ =>
        QueryContext.decides_pseudoElementsHold pseudoElements).congr ?_
    rw [Compound.MetBy, and_assoc]

theorem decides_pseudoClassesHold (h : ctx.Settled) : ∀ (tests : List PseudoClass) (x : NodeId),
    (pseudoClassesHold ctx tests x).Decides (allMetBy ctx tests x)
  | [], _ => decides_pure (by simp [allMetBy])
  | p :: ps, x => (p.decides_holds h x).both fun _ => decides_pseudoClassesHold h ps x

theorem PseudoClass.decides_holds (h : ctx.Settled) : ∀ (p : PseudoClass) (x : NodeId),
    (p.holds ctx x).Decides (p.MetBy ctx x)
  | ⟨_, argument⟩, x =>
    QueryContext.decides_pseudoClassHolds h.steady (argument.decides_findsFrom h x)

theorem Argument.decides_findsFrom (h : ctx.Settled) : ∀ (a : Argument) (x : NodeId),
    (a.findsFrom ctx x).Decides (∃ y, a.Leads ctx x y)
  | .selector nested, x => nested.decides_findsFrom h x
  | .none, _ | .text _, _ | .nth _, _ | .index _, _ => decides_pure (by simp [Argument.Leads])

end

namespace Engine

variable {engine : Engine} {doc : Document}

theorem settled_context (built : doc.Built) (steady : ∀ i, engine.random i = engine.random 0)
    (scope : NodeId) : (engine.context doc scope).Settled :=
  ⟨built.linked, steady⟩

theorem ensures_foundByGroups (h : ctx.Settled) (scope : NodeId) (groups : List Group) :
    (foundByGroups ctx scope groups).Ensures fun found =>
      ∀ y, y ∈ found ↔ ∃ g ∈ groups, g.Leads ctx scope y := by
  induction groups with
  | nil => exact ensures_pure (by simp)
  | cons g gs ih =>
    refine (g.ensures_foundFrom h scope).bind fun found hf => ih.bind fun others ho => ?_
    refine ensures_pure fun y => ?_
    rw [List.mem_append, hf, ho, List.exists_mem_cons_iff]

theorem ensures_foundFromScopes (h : ∀ scope, (engine.context doc scope).Settled)
    (selector : Selector) (scopes : List NodeId) :
    (engine.foundFromScopes doc selector scopes).Ensures fun found =>
      ∀ y, y ∈ found ↔ ∃ scope ∈ scopes, ∃ g ∈ selector.groups,
        g.Leads (engine.context doc scope) scope y := by
  induction scopes with
  | nil => exact ensures_pure (by simp)
  | cons scope scopes ih =>
    refine (ensures_foundByGroups (h scope) scope selector.groups).bind fun found hf =>
      ih.bind fun others ho => ?_
    refine ensures_pure fun y => ?_
    rw [List.mem_append, hf, ho, List.exists_mem_cons_iff]

theorem find?_not_contains {scopes : List NodeId}
    (known : ∀ scope ∈ scopes, doc.contains scope = true) :
    scopes.find? (fun scope => !doc.contains scope) = none := by
  rw [List.find?_eq_none]
  intro scope hs
  simp [known scope hs]

theorem find_eq_of_known (engine : Engine) (selector : Selector) {scopes : List NodeId}
    (known : ∀ scope ∈ scopes, doc.contains scope = true) :
    engine.find doc selector scopes = do
      let found ← engine.foundFromScopes doc selector scopes
      return .ok (doc.inOrder (distinct found)) := by
  rw [find, find?_not_contains known]

theorem ensures_find (built : doc.Built) (steady : ∀ i, engine.random i = engine.random 0)
    (selector : Selector) {scopes : List NodeId}
    (known : ∀ scope ∈ scopes, doc.contains scope = true) :
    (engine.find doc selector scopes).Ensures fun result => ∃ found, result = .ok found ∧
      ∀ y, y ∈ found ↔ ∃ scope ∈ scopes, ∃ g ∈ selector.groups,
        g.Leads (engine.context doc scope) scope y := by
  rw [find_eq_of_known engine selector known]
  refine (ensures_foundFromScopes (settled_context built steady) selector scopes).bind
    fun found hf => ensures_pure ⟨_, rfl, fun y => ?_⟩
  rw [Document.inOrder, List.mem_mergeSort, mem_distinct, hf]

/-- A search in a tree finds exactly the nodes to which some group leads from some scope node,
where the tests see that scope node, the prefixes of the engine and its random answers. -/
theorem find_mem_iff_leads (built : doc.Built) (steady : ∀ i, engine.random i = engine.random 0)
    (selector : Selector) {scopes : List NodeId}
    (known : ∀ scope ∈ scopes, doc.contains scope = true) (st : QueryState) :
    ∃ found, (engine.find doc selector scopes).answer st = .ok found ∧
      ∀ y, y ∈ found ↔ ∃ scope ∈ scopes, ∃ g ∈ selector.groups,
        g.Leads ⟨doc, scope, engine.prefixes, engine.random⟩ scope y :=
  ensures_find built steady selector known st

end Engine

/-- The document of an element `a` that holds an element `b` of the namespace `u`. -/
def nestedElements : Document :=
  let a : Node :=
    { kind := .element ⟨"a", none, none, .empty⟩, parent := some 0, children := [2] }
  let b : Node := { kind := .element ⟨"b", none, some "u", .empty⟩, parent := some 1 }
  ⟨#[{ kind := .document, children := [1] }, a, b]⟩

theorem built_nestedElements : nestedElements.Built := by
  have ha := @Document.Built.grow _ _ 0 .blank (.element ⟨"a", none, none, .empty⟩) (by decide) rfl
  exact @Document.Built.grow _ _ 1 ha (.element ⟨"b", none, some "u", .empty⟩) (by decide) rfl

/-- An engine that binds the prefix `p` to the namespace `u`. -/
def boundEngine : Engine :=
  { prefixes := .ofList [("p", "u")] }

/-- The selectors `> :scope` and `> p|b:not(> :scope)`. -/
def childScope : Selector :=
  ⟨[⟨[⟨.child, { pseudoClasses := [⟨.scope, .none⟩] }⟩]⟩]⟩

def boundChild : Selector :=
  let b : Compound :=
    { typeTest := some ⟨some (.bound "p"), some "b"⟩
      pseudoClasses := [⟨.not, .selector childScope⟩] }
  ⟨[⟨[⟨.child, b⟩]⟩]⟩

/-- The child `b` has the bound namespace, and it holds no node where the search began. -/
theorem find_boundChild : nestedElements.Built ∧
    (∀ i, boundEngine.random i = boundEngine.random 0) ∧
    (∀ scope ∈ [1], nestedElements.contains scope = true) ∧
    (boundEngine.find nestedElements boundChild [1]).answer {} = .ok [2] ∧
    ∀ y, y = 2 ↔ ∃ g ∈ boundChild.groups,
      g.Leads ⟨nestedElements, 1, .ofList [("p", "u")], fun _ => false⟩ 1 y := by
  have hknown : ∀ scope ∈ [1], nestedElements.contains scope = true := by decide
  obtain ⟨found, hfind, hfound⟩ := @Engine.find_mem_iff_leads boundEngine nestedElements
    built_nestedElements (fun _ => rfl) boundChild _ hknown {}
  have hrun : (boundEngine.find nestedElements boundChild [1]).answer {} =
      .ok (nestedElements.inOrder [2]) := rfl
  have horder : nestedElements.inOrder [2] = [2] := List.mergeSort_singleton _
  rw [horder] at hrun
  cases hfind.symm.trans hrun
  refine ⟨built_nestedElements, fun _ => rfl, hknown, hrun, fun y => ?_⟩
  rw [← List.mem_singleton, hfound]
  simp [boundEngine]

end DocumentQuery
