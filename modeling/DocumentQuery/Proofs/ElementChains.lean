import DocumentQuery.Proofs.SearchAgreement

namespace DocumentQuery

namespace Query

variable {α : Type}

/-- Whether some member passes a test; nothing after the first that passes is tested. -/
def any (test : α → Query Bool) : List α → Query Bool
  | [] => return false
  | x :: xs => do if ← test x then return true else any test xs

theorem decides_any {test : α → Query Bool} {holds : α → Prop} {xs : List α}
    (h : ∀ x ∈ xs, (test x).Decides (holds x)) : (any test xs).Decides (∃ x ∈ xs, holds x) := by
  induction xs with
  | nil => exact decides_pure (by simp)
  | cons x xs ih =>
    obtain ⟨hx, hxs⟩ := List.forall_mem_cons.mp h
    refine hx.bind fun passes hp => ?_
    cases passes with
    | true => exact decides_pure (iff_of_true rfl ⟨x, List.mem_cons_self, hp.mp rfl⟩)
    | false => exact (ih hxs).congr (by simp [← hp])

end Query

/-- Whether a node can be the last of a chain of steps, which are given last first. No answer
is kept, so that a part of the chain is tested again each time a way leads to it. -/
def chainEndsAnew (ctx : QueryContext) : List Step → NodeId → Query Bool
  | [], _ => return true
  | ⟨k, c⟩ :: left, node => do
    if ← c.holds ctx node then
      match left with
      | [] => return k.relatesToScope ctx.document ctx.scope node
      | _ :: _ => Query.any (chainEndsAnew ctx left) (k.sources ctx.document node)
    else return false

variable {ctx : QueryContext} {doc : Document} {x y z : NodeId}

theorem decides_chainEndsAnew (h : ctx.Settled) (steps : List Step) :
    (chainEndsAnew ctx steps y).Decides (chainEnds ctx steps y) := by
  induction steps generalizing y with
  | nil => exact Query.decides_pure (by simp [chainEnds])
  | cons step left ih =>
    obtain ⟨k, c⟩ := step
    refine (c.decides_holds h y).bind fun passes hp => ?_
    cases passes with
    | false => exact Query.decides_pure (by simp [chainEnds, ← hp])
    | true =>
      cases left with
      | nil => exact Query.decides_pure (by simp [chainEnds, hp.mp rfl])
      | cons next left =>
        refine (Query.decides_any fun x _ => ih).congr ?_
        simp [chainEnds, hp.mp rfl]

/-- Keeping answers changes none of them. -/
theorem answer_chainEndsAt (h : ctx.Settled) (steps : List Step) (x : NodeId)
    (st st' : QueryState) :
    ((chainEndsAt ctx steps x).run' ∅).answer st = (chainEndsAnew ctx steps x).answer st' :=
  (decides_run'_chainEndsAt h steps).answer_eq (decides_chainEndsAnew h steps) st st'

/-- How the first element of a chain is tied to the scope node. Descendants may lie anywhere. -/
def Combinator.Ties (k : Combinator) (doc : Document) (scope x : NodeId) : Prop :=
  match k with
  | .descendant => True
  | .child => doc.parent? x = some scope
  | .adjacentSibling => doc.isElement scope = true ∧
    ∃ between, doc.Follows scope between x ∧ ∀ z ∈ between, doc.isElement z = false
  | .generalSibling => ∃ between, doc.Follows scope between x

theorem Combinator.relatesToScope_iff {k : Combinator} (h : doc.Linked) :
    k.relatesToScope doc x y = true ↔ k.Ties doc x y := by
  cases k with
  | descendant => simp [relatesToScope, Ties]
  | child => simp [relatesToScope, Ties]
  | adjacentSibling => simp [relatesToScope, Ties, h.previousElement?_eq_some]
  | generalSibling => simp [relatesToScope, Ties, h.mem_precedingSiblings]

/-- An element of a chain together with the step whose tests it passes. -/
abbrev Visit := Step × NodeId

/-- Whether the second of two visits stands in the relation of its step to the first. -/
def Visit.Joins (doc : Document) (v w : Visit) : Prop :=
  w.1.combinator.Relates doc v.2 w.2

/-- The visits of a chain: one for each step of a group, in which the node passes the tests of
the step. The first is tied to the scope, and each other one is joined to the one before it. -/
structure Group.Chain (ctx : QueryContext) (g : Group) (visits : List Visit) : Prop where
  steps : visits.map Prod.fst = g.steps
  tests : ∀ v ∈ visits, v.1.compound.MetBy ctx v.2
  joined : visits.IsChain (Visit.Joins ctx.document)
  start : ∀ v ∈ visits.head?, v.1.combinator.Ties ctx.document ctx.scope v.2

/-- Whether a node ends a chain of a group. A group without steps asks for nothing. -/
def Group.EndsChain (ctx : QueryContext) (g : Group) (y : NodeId) : Prop :=
  g.steps = [] ∨ ∃ visits, g.Chain ctx visits ∧ visits.getLast?.map Prod.snd = some y

theorem stepsLead_iff_visits (first : Step) {rest : List Step} :
    stepsLead ctx rest z y ↔ ∃ visits : List Visit, visits.map Prod.fst = rest ∧
      (∀ v ∈ visits, v.1.compound.MetBy ctx v.2) ∧
      ((first, z) :: visits).IsChain (Visit.Joins ctx.document) ∧
      ((first, z) :: visits).getLast?.map Prod.snd = some y := by
  induction rest generalizing first z with
  | nil =>
    simp only [stepsLead, List.map_eq_nil_iff]
    constructor
    · rintro rfl
      exact ⟨[], rfl, nofun, .singleton _, rfl⟩
    · rintro ⟨_, rfl, -, -, hlast⟩
      exact Option.some.inj hlast
  | cons step rest ih =>
    obtain ⟨k, c⟩ := step
    simp only [stepsLead, @ih _ ⟨k, c⟩]
    constructor
    · rintro ⟨w, hr, hm, visits, rfl, htests, hjoined, hlast⟩
      refine ⟨(⟨k, c⟩, w) :: visits, rfl, List.forall_mem_cons.mpr ⟨hm, htests⟩,
        .cons_cons hr hjoined, ?_⟩
      rw [List.getLast?_cons_cons]
      exact hlast
    · rintro ⟨visits, hsteps, htests, hjoined, hlast⟩
      obtain ⟨⟨step, w⟩, visits, rfl, rfl, rfl⟩ := List.map_eq_cons_iff.mp hsteps
      obtain ⟨hm, htests⟩ := List.forall_mem_cons.mp htests
      obtain ⟨hr, hjoined⟩ := List.isChain_cons_cons.mp hjoined
      rw [List.getLast?_cons_cons] at hlast
      exact ⟨w, hr, hm, visits, rfl, htests, hjoined, hlast⟩

/-- Read from the left or from the right, a group has the same chains. -/
theorem Group.chainEnds_iff (h : ctx.document.Linked) (g : Group) :
    chainEnds ctx g.steps.reverse y ↔ g.EndsChain ctx y := by
  obtain ⟨_ | ⟨⟨k, c⟩, rest⟩⟩ := g
  · exact iff_of_true trivial (.inl rfl)
  · rw [chainEnds_reverse_iff h, EndsChain, or_iff_right (List.cons_ne_nil _ _)]
    simp only [Combinator.relatesToScope_iff h, stepsLead_iff_visits ⟨k, c⟩]
    constructor
    · rintro ⟨z, ht, hm, visits, rfl, htests, hjoined, hlast⟩
      refine ⟨(⟨k, c⟩, z) :: visits, ⟨rfl, List.forall_mem_cons.mpr ⟨hm, htests⟩, hjoined, ?_⟩,
        hlast⟩
      rintro v hv
      cases hv
      exact ht
    · rintro ⟨visits, ⟨hsteps, htests, hjoined, hstart⟩, hlast⟩
      obtain ⟨⟨step, z⟩, visits, rfl, rfl, rfl⟩ := List.map_eq_cons_iff.mp hsteps
      obtain ⟨hm, htests⟩ := List.forall_mem_cons.mp htests
      exact ⟨z, hstart _ rfl, hm, visits, rfl, htests, hjoined, hlast⟩

namespace Engine

variable {engine : Engine}

/-- A node is matched exactly if it is an element that ends a chain of one of the groups, where
the tests see the scope node, the prefixes of the engine and its random answers. The answers that
are kept on the way change nothing. -/
theorem matchesNode_iff_endsChain (built : doc.Built)
    (steady : ∀ i, engine.random i = engine.random 0) (selector : Selector) {scope : NodeId}
    (hscope : doc.contains scope = true) (hy : doc.contains y = true) (st : QueryState) :
    (∃ b, (engine.matchesNode doc selector y scope).answer st = .ok b ∧
      (b = true ↔ doc.isElement y = true ∧
        ∃ g ∈ selector.groups, g.EndsChain ⟨doc, scope, engine.prefixes, engine.random⟩ y)) ∧
    ∀ steps x st st',
      ((chainEndsAt ⟨doc, scope, engine.prefixes, engine.random⟩ steps x).run' ∅).answer st =
        (chainEndsAnew ⟨doc, scope, engine.prefixes, engine.random⟩ steps x).answer st' := by
  have hsettled := settled_context built steady scope
  refine ⟨?_, answer_chainEndsAt hsettled⟩
  have hknown : [y, scope].find? (fun id => !doc.contains id) = none := by simp [hy, hscope]
  have hmatch := selector.decides_matchesNode (y := y) hsettled
  have htest : (engine.matchesNode doc selector y scope).Ensures fun result =>
      ∃ b, result = .ok b ∧ (b = true ↔ doc.isElement y = true ∧
        ∃ g ∈ selector.groups, g.EndsChain (engine.context doc scope) y) := by
    unfold matchesNode
    rw [hknown]
    refine hmatch.bind fun passes hp => Query.ensures_pure ⟨passes, rfl, ?_⟩
    simp only [hp, Group.chainEnds_iff hsettled.linked]
    rfl
  exact htest st

end Engine

/-- The elements `a`, `b`, `b` and `c`, each in the one before it. -/
def doubledElements : Document :=
  let element (tag : String) : NodeKind := .element ⟨tag, none, none, .empty⟩
  let node (tag : String) (parent : NodeId) (children : List NodeId) : Node :=
    { kind := element tag, parent := some parent, children }
  ⟨#[{ kind := .document, children := [1] }, node "a" 0 [2], node "b" 1 [3], node "b" 2 [4],
    node "c" 3 []]⟩

theorem built_doubledElements : doubledElements.Built := by
  have ha := @Document.Built.grow _ _ 0 .blank (.element ⟨"a", none, none, .empty⟩) (by decide) rfl
  have hb := @Document.Built.grow _ _ 1 ha (.element ⟨"b", none, none, .empty⟩) (by decide) rfl
  have hc := @Document.Built.grow _ _ 2 hb (.element ⟨"b", none, none, .empty⟩) (by decide) rfl
  exact @Document.Built.grow _ _ 3 hc (.element ⟨"c", none, none, .empty⟩) (by decide) rfl

/-- The selector `> b c`. -/
def childThenBelow : Selector :=
  let named (tag : String) : Compound := { typeTest := some ⟨none, some tag⟩ }
  ⟨[⟨[⟨.child, named "b"⟩, ⟨.descendant, named "c"⟩]⟩]⟩

/-- The nearest `b` above the node is no child of the `a`, but the next one is. Neither is a child
of the document node. -/
theorem matchesNode_childThenBelow : doubledElements.Built ∧
    (∀ i, ({} : Engine).random i = ({} : Engine).random 0) ∧
    doubledElements.contains 1 = true ∧ doubledElements.contains 0 = true ∧
    doubledElements.contains 4 = true ∧
    (({} : Engine).matchesNode doubledElements childThenBelow 4 1).answer {} = .ok true ∧
    (∃ g ∈ childThenBelow.groups, g.EndsChain ⟨doubledElements, 1, .empty, fun _ => false⟩ 4) ∧
    (({} : Engine).matchesNode doubledElements childThenBelow 4 0).answer {} = .ok false ∧
    ¬∃ g ∈ childThenBelow.groups, g.EndsChain ⟨doubledElements, 0, .empty, fun _ => false⟩ 4 := by
  have hmatch : (({} : Engine).matchesNode doubledElements childThenBelow 4 1).answer {} =
      .ok true := rfl
  have hfails : (({} : Engine).matchesNode doubledElements childThenBelow 4 0).answer {} =
      .ok false := rfl
  obtain ⟨⟨b, hb, hiff⟩, -⟩ := @Engine.matchesNode_iff_endsChain doubledElements 4 {}
    built_doubledElements (fun _ => rfl) childThenBelow 1 rfl rfl {}
  cases hb.symm.trans hmatch
  obtain ⟨⟨b, hb, hother⟩, -⟩ := @Engine.matchesNode_iff_endsChain doubledElements 4 {}
    built_doubledElements (fun _ => rfl) childThenBelow 0 rfl rfl {}
  cases hb.symm.trans hfails
  exact ⟨built_doubledElements, fun _ => rfl, rfl, rfl, rfl, hmatch, (hiff.mp rfl).2, hfails,
    fun hchain => Bool.false_ne_true (hother.mpr ⟨rfl, hchain⟩)⟩

end DocumentQuery
