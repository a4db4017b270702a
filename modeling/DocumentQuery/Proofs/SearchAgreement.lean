import DocumentQuery.Proofs.ReachedNodes
import DocumentQuery.Proofs.SubjectSearch

namespace DocumentQuery

variable {ctx : QueryContext} {doc : Document} {x y : NodeId}

theorem Compound.isElement_of_metBy {c : Compound} (h : c.MetBy ctx x) :
    ctx.document.isElement x = true := by
  obtain ⟨typeTest, id, classes, attributes, pseudoClasses, pseudoElements⟩ := c
  rw [Compound.MetBy] at h
  obtain ⟨⟨e, he, -⟩, -⟩ := h
  rw [Document.isElement, he]
  rfl

theorem stepsLead_concat {steps : List Step} {k : Combinator} {c : Compound} :
    stepsLead ctx (steps ++ [⟨k, c⟩]) x y ↔
      ∃ z, stepsLead ctx steps x z ∧ k.Relates ctx.document z y ∧ c.MetBy ctx y := by
  induction steps generalizing x with
  | nil => simp [stepsLead]
  | cons step steps ih =>
    obtain ⟨k', c'⟩ := step
    simp only [List.cons_append, stepsLead, ih]
    constructor
    · rintro ⟨w, hr, hm, z, hz, hy⟩
      exact ⟨z, ⟨w, hr, hm, hz⟩, hy⟩
    · rintro ⟨z, ⟨w, hr, hm, hz⟩, hy⟩
      exact ⟨w, hr, hm, z, hz, hy⟩

/-- Steps lead from an element to elements. -/
theorem isElement_of_stepsLead {steps : List Step} (h : stepsLead ctx steps x y)
    (hx : ctx.document.isElement x = true) : ctx.document.isElement y = true := by
  induction steps generalizing x with
  | nil =>
    cases h
    exact hx
  | cons step steps ih =>
    obtain ⟨k, c⟩ := step
    obtain ⟨z, -, hz, hy⟩ := h
    exact ih hy (Compound.isElement_of_metBy hz)

namespace Combinator

theorem mem_sources {k : Combinator} (h : doc.Linked) (hy : doc.isElement y = true) :
    x ∈ k.sources doc y ↔ doc.isElement x = true ∧ k.Relates doc x y := by
  cases k with
  | descendant => simp [sources, Relates, hy, h.mem_ancestors, and_comm]
  | child => simp [sources, Relates, hy, and_comm]
  | adjacentSibling => simp [sources, Relates, hy, h.previousElement?_eq_some]
  | generalSibling => simp [sources, Relates, hy, h.mem_precedingSiblings, and_comm]

theorem relatesToScope_of_relates {k : Combinator} (h : doc.Linked)
    (hx : x = 0 ∨ doc.isElement x = true) (hr : k.Relates doc x y) :
    k.relatesToScope doc x y = true := by
  obtain ⟨-, hr⟩ := hr
  cases k with
  | descendant => rfl
  | child => simpa [relatesToScope] using hr
  | generalSibling => simpa [relatesToScope, h.mem_precedingSiblings] using hr
  | adjacentSibling =>
    obtain ⟨between, hf, hnone⟩ := hr
    have hx : doc.isElement x = true := by
      refine hx.resolve_left ?_
      rintro rfl
      obtain ⟨p, before, rest, hp⟩ := hf
      have hroot := h.mem_children.mp (show 0 ∈ doc.children p by simp [hp])
      rw [h.root] at hroot
      cases hroot
    have hprevious := h.previousElement?_eq_some.mpr ⟨hx, between, hf, hnone⟩
    simp [relatesToScope, hprevious]

theorem relates_of_relatesToScope {k : Combinator} (h : doc.Linked) (hk : k ≠ .descendant)
    (hy : doc.isElement y = true) (hr : k.relatesToScope doc x y = true) :
    k.Relates doc x y := by
  refine ⟨hy, ?_⟩
  cases k with
  | descendant => exact absurd rfl hk
  | child => simpa [relatesToScope] using hr
  | adjacentSibling =>
    rw [relatesToScope, beq_iff_eq, h.previousElement?_eq_some] at hr
    exact hr.2
  | generalSibling => simpa [relatesToScope, h.mem_precedingSiblings] using hr

end Combinator

theorem chainEnds_cons {k : Combinator} {c : Compound} {left : List Step} (hl : left ≠ []) :
    chainEnds ctx (⟨k, c⟩ :: left) y ↔
      c.MetBy ctx y ∧ ∃ x ∈ k.sources ctx.document y, chainEnds ctx left x := by
  cases left with
  | nil => exact absurd rfl hl
  | cons => rw [chainEnds]

/-- Read from its end, a chain differs only in how its first step is tied to the scope. -/
theorem chainEnds_reverse_iff (h : ctx.document.Linked) {k : Combinator} {c : Compound}
    {rest : List Step} : chainEnds ctx (⟨k, c⟩ :: rest).reverse y ↔
      ∃ z, k.relatesToScope ctx.document ctx.scope z = true ∧ c.MetBy ctx z ∧
        stepsLead ctx rest z y := by
  induction rest using List.reverseRecOn generalizing y with
  | nil => simp [chainEnds, stepsLead, and_comm]
  | append_singleton rest step ih =>
    obtain ⟨k', c'⟩ := step
    rw [← List.cons_append, List.reverse_concat, chainEnds_cons (by simp)]
    simp only [ih, stepsLead_concat]
    constructor
    · rintro ⟨hy, x, hx, z, hz, hc, hs⟩
      have hrelates := (Combinator.mem_sources h (Compound.isElement_of_metBy hy)).mp hx
      exact ⟨z, hz, hc, x, hs, hrelates.2, hy⟩
    · rintro ⟨z, hz, hc, x, hs, hrelates, hy⟩
      have hx := isElement_of_stepsLead hs (Compound.isElement_of_metBy hc)
      exact ⟨hy, x, (Combinator.mem_sources h hrelates.1).mpr ⟨hx, hrelates⟩, z, hz, hc, hs⟩

theorem Combinator.attached_of_relates {k : Combinator} (h : doc.Linked)
    (hr : k.Relates doc x y) (hy : y ∈ doc.attached) : x ∈ doc.attached :=
  (h.mem_attached_of_precedes (precedes_of_relates hr)).mp hy

theorem attached_of_stepsLead (h : ctx.document.Linked) {steps : List Step}
    (hs : stepsLead ctx steps x y) (hy : y ∈ ctx.document.attached) :
    x ∈ ctx.document.attached := by
  induction steps generalizing x with
  | nil =>
    cases hs
    exact hy
  | cons step steps ih =>
    obtain ⟨k, c⟩ := step
    obtain ⟨z, hr, -, hz⟩ := hs
    exact Combinator.attached_of_relates h hr (ih hz)

section Groups

variable {g : Group} (h : ctx.document.Linked) (hsteps : g.steps ≠ [])

include h hsteps

/-- A node that a group finds from the scope is the end of a chain. -/
theorem Group.chainEnds_of_leads (hscope : ctx.scope = 0 ∨ ctx.document.isElement ctx.scope = true)
    (hl : g.Leads ctx ctx.scope y) :
    ctx.document.isElement y = true ∧ chainEnds ctx g.steps.reverse y := by
  obtain ⟨_ | ⟨⟨k, c⟩, rest⟩⟩ := g
  · exact absurd rfl hsteps
  · obtain ⟨z, hr, hc, hz⟩ := hl
    refine ⟨isElement_of_stepsLead hz hr.1, (chainEnds_reverse_iff h).mpr ⟨z, ?_, hc, hz⟩⟩
    exact Combinator.relatesToScope_of_relates h hscope hr

theorem Group.leads_of_chainEnds
    (hfirst : ∀ step ∈ g.steps.head?, step.combinator ≠ .descendant)
    (he : chainEnds ctx g.steps.reverse y) : g.Leads ctx ctx.scope y := by
  obtain ⟨_ | ⟨⟨k, c⟩, rest⟩⟩ := g
  · exact absurd rfl hsteps
  · obtain ⟨z, hr, hc, hz⟩ := (chainEnds_reverse_iff h).mp he
    have hk : k ≠ .descendant := hfirst _ rfl
    exact ⟨z, Combinator.relates_of_relatesToScope h hk (Compound.isElement_of_metBy hc) hr, hc, hz⟩

/-- Every element that is attached lies below the document node, so that nothing is lost in a
search from there. -/
theorem Group.leads_of_chainEnds_attached (hscope : ctx.scope = 0)
    (hy : y ∈ ctx.document.attached) (he : chainEnds ctx g.steps.reverse y) :
    g.Leads ctx ctx.scope y := by
  obtain ⟨_ | ⟨⟨k, c⟩, rest⟩⟩ := g
  · exact absurd rfl hsteps
  · obtain ⟨z, hr, hc, hz⟩ := (chainEnds_reverse_iff h).mp he
    have helement := Compound.isElement_of_metBy hc
    by_cases hk : k = .descendant
    · have hz0 : z ≠ 0 := by
        rintro rfl
        rw [h.rootKind] at helement
        cases helement
      have hbelow := (h.mem_attached.mp (attached_of_stepsLead h hz hy)).resolve_left hz0
      rw [hk, hscope]
      exact ⟨z, ⟨helement, hbelow⟩, hc, hz⟩
    · exact ⟨z, Combinator.relates_of_relatesToScope h hk helement hr, hc, hz⟩

end Groups

namespace Engine

variable {engine : Engine}

theorem matchesNode_eq_ok_iff (built : doc.Built)
    (steady : ∀ i, engine.random i = engine.random 0) {selector : Selector} {scope : NodeId}
    {st : QueryState} (hscope : doc.contains scope = true) :
    (engine.matchesNode doc selector y scope).answer st = .ok true ↔
      doc.isElement y = true ∧ ∃ g ∈ selector.groups,
        chainEnds (engine.context doc scope) g.steps.reverse y := by
  have htest : (engine.matchesNode doc selector y scope).Ensures fun result =>
      result = .ok true ↔ doc.isElement y = true ∧ ∃ g ∈ selector.groups,
        chainEnds (engine.context doc scope) g.steps.reverse y := by
    unfold matchesNode
    by_cases hy : doc.contains y = true
    · have hknown : [y, scope].find? (fun id => !doc.contains id) = none := by simp [hy, hscope]
      rw [hknown]
      have hmatch := selector.decides_matchesNode (y := y) (settled_context built steady scope)
      refine hmatch.bind fun passes hp => Query.ensures_pure ?_
      rw [Except.ok.injEq]
      exact hp
    · have hunknown : [y, scope].find? (fun id => !doc.contains id) = some y := by simp [hy]
      rw [hunknown]
      refine Query.ensures_pure (iff_of_false nofun fun h => hy ?_)
      exact decide_eq_true (Document.lt_size_of_isElement h.1)
  exact htest st

/-- The forward search and the test of a single node agree. -/
theorem find_agrees_with_matchesNode (built : doc.Built)
    (steady : ∀ i, engine.random i = engine.random 0) {selector : Selector}
    (hsteps : ∀ g ∈ selector.groups, g.steps ≠ []) {scope : NodeId}
    (hscope : scope = 0 ∨ doc.isElement scope = true) (st : QueryState) :
    ∃ found, (engine.find doc selector [scope]).answer st = .ok found ∧
      (∀ y ∈ found, ∀ st', (engine.matchesNode doc selector y scope).answer st' = .ok true) ∧
      ((∀ g ∈ selector.groups, ∀ step ∈ g.steps.head?, step.combinator ≠ .descendant) →
        ∀ y st', (engine.matchesNode doc selector y scope).answer st' = .ok true → y ∈ found) ∧
      (scope = 0 → ∀ y ∈ doc.attached, ∀ st',
        (engine.matchesNode doc selector y scope).answer st' = .ok true → y ∈ found) := by
  have hlinked := built.linked
  have hin : doc.contains scope = true := by
    rcases hscope with rfl | he
    · exact decide_eq_true hlinked.notEmpty
    · exact decide_eq_true (Document.lt_size_of_isElement he)
  have hknown : ∀ s ∈ [scope], doc.contains s = true := by simpa using hin
  obtain ⟨found, hfind, hfound⟩ := ensures_find built steady selector hknown st
  simp only [List.exists_mem_cons_iff, List.not_mem_nil, false_and, exists_false, or_false]
    at hfound
  refine ⟨found, hfind, ?_, ?_, ?_⟩
  · intro y hy st'
    obtain ⟨g, hg, hl⟩ := (hfound y).mp hy
    obtain ⟨he, hc⟩ := Group.chainEnds_of_leads hlinked (hsteps g hg) hscope hl
    exact (matchesNode_eq_ok_iff built steady hin).mpr ⟨he, g, hg, hc⟩
  · intro hfirst y st' hm
    obtain ⟨-, g, hg, hc⟩ := (matchesNode_eq_ok_iff built steady hin).mp hm
    exact (hfound y).mpr ⟨g, hg, Group.leads_of_chainEnds hlinked (hsteps g hg) (hfirst g hg) hc⟩
  · intro hroot y hy st' hm
    obtain ⟨-, g, hg, hc⟩ := (matchesNode_eq_ok_iff built steady hin).mp hm
    exact (hfound y).mpr
      ⟨g, hg, Group.leads_of_chainEnds_attached hlinked (hsteps g hg) hroot hy hc⟩

end Engine

/-- The selector `> a > b`. -/
def nestedSteps : Selector :=
  let a : Compound := { typeTest := some ⟨none, some "a"⟩ }
  let b : Compound := { typeTest := some ⟨none, some "b"⟩ }
  ⟨[⟨[⟨.child, a⟩, ⟨.child, b⟩]⟩]⟩

theorem find_nestedSteps_agrees : nestedElements.Built ∧
    (∀ i, ({} : Engine).random i = ({} : Engine).random 0) ∧
    (∀ g ∈ nestedSteps.groups, g.steps ≠ []) ∧ (0 = 0 ∨ nestedElements.isElement 0 = true) ∧
    ∃ found, (({} : Engine).find nestedElements nestedSteps [0]).answer {} = .ok found ∧
      (({} : Engine).matchesNode nestedElements nestedSteps 2 0).answer {} = .ok true ∧
      2 ∈ found ∧ 1 ∉ found := by
  have hsteps : ∀ g ∈ nestedSteps.groups, g.steps ≠ [] := by simp [nestedSteps]
  have hfirst : ∀ g ∈ nestedSteps.groups, ∀ step ∈ g.steps.head?,
      step.combinator ≠ .descendant := by simp [nestedSteps]
  obtain ⟨found, hfind, hsound, hcomplete, -⟩ :=
    @Engine.find_agrees_with_matchesNode nestedElements {} built_nestedElements (fun _ => rfl)
      nestedSteps hsteps 0 (.inl rfl) {}
  refine ⟨built_nestedElements, fun _ => rfl, hsteps, .inl rfl, found, hfind, rfl,
    hcomplete hfirst 2 {} rfl, fun hm => ?_⟩
  have hfails : (({} : Engine).matchesNode nestedElements nestedSteps 1 0).answer {} =
      .ok false := rfl
  cases hfails.symm.trans (hsound 1 hm {})

end DocumentQuery
