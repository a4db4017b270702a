import DocumentQuery.Proofs.DocumentPlaces
import DocumentQuery.Proofs.ForwardSearch

namespace DocumentQuery

open Query

theorem Query.ensures_keep_subset {α : Type} (test : α → Query Bool) (xs : List α) :
    (keep test xs).Ensures fun kept => kept ⊆ xs := by
  induction xs with
  | nil => exact ensures_pure (List.nil_subset _)
  | cons x xs ih =>
    have hany : (test x).Ensures fun _ => True := fun _ => trivial
    refine hany.bind fun passes _ => ih.bind fun kept hk => ensures_pure ?_
    cases passes with
    | true => exact List.cons_subset_cons x hk
    | false => exact List.subset_cons_of_subset x hk

/-- Whether the relations of steps lead from `x` to `y`, whatever their tests say. -/
def stepsReach (doc : Document) : List Step → NodeId → NodeId → Prop
  | [], x, y => x = y
  | t :: rest, x, y => ∃ z, t.combinator.Relates doc x z ∧ stepsReach doc rest z y

variable {ctx : QueryContext} {doc : Document} {steps : List Step} {x y : NodeId}

theorem Combinator.precedes_of_relates {k : Combinator} (hr : k.Relates doc x y) :
    doc.Precedes x y := by
  obtain ⟨-, hr⟩ := hr
  cases k with
  | descendant => exact .inl hr
  | child => exact .inl (.single hr)
  | adjacentSibling =>
    obtain ⟨between, hf, -⟩ := hr
    exact .inr ⟨x, between, y, hf, .refl, .refl⟩
  | generalSibling =>
    obtain ⟨between, hf⟩ := hr
    exact .inr ⟨x, between, y, hf, .refl, .refl⟩

/-- Steps lead forward in tree order and to elements, unless there are none. -/
theorem stepsReach_forward (h : doc.Linked) (hr : stepsReach doc steps x y) :
    steps = [] ∧ y = x ∨ doc.Precedes x y ∧ doc.isElement y = true := by
  induction steps generalizing x with
  | nil => exact .inl ⟨rfl, hr.symm⟩
  | cons t rest ih =>
    obtain ⟨z, hz, hy⟩ := hr
    have hfirst := Combinator.precedes_of_relates hz
    rcases ih hy with ⟨-, rfl⟩ | ⟨hrest, helement⟩
    · exact .inr ⟨hfirst, hz.1⟩
    · exact .inr ⟨h.precedes_trans hfirst hrest, helement⟩

/-- Steps find only what their relations lead to, whatever the random answers are. -/
theorem ensures_stepsFrom_reach (h : ctx.document.Linked) (steps : List Step)
    (current : List NodeId) : (stepsFrom ctx steps current).Ensures fun found =>
      ∀ y ∈ found, ∃ x ∈ current, stepsReach ctx.document steps x y := by
  induction steps generalizing current with
  | nil => exact ensures_pure fun y hy => ⟨y, hy, rfl⟩
  | cons step rest ih =>
    obtain ⟨k, c⟩ := step
    refine (ensures_keep_subset _ _).bind fun kept hk => ?_
    cases kept with
    | nil => exact ensures_pure (by simp)
    | cons z kept =>
      refine (ih (z :: kept)).mono fun found hf y hy => ?_
      obtain ⟨w, hw, hreach⟩ := hf y hy
      obtain ⟨x, hx, htarget⟩ := List.mem_flatMap.mp (mem_distinct.mp (hk hw))
      exact ⟨x, hx, w, (k.mem_targets h).mp htarget, hreach⟩

theorem Group.ensures_foundFrom_reach (h : ctx.document.Linked) (g : Group) (x : NodeId) :
    (g.foundFrom ctx x).Ensures fun found =>
      ∀ y ∈ found, stepsReach ctx.document g.steps x y := by
  obtain ⟨steps⟩ := g
  refine (ensures_stepsFrom_reach h steps [x]).mono fun found hf y hy => ?_
  obtain ⟨x', hx', hreach⟩ := hf y hy
  exact List.mem_singleton.mp hx' ▸ hreach

namespace Engine

variable {engine : Engine}

theorem ensures_foundByGroups_reach (h : ctx.document.Linked) (scope : NodeId)
    (groups : List Group) : (foundByGroups ctx scope groups).Ensures fun found =>
      ∀ y ∈ found, ∃ g ∈ groups, stepsReach ctx.document g.steps scope y := by
  induction groups with
  | nil => exact ensures_pure (by simp)
  | cons g gs ih =>
    refine (g.ensures_foundFrom_reach h scope).bind fun found hf =>
      ih.bind fun others ho => ensures_pure fun y hy => ?_
    rw [List.exists_mem_cons_iff]
    rcases List.mem_append.mp hy with hy | hy
    · exact .inl (hf y hy)
    · exact .inr (ho y hy)

theorem ensures_foundFromScopes_reach (h : doc.Linked) (selector : Selector)
    (scopes : List NodeId) : (engine.foundFromScopes doc selector scopes).Ensures fun found =>
      ∀ y ∈ found, ∃ scope ∈ scopes, ∃ g ∈ selector.groups, stepsReach doc g.steps scope y := by
  induction scopes with
  | nil => exact ensures_pure (by simp)
  | cons scope scopes ih =>
    have hscope : (engine.context doc scope).document.Linked := h
    refine (ensures_foundByGroups_reach hscope scope selector.groups).bind fun found hf =>
      ih.bind fun others ho => ensures_pure fun y hy => ?_
    rw [List.exists_mem_cons_iff]
    rcases List.mem_append.mp hy with hy | hy
    · exact .inl (hf y hy)
    · exact .inr (ho y hy)

/-- A search finds only what the relations of some group lead to from some scope node. -/
theorem ensures_find_reach (h : doc.Linked) (selector : Selector) {scopes : List NodeId}
    (known : ∀ scope ∈ scopes, doc.contains scope = true) :
    (engine.find doc selector scopes).Ensures fun result => ∃ found, result = .ok found ∧
      ∀ y ∈ found, ∃ scope ∈ scopes, ∃ g ∈ selector.groups, stepsReach doc g.steps scope y := by
  rw [find_eq_of_known engine selector known]
  refine (ensures_foundFromScopes_reach h selector scopes).bind fun found hf =>
    ensures_pure ⟨_, rfl, fun y hy => ?_⟩
  exact hf y (mem_distinct.mp (Document.mem_inOrder.mp hy))

end Engine

end DocumentQuery
