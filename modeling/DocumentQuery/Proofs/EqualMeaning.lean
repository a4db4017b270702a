import DocumentQuery.Proofs.OrderedResults
import DocumentQuery.Proofs.SearchAgreement

namespace DocumentQuery

/-- Whether two compounds are met by the same nodes, whatever the query is. -/
def Compound.MeansSame (c d : Compound) : Prop :=
  ∀ ctx x, c.MetBy ctx x ↔ d.MetBy ctx x

def Step.MeansSame (s t : Step) : Prop :=
  s.combinator = t.combinator ∧ s.compound.MeansSame t.compound

def Group.MeansSame (g h : Group) : Prop :=
  List.Forall₂ Step.MeansSame g.steps h.steps

/-- Whether two selectors are built alike from compounds that mean the same. -/
def Selector.MeansSame (s t : Selector) : Prop :=
  List.Forall₂ Group.MeansSame s.groups t.groups

theorem Step.MeansSame.refl (s : Step) : s.MeansSame s :=
  ⟨rfl, fun _ _ => Iff.rfl⟩

theorem Group.MeansSame.refl (g : Group) : g.MeansSame g :=
  List.forall₂_same.mpr fun s _ => .refl s

theorem Selector.MeansSame.refl (s : Selector) : s.MeansSame s :=
  List.forall₂_same.mpr fun g _ => .refl g

variable {ctx : QueryContext} {x y : NodeId} {s t : Selector} {g h : Group}
  {steps others : List Step}

theorem stepsLead_congr (hs : List.Forall₂ Step.MeansSame steps others) :
    stepsLead ctx steps x y ↔ stepsLead ctx others x y := by
  induction hs generalizing x with
  | nil => exact Iff.rfl
  | @cons step other steps others hstep _ ih =>
    obtain ⟨k, c⟩ := step
    obtain ⟨k', d⟩ := other
    obtain ⟨rfl, hc⟩ : k = k' ∧ c.MeansSame d := hstep
    exact exists_congr fun z => and_congr_right fun _ => and_congr (hc ctx z) ih

theorem chainEnds_congr (hs : List.Forall₂ Step.MeansSame steps others) :
    chainEnds ctx steps y ↔ chainEnds ctx others y := by
  induction hs generalizing y with
  | nil => exact Iff.rfl
  | @cons step other steps others hstep hrest ih =>
    obtain ⟨k, c⟩ := step
    obtain ⟨k', d⟩ := other
    obtain ⟨rfl, hc⟩ : k = k' ∧ c.MeansSame d := hstep
    cases hrest with
    | nil => exact and_congr (hc ctx y) Iff.rfl
    | cons => exact and_congr (hc ctx y) (exists_congr fun x => and_congr_right fun _ => ih)

theorem Group.MeansSame.leads_iff (hg : g.MeansSame h) :
    g.Leads ctx x y ↔ h.Leads ctx x y := by
  obtain ⟨steps⟩ := g
  obtain ⟨others⟩ := h
  exact stepsLead_congr hg

theorem Group.MeansSame.chainEnds_iff (hg : g.MeansSame h) :
    chainEnds ctx g.steps.reverse y ↔ chainEnds ctx h.steps.reverse y :=
  chainEnds_congr (List.forall₂_reverse_iff.mpr hg)

namespace Selector.MeansSame

/-- What holds alike of groups that mean the same holds of some group of either selector. -/
theorem exists_group_iff {p : Group → Prop} (hs : s.MeansSame t)
    (hp : ∀ {g h : Group}, g.MeansSame h → (p g ↔ p h)) :
    (∃ g ∈ s.groups, p g) ↔ ∃ h ∈ t.groups, p h := by
  have hgroups : List.Forall₂ Group.MeansSame s.groups t.groups := hs
  generalize s.groups = groups, t.groups = others at hgroups
  induction hgroups with
  | nil => simp
  | cons hg _ ih =>
    rw [List.exists_mem_cons_iff, List.exists_mem_cons_iff, hp hg]
    exact or_congr_right ih

theorem leads_iff (hs : s.MeansSame t) : s.Leads ctx x y ↔ t.Leads ctx x y := by
  rw [Selector.leads_iff, Selector.leads_iff]
  exact hs.exists_group_iff Group.MeansSame.leads_iff

end Selector.MeansSame

namespace Engine

variable {engine : Engine} {doc : Document}

/-- Selectors that mean the same find the same nodes. -/
theorem find_eq_of_meansSame (built : doc.Built)
    (steady : ∀ i, engine.random i = engine.random 0) (hs : s.MeansSame t)
    (scopes : List NodeId) (st st' : QueryState) :
    (engine.find doc s scopes).answer st = (engine.find doc t scopes).answer st' := by
  by_cases known : ∀ scope ∈ scopes, doc.contains scope = true
  · obtain ⟨found, hf, hrises, hmem⟩ := ensures_find_rising built steady s known st
    obtain ⟨others, ho, horises, homem⟩ := ensures_find_rising built steady t known st'
    rw [hf, ho, Document.eq_of_pairwise_placeOf hrises horises fun y => ?_]
    rw [hmem, homem]
    refine exists_congr fun scope => and_congr_right fun _ => ?_
    exact hs.exists_group_iff Group.MeansSame.leads_iff
  · unfold find
    split
    next => rfl
    next hnone => exact absurd (by simpa using hnone) known

/-- Selectors that mean the same match the same nodes. -/
theorem matchesNode_eq_of_meansSame (built : doc.Built)
    (steady : ∀ i, engine.random i = engine.random 0) (hs : s.MeansSame t) (x scope : NodeId)
    (st st' : QueryState) : (engine.matchesNode doc s x scope).answer st =
      (engine.matchesNode doc t x scope).answer st' := by
  have hsettled := settled_context built steady scope
  have hgroups := hs.exists_group_iff (@Group.MeansSame.chainEnds_iff (engine.context doc scope) x)
  have hsame := (t.decides_matchesNode (y := x) hsettled).congr (and_congr_right' hgroups.symm)
  unfold matchesNode
  split
  next => rfl
  next =>
    exact congrArg Except.ok ((s.decides_matchesNode (y := x) hsettled).answer_eq hsame st st')

end Engine

end DocumentQuery
