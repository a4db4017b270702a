import DocumentQuery.Proofs.ElementChains
import DocumentQuery.Proofs.LinkAgreement
import DocumentQuery.Proofs.NestedTests

namespace DocumentQuery

variable {ctx : QueryContext} {doc : Document} {x y z : NodeId}

namespace Engine

variable {engine : Engine}

/-- A search only moves forward: whatever the random answers are, each node that it finds comes
after the scope node in tree order, so that the scope node is not found. From an attached scope
node the places rise. -/
theorem find_moves_forward (built : doc.Built) {selector : Selector}
    (hsteps : ∀ g ∈ selector.groups, g.steps ≠ []) {scope : NodeId}
    (hscope : doc.contains scope = true) (st : QueryState) :
    ∃ found, (engine.find doc selector [scope]).answer st = .ok found ∧ scope ∉ found ∧
      (∀ y ∈ found, doc.Precedes scope y) ∧
      (scope ∈ doc.attached → ∀ y ∈ found, doc.placeOf scope < doc.placeOf y) := by
  have hlinked := built.linked
  have known : ∀ s ∈ [scope], doc.contains s = true := by simpa using hscope
  obtain ⟨found, hfind, hfound⟩ := ensures_find_reach hlinked selector known st
  have hforward : ∀ y ∈ found, doc.Precedes scope y := by
    intro y hy
    obtain ⟨s, hs, g, hg, hreach⟩ := hfound y hy
    cases List.mem_singleton.mp hs
    rcases stepsReach_forward hlinked hreach with ⟨hnone, -⟩ | ⟨hafter, -⟩
    · exact absurd hnone (hsteps g hg)
    · exact hafter
  refine ⟨found, hfind, fun hm => ?_, hforward, fun ha y hy => ?_⟩
  · have hself := hforward scope hm
    exact hlinked.precedes_asymm hself hself
  · have hafter := hforward y hy
    have hattached := (hlinked.mem_attached_of_precedes hafter).mpr ha
    exact hlinked.placeOf_lt_of_precedes ha hattached hafter

end Engine

/-- The groups `> :indeterminate` and `~ *`. -/
def randomChildOrSibling : Selector :=
  ⟨[⟨[⟨.child, { pseudoClasses := [⟨.indeterminate, .none⟩] }⟩]⟩,
    ⟨[⟨.generalSibling, { typeTest := some ⟨none, none⟩ }⟩]⟩]⟩

/-- The second answer that is drawn lets the second child pass. -/
theorem find_randomChildOrSibling_forward : lateBranch.Built ∧
    (∀ g ∈ randomChildOrSibling.groups, g.steps ≠ []) ∧ lateBranch.contains 3 = true ∧
    3 ∈ lateBranch.attached ∧
    ∃ found, (({ random := fun i => i == 1 } : Engine).find lateBranch randomChildOrSibling
        [3]).answer {} = .ok found ∧
      1 ∉ found ∧ 2 ∈ found ∧ 6 ∈ found ∧ 3 ∉ found ∧ lateBranch.Precedes 3 2 ∧
      lateBranch.placeOf 3 < lateBranch.placeOf 6 := by
  have hsteps : ∀ g ∈ randomChildOrSibling.groups, g.steps ≠ [] := by simp [randomChildOrSibling]
  have hattached : 3 ∈ lateBranch.attached := by decide
  obtain ⟨found, hfind, hscope, hforward, hplaces⟩ := @Engine.find_moves_forward lateBranch
    { random := fun i => i == 1 } built_lateBranch randomChildOrSibling hsteps 3 rfl {}
  have hrun : (({ random := fun i => i == 1 } : Engine).find lateBranch randomChildOrSibling
      [3]).answer {} = .ok (lateBranch.inOrder [2, 6]) := rfl
  cases Except.ok.inj (hfind.symm.trans hrun)
  have htwo : 2 ∈ lateBranch.inOrder [2, 6] := Document.mem_inOrder.mpr (by decide)
  have hsix : 6 ∈ lateBranch.inOrder [2, 6] := Document.mem_inOrder.mpr (by decide)
  have hone : 1 ∉ lateBranch.inOrder [2, 6] := mt Document.mem_inOrder.mp (by decide)
  exact ⟨built_lateBranch, hsteps, rfl, hattached, _, hfind, hone, htwo, hsix, hscope,
    hforward 2 htwo, hplaces hattached 6 hsix⟩

/-- What lies below a node that lies below another one lies below that one, so that steps that
begin with descendants lead to as many nodes from there. -/
theorem stepsLead_of_below {c : Compound} {rest : List Step} (hb : ctx.document.Below x z)
    (hs : stepsLead ctx (⟨.descendant, c⟩ :: rest) x y) :
    stepsLead ctx (⟨.descendant, c⟩ :: rest) z y := by
  obtain ⟨w, ⟨helement, hw⟩, hrest⟩ := hs
  exact ⟨w, ⟨helement, hw.trans hb⟩, hrest⟩

/-- Whether every group of a selector begins with descendants of the scope node. -/
def Selector.StartsBelow (s : Selector) : Prop :=
  ∀ g ∈ s.groups, ∃ c rest, g.steps = ⟨.descendant, c⟩ :: rest

theorem Selector.StartsBelow.leads_of_below {s : Selector} (h : s.StartsBelow)
    (hb : ctx.document.Below x z) (hl : s.Leads ctx x y) : s.Leads ctx z y := by
  rw [leads_iff] at hl ⊢
  obtain ⟨g, hg, hl⟩ := hl
  obtain ⟨c, rest, hs⟩ := h g hg
  obtain ⟨steps⟩ := g
  cases hs
  exact ⟨_, hg, stepsLead_of_below hb hl⟩

namespace Engine

variable {engine : Engine}

/-- For a selector that does not ask for the scope node and begins with descendants, a search
from a node below another one finds no more than the search from that one. -/
theorem find_subset_of_descendant (built : doc.Built)
    (steady : ∀ i, engine.random i = engine.random 0) {s : Selector} (hfree : s.ScopeFree)
    (hbelow : s.StartsBelow) {inner outer : NodeId} (hd : inner ∈ doc.descendants outer)
    (st st' : QueryState) :
    ∃ part whole, (engine.find doc s [inner]).answer st = .ok part ∧
      (engine.find doc s [outer]).answer st' = .ok whole ∧ part ⊆ whole := by
  have hlinked := built.linked
  have hb := hlinked.mem_descendants.mp hd
  obtain ⟨p, hp, -⟩ := Document.below_iff.mp hb
  have hinner : doc.contains inner = true := decide_eq_true (Document.lt_size_of_parent? hp)
  have hascent := hlinked.ascent_ancestors inner
  have houter : doc.contains outer = true :=
    decide_eq_true (hlinked.lt_size_of_ascent hascent outer (hlinked.mem_ancestors.mpr hb))
  obtain ⟨part, hpart, hinside⟩ := ensures_find_single built steady s hinner st
  obtain ⟨whole, hwhole, hall⟩ := ensures_find_single built steady s houter st'
  refine ⟨part, whole, hpart, hwhole, fun y hy => ?_⟩
  have hleads : s.Leads (engine.context doc inner) inner y := (hinside y).mp hy
  have hseen : s.Leads (engine.context doc outer) inner y :=
    (@Selector.ScopeFree.leads_seenFrom (engine.context doc inner) outer inner y s hfree).mpr hleads
  exact (hall y).mpr (hbelow.leads_of_below hb hseen)

end Engine

/-- The selector `b:not(> a)`. -/
def belowWithoutA : Selector :=
  ⟨[⟨[⟨.descendant,
    { typeTest := some ⟨none, some "b"⟩, pseudoClasses := [⟨.not, .selector childA⟩] }⟩]⟩]⟩

theorem scopeFree_belowWithoutA : belowWithoutA.ScopeFree := by
  refine .mk (fun p hp => ?_) (fun n hn => ?_)
  · rw [List.mem_singleton.mp hp]
    decide
  · cases List.mem_singleton.mp hn
    exact scopeFree_childA

theorem find_belowWithoutA_subset : doubledElements.Built ∧
    (∀ i, ({} : Engine).random i = ({} : Engine).random 0) ∧ belowWithoutA.ScopeFree ∧
    belowWithoutA.StartsBelow ∧ 2 ∈ doubledElements.descendants 0 ∧
    ∃ part whole, (({} : Engine).find doubledElements belowWithoutA [2]).answer {} = .ok part ∧
      (({} : Engine).find doubledElements belowWithoutA [0]).answer {} = .ok whole ∧
      3 ∈ part ∧ 3 ∈ whole ∧ 2 ∉ part := by
  have hbelow : belowWithoutA.StartsBelow := by
    intro g hg
    cases List.mem_singleton.mp hg
    exact ⟨_, _, rfl⟩
  have hd : 2 ∈ doubledElements.descendants 0 := by decide
  obtain ⟨part, whole, hpart, hwhole, hsubset⟩ := @Engine.find_subset_of_descendant
    doubledElements {} built_doubledElements (fun _ => rfl) belowWithoutA scopeFree_belowWithoutA
    hbelow 2 0 hd {} {}
  have hrun : (({} : Engine).find doubledElements belowWithoutA [2]).answer {} =
      .ok (doubledElements.inOrder [3]) := rfl
  cases Except.ok.inj (hpart.symm.trans hrun)
  have hthree : 3 ∈ doubledElements.inOrder [3] := Document.mem_inOrder.mpr (by decide)
  have htwo : 2 ∉ doubledElements.inOrder [3] := mt Document.mem_inOrder.mp (by decide)
  exact ⟨built_doubledElements, fun _ => rfl, scopeFree_belowWithoutA, hbelow, hd, _, whole, hpart,
    hwhole, hthree, hsubset hthree, htwo⟩

end DocumentQuery
