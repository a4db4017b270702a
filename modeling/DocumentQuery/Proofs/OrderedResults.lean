import DocumentQuery.Proofs.ReachedNodes

namespace DocumentQuery

open Query

namespace Engine

variable {engine : Engine} {doc : Document}

/-- What a search in a tree gives are nodes of the tree in document order. -/
theorem ensures_find_inOrder (h : doc.Linked) (selector : Selector) {scopes : List NodeId}
    (known : ∀ scope ∈ scopes, doc.contains scope = true) :
    (engine.find doc selector scopes).Ensures fun result => ∃ ids, ids.Nodup ∧
      (∀ x ∈ ids, x < doc.size) ∧
      (∀ x ∈ ids, doc.isElement x = true ∨ ∃ g ∈ selector.groups, g.steps = []) ∧
      result = .ok (doc.inOrder ids) := by
  rw [find_eq_of_known engine selector known]
  refine (ensures_foundFromScopes_reach h selector scopes).bind fun found hf =>
    ensures_pure ⟨distinct found, nodup_distinct found, fun x hx => ?_, fun x hx => ?_, rfl⟩
  · obtain ⟨scope, hs, g, -, hreach⟩ := hf x (mem_distinct.mp hx)
    rcases stepsReach_forward h hreach with ⟨-, rfl⟩ | ⟨-, he⟩
    · exact of_decide_eq_true (known x hs)
    · exact Document.lt_size_of_isElement he
  · obtain ⟨scope, -, g, hg, hreach⟩ := hf x (mem_distinct.mp hx)
    exact (stepsReach_forward h hreach).symm.imp And.right fun hstay => ⟨g, hg, hstay.1⟩

/-- Search results are in document order and without repeats, in whatever order they were
collected, and elements unless some group has no steps. -/
theorem find_strictly_ordered (built : doc.Built) (selector : Selector) {scopes : List NodeId}
    (known : ∀ scope ∈ scopes, doc.contains scope = true) (st : QueryState) :
    ∃ found, (engine.find doc selector scopes).answer st = .ok found ∧
      found.Pairwise (fun x y => doc.placeOf x < doc.placeOf y) ∧
      found.Pairwise doc.Before ∧ (∀ x ∈ found, doc.contains x = true) ∧
      (∀ ids : List NodeId, ids.Nodup → (∀ x, x ∈ ids ↔ x ∈ found) → doc.inOrder ids = found) ∧
      ((∀ g ∈ selector.groups, g.steps ≠ []) → ∀ x ∈ found, doc.isElement x = true) := by
  have hlinked := built.linked
  obtain ⟨ids, hn, hin, helement, hfind⟩ := ensures_find_inOrder hlinked selector known st
  have hrises := hlinked.pairwise_inOrder hn hin
  refine ⟨_, hfind, hrises, ?_, ?_, ?_, ?_⟩
  · refine hrises.imp_of_mem fun hx hy hlt => ?_
    have hx := hin _ (Document.mem_inOrder.mp hx)
    have hy := hin _ (Document.mem_inOrder.mp hy)
    exact (hlinked.placeOf_lt_iff hx hy).mp hlt
  · exact fun x hx => decide_eq_true (hin x (Document.mem_inOrder.mp hx))
  · intro others ho hsame
    have hmem : ∀ x, x ∈ others ↔ x ∈ ids := fun x => (hsame x).trans Document.mem_inOrder
    have hother := hlinked.pairwise_inOrder ho fun x hx => hin x ((hmem x).mp hx)
    refine Document.eq_of_pairwise_placeOf hother hrises fun x => ?_
    rw [Document.mem_inOrder, Document.mem_inOrder, hmem]
  · intro hsteps x hx
    refine (helement x (Document.mem_inOrder.mp hx)).resolve_right ?_
    rintro ⟨g, hg, he⟩
    exact hsteps g hg he

end Engine

/-- Two trees of elements, 1 below 2 below the document node and, apart from it, 3 below 4. -/
def scatteredElements : Document :=
  let named (name : String) : NodeKind := .element ⟨name, none, none, .empty⟩
  let b : Node := { kind := named "b", parent := some 2 }
  let a : Node := { kind := named "a", parent := some 0, children := [1] }
  let d : Node := { kind := named "d", parent := some 4 }
  ⟨#[{ kind := .document, children := [2] }, b, a, d, { kind := named "c", children := [3] }]⟩

theorem built_scatteredElements : scatteredElements.Built := by
  let named (name : String) : NodeKind := .element ⟨name, none, none, .empty⟩
  have hnodes : Document.Built ⟨#[{ kind := .document }, { kind := named "b" },
      { kind := named "a" }, { kind := named "d" }, { kind := named "c" }]⟩ :=
    .alloc (.alloc (.alloc (.alloc .blank _) _) _) _
  have hb : Document.Built ⟨#[{ kind := .document },
      { kind := named "b", parent := some 2 }, { kind := named "a", children := [1] },
      { kind := named "d" }, { kind := named "c" }]⟩ :=
    @Document.Built.append _ _ 2 1 hnodes (by decide) rfl (by decide) rfl rfl
  have ha : Document.Built ⟨#[{ kind := .document, children := [2] },
      { kind := named "b", parent := some 2 },
      { kind := named "a", parent := some 0, children := [1] },
      { kind := named "d" }, { kind := named "c" }]⟩ :=
    @Document.Built.append _ _ 0 2 hb (by decide) rfl (by decide) rfl rfl
  exact @Document.Built.append _ _ 4 3 ha (by decide) rfl (by decide) rfl rfl

theorem inOrder_scatteredElements : scatteredElements.inOrder [3, 2, 1] = [2, 1, 3] := by
  have hplaces : scatteredElements.places = [0, 2, 1, 3, 4] := by decide +kernel
  simp [Document.inOrder, hplaces, List.mergeSort]

/-- The group `*`. -/
def everyElement : Group :=
  ⟨[⟨.descendant, { typeTest := some ⟨none, none⟩ }⟩]⟩

theorem find_everyElement_ordered : scatteredElements.Built ∧
    (∀ scope ∈ [4, 0], scatteredElements.contains scope = true) ∧
    (({} : Engine).find scatteredElements ⟨[everyElement]⟩ [4, 0]).answer {} = .ok [2, 1, 3] ∧
    [2, 1, 3].Pairwise scatteredElements.Before ∧
    scatteredElements.inOrder [1, 2, 3] = [2, 1, 3] := by
  have hknown : ∀ scope ∈ [4, 0], scatteredElements.contains scope = true := by decide
  obtain ⟨found, hfind, -, hbefore, -, hsame, -⟩ := @Engine.find_strictly_ordered {} _
    built_scatteredElements ⟨[everyElement]⟩ _ hknown {}
  have hrun : (({} : Engine).find scatteredElements ⟨[everyElement]⟩ [4, 0]).answer {} =
      .ok (scatteredElements.inOrder [3, 2, 1]) := rfl
  rw [inOrder_scatteredElements] at hrun
  cases Except.ok.inj (hfind.symm.trans hrun)
  have hmem : ∀ x, x ∈ [1, 2, 3] ↔ x ∈ [2, 1, 3] := fun x => (List.Perm.swap 2 1 [3]).mem_iff
  exact ⟨built_scatteredElements, hknown, hrun, hbefore, hsame _ (by decide) hmem⟩

namespace Engine

variable {engine : Engine} {doc : Document}

theorem ensures_find_rising (built : doc.Built) (steady : ∀ i, engine.random i = engine.random 0)
    (selector : Selector) {scopes : List NodeId}
    (known : ∀ scope ∈ scopes, doc.contains scope = true) :
    (engine.find doc selector scopes).Ensures fun result => ∃ found, result = .ok found ∧
      found.Pairwise (fun x y => doc.placeOf x < doc.placeOf y) ∧
      ∀ y, y ∈ found ↔ ∃ scope ∈ scopes, ∃ g ∈ selector.groups,
        g.Leads (engine.context doc scope) scope y := by
  intro st
  obtain ⟨ids, hn, hin, -, hfind⟩ := ensures_find_inOrder built.linked selector known st
  obtain ⟨found, hsame, hfound⟩ := ensures_find built steady selector known st
  cases Except.ok.inj (hsame.symm.trans hfind)
  exact ⟨_, hfind, built.linked.pairwise_inOrder hn hin, hfound⟩

theorem mem_find_single_iff (built : doc.Built) (steady : ∀ i, engine.random i = engine.random 0)
    (g : Group) {scope : NodeId} (known : doc.contains scope = true) {st : QueryState}
    {y : NodeId} :
    (∃ part, (engine.find doc ⟨[g]⟩ [scope]).answer st = .ok part ∧ y ∈ part) ↔
      g.Leads (engine.context doc scope) scope y := by
  have hone : ∀ s ∈ [scope], doc.contains s = true := by simpa using known
  obtain ⟨part, hp, hmem⟩ := ensures_find built steady ⟨[g]⟩ hone st
  simp [hp, hmem]

theorem find_of_unknown (engine : Engine) (doc : Document) (selector : Selector)
    {before after : List NodeId} {unknown : NodeId}
    (hknown : ∀ scope ∈ before, doc.contains scope = true)
    (hunknown : doc.contains unknown = false) :
    engine.find doc selector (before ++ unknown :: after) =
      return .error (.unknownNode unknown) := by
  have hfirst : (before ++ unknown :: after).find? (fun scope => !doc.contains scope) =
      some unknown := by
    rw [List.find?_append, find?_not_contains hknown, Option.none_or,
      List.find?_cons_of_pos (by simp [hunknown])]
  rw [find, hfirst]

/-- A search with several groups from several scope nodes joins the searches with one group from
one scope node. Neither the order of groups and scope nodes nor repetitions count. -/
theorem find_joins (built : doc.Built) (steady : ∀ i, engine.random i = engine.random 0)
    (selector : Selector) (scopes : List NodeId) (st : QueryState) :
    (∀ before unknown after, scopes = before ++ unknown :: after →
      (∀ scope ∈ before, doc.contains scope = true) → doc.contains unknown = false →
      (engine.find doc selector scopes).answer st = .error (.unknownNode unknown)) ∧
    ((∀ scope ∈ scopes, doc.contains scope = true) →
      ∃ found, (engine.find doc selector scopes).answer st = .ok found ∧
        found.Pairwise (fun x y => doc.placeOf x < doc.placeOf y) ∧
        (∀ st' y, y ∈ found ↔ ∃ g ∈ selector.groups, ∃ scope ∈ scopes, ∃ part,
          (engine.find doc ⟨[g]⟩ [scope]).answer st' = .ok part ∧ y ∈ part) ∧
        ∀ (other : Selector) (others : List NodeId) (st' : QueryState),
          (∀ g, g ∈ other.groups ↔ g ∈ selector.groups) → (∀ x, x ∈ others ↔ x ∈ scopes) →
          (engine.find doc other others).answer st' = .ok found) := by
  constructor
  · rintro before unknown after rfl hknown hunknown
    rw [find_of_unknown engine doc selector hknown hunknown]
    rfl
  · intro known
    obtain ⟨found, hfind, hrises, hfound⟩ := ensures_find_rising built steady selector known st
    refine ⟨found, hfind, hrises, fun st' y => ?_, fun other others st' hg hs => ?_⟩
    · rw [hfound]
      constructor
      · rintro ⟨scope, hs, g, hg, hl⟩
        exact ⟨g, hg, scope, hs, (mem_find_single_iff built steady g (known scope hs)).mpr hl⟩
      · rintro ⟨g, hg, scope, hs, hp⟩
        exact ⟨scope, hs, g, hg, (mem_find_single_iff built steady g (known scope hs)).mp hp⟩
    · have hknown : ∀ scope ∈ others, doc.contains scope = true :=
        fun scope hm => known scope ((hs scope).mp hm)
      obtain ⟨result, hr, hresult, hmem⟩ := ensures_find_rising built steady other hknown st'
      rw [hr, Document.eq_of_pairwise_placeOf hresult hrises fun y => ?_]
      simp only [hmem, hfound, hg, hs]

end Engine

/-- The group `> *`. -/
def everyChild : Group :=
  ⟨[⟨.child, { typeTest := some ⟨none, none⟩ }⟩]⟩

theorem find_everyElement_joins : scatteredElements.Built ∧
    (∀ i, ({} : Engine).random i = ({} : Engine).random 0) ∧
    (({} : Engine).find scatteredElements ⟨[everyElement]⟩ [4, 9, 0]).answer {} =
      .error (.unknownNode 9) ∧
    (({} : Engine).find scatteredElements ⟨[everyChild, everyElement, everyChild]⟩
      [0, 4, 0]).answer {} = .ok [2, 1, 3] := by
  have hbuilt := built_scatteredElements
  have hjoins := fun scopes => @Engine.find_joins {} _ hbuilt (fun _ => rfl)
    ⟨[everyElement, everyChild]⟩ scopes {}
  obtain ⟨found, hfind, -, -, hsame⟩ := (hjoins [4, 0]).2 (by decide)
  have hrun : (({} : Engine).find scatteredElements ⟨[everyElement, everyChild]⟩
      [4, 0]).answer {} = .ok (scatteredElements.inOrder [3, 2, 1]) := rfl
  rw [inOrder_scatteredElements] at hrun
  cases Except.ok.inj (hfind.symm.trans hrun)
  have hunknown := (hjoins [4, 9, 0]).1 [4] 9 [0] rfl (by decide) rfl
  have hgroups : ∀ g, g ∈ [everyChild, everyElement, everyChild] ↔
      g ∈ [everyElement, everyChild] := by simp [or_comm]
  have hscopes : ∀ x, x ∈ [0, 4, 0] ↔ x ∈ [4, 0] := by simp [or_comm]
  exact ⟨hbuilt, fun _ => rfl, hunknown, hsame _ _ {} hgroups hscopes⟩

end DocumentQuery
