import DocumentQuery.Proofs.DocumentPlaces
import DocumentQuery.Proofs.LinkAgreement

namespace DocumentQuery

namespace Document

variable {doc : Document} {c x y : NodeId} {stack seen : List NodeId}

/-- What a walk visits that keeps the nodes still to visit on a stack, the next one on top: the
children of a visited node take its place, the first one on top. -/
inductive Walks (doc : Document) : List NodeId → List NodeId → Prop where
  | done : Walks doc [] []
  | visit {x : NodeId} {stack seen : List NodeId}
      (rest : Walks doc (doc.children x ++ stack) seen) : Walks doc (x :: stack) (x :: seen)

theorem Walks.unique {others : List NodeId} (h : doc.Walks stack seen)
    (ho : doc.Walks stack others) : seen = others := by
  induction h generalizing others with
  | done =>
    cases ho
    rfl
  | visit _ ih =>
    cases ho with
    | visit rest => rw [ih rest]

/-- A walk that is known from each of some nodes is known from all of them in a row. -/
theorem walks_append {below : NodeId → List NodeId} {ids : List NodeId}
    (hb : ∀ c ∈ ids, ∀ stack seen, doc.Walks stack seen →
      doc.Walks (c :: stack) (c :: (below c ++ seen)))
    (h : doc.Walks stack seen) :
    doc.Walks (ids ++ stack) (ids.flatMap (fun c => c :: below c) ++ seen) := by
  induction ids with
  | nil => exact h
  | cons c ids ih =>
    have hrest := ih fun d hd => hb d (List.mem_cons_of_mem c hd)
    simpa using hb c List.mem_cons_self _ _ hrest

namespace Linked

theorem mem_descendants_iff_child (h : doc.Linked) :
    y ∈ doc.descendants x ↔ ∃ c ∈ doc.children x, y ∈ c :: doc.descendants c := by
  have hb : doc.Below y x ↔ ∃ c, doc.Within y c ∧ doc.parent? c = some x :=
    Relation.TransGen.tail'_iff
  simp only [List.mem_cons, h.mem_descendants, h.mem_children, ← within_iff, hb, and_comm]

theorem pairwise_cons_descendants (h : doc.Linked) (x : NodeId) :
    (x :: doc.descendants x).Pairwise doc.Precedes :=
  List.pairwise_cons.mpr
    ⟨fun _ hy => .inl (h.mem_descendants.mp hy), h.pairwise_descendants x⟩

/-- Lists in tree order with the same members are the same. -/
theorem eq_of_pairwise_precedes (h : doc.Linked) {xs ys : List NodeId}
    (hx : xs.Pairwise doc.Precedes) (hy : ys.Pairwise doc.Precedes)
    (hm : ∀ x, x ∈ xs ↔ x ∈ ys) : xs = ys := by
  have hirrefl : Std.Irrefl doc.Precedes := ⟨fun _ hp => h.precedes_asymm hp hp⟩
  have hantisymm : Std.Antisymm doc.Precedes := ⟨fun _ _ hp hq => absurd hq (h.precedes_asymm hp)⟩
  exact List.Pairwise.eq_of_mem_iff hx hy hm

/-- What lies below a node is listed child by child, each child before what lies below it. -/
theorem descendants_eq (h : doc.Linked) (x : NodeId) :
    doc.descendants x = (doc.children x).flatMap fun c => c :: doc.descendants c := by
  have hwithin : ∀ c, ∀ y ∈ c :: doc.descendants c, doc.Within y c := by
    intro c y hy
    rw [within_iff, ← h.mem_descendants]
    exact List.mem_cons.mp hy
  refine h.eq_of_pairwise_precedes (h.pairwise_descendants x)
    (pairwise_flatMap_children h.pairwise_cons_descendants hwithin x) fun y => ?_
  rw [h.mem_descendants_iff_child, List.mem_flatMap]

theorem length_descendants_lt (h : doc.Linked) (hc : c ∈ doc.children x) :
    (doc.descendants c).length < (doc.descendants x).length := by
  obtain ⟨before, rest, he⟩ := List.append_of_mem hc
  have hlength := congrArg List.length (h.descendants_eq x)
  rw [he, List.flatMap_append, List.flatMap_cons] at hlength
  simp only [List.length_append, List.length_cons] at hlength
  omega

/-- A walk that comes to a node goes through all that lies below it before it goes on. -/
theorem walks_cons (h : doc.Linked) (x : NodeId) {stack seen : List NodeId}
    (hw : doc.Walks stack seen) : doc.Walks (x :: stack) (x :: (doc.descendants x ++ seen)) := by
  refine .visit ?_
  rw [h.descendants_eq]
  exact walks_append (fun c _ _ _ => h.walks_cons c) hw
termination_by (doc.descendants x).length
decreasing_by exact h.length_descendants_lt ‹_›

theorem walks_iff (h : doc.Linked) :
    doc.Walks (doc.children x) seen ↔ seen = doc.descendants x := by
  have hw : doc.Walks (doc.children x) (doc.descendants x) := by
    rw [h.descendants_eq]
    simpa using walks_append (fun c _ _ _ => h.walks_cons c) (.done : doc.Walks [] [])
  exact ⟨fun hs => hs.unique hw, fun he => he ▸ hw⟩

theorem mem_cons_descendants (h : doc.Linked) :
    y ∈ x :: doc.descendants x ↔ doc.Within y x := by
  rw [List.mem_cons, h.mem_descendants, within_iff]

end Linked

/-- In every tree the walk that starts from the children of a node ends: it lists what lies below
the node child by child, each node once, and that is what has the node among its ancestors. Places
number the attached nodes in that order, from the document node on, and then the others by their
own numbers. -/
theorem Built.tree_order (built : doc.Built) :
    (∀ a, (∀ seen, doc.Walks (doc.children a) seen ↔ seen = doc.descendants a) ∧
      doc.descendants a = (doc.children a).flatMap (fun c => c :: doc.descendants c) ∧
      (doc.descendants a).Nodup ∧ ∀ d, d ∈ doc.descendants a ↔ doc.isDescendant d a = true) ∧
    doc.places = (List.range doc.size).map doc.placeOf ∧
    doc.places.Perm (List.range doc.size) ∧ doc.placeOf 0 = 0 ∧
    (∀ a ∈ doc.attached, ∀ d ∈ doc.descendants a, doc.placeOf a < doc.placeOf d) ∧
    (∀ c between d, doc.Follows c between d → c ∈ doc.attached →
      ∀ x ∈ c :: doc.descendants c, ∀ y ∈ d :: doc.descendants d,
        doc.placeOf x < doc.placeOf y) ∧
    (∀ x ∈ doc.attached, ∀ y < doc.size, y ∉ doc.attached → doc.placeOf x < doc.placeOf y) ∧
    ∀ x y, x ∉ doc.attached → y ∉ doc.attached → x < y → y < doc.size →
      doc.placeOf x < doc.placeOf y := by
  have hlinked := built.linked
  have hwithin : ∀ x, x ∈ doc.attached ↔ doc.Within x 0 := fun _ => hlinked.mem_attached_iff_within
  refine ⟨fun a => ⟨fun _ => hlinked.walks_iff, hlinked.descendants_eq a, ?_, fun d => ?_⟩,
    hlinked.places_eq, hlinked.places_perm, hlinked.placeOf_zero, ?_, ?_, ?_, ?_⟩
  · exact hlinked.nodup_of_pairwise (hlinked.pairwise_descendants a)
  · rw [hlinked.mem_descendants, ← hlinked.mem_ancestors, isDescendant, List.contains_iff_mem]
  · intro a ha d hd
    have hb := hlinked.mem_descendants.mp hd
    exact hlinked.placeOf_lt_of_precedes ha ((hlinked.mem_attached_of_below hb).mpr ha) (.inl hb)
  · intro c between d hf hc x hx y hy
    have hx := hlinked.mem_cons_descendants.mp hx
    have hy := hlinked.mem_cons_descendants.mp hy
    have hd := (hlinked.mem_attached_of_follows hf).mpr hc
    exact hlinked.placeOf_lt_of_precedes ((hlinked.mem_attached_of_within hx).mpr hc)
      ((hlinked.mem_attached_of_within hy).mpr hd) (.inr ⟨c, between, d, hf, hx, hy⟩)
  · intro x hx y hy hn
    rw [hlinked.placeOf_lt_iff (hlinked.lt_size_of_mem_attached hx) hy]
    exact .apart ((hwithin x).mp hx) ((hwithin y).not.mp hn)
  · intro x y hx hy hlt hsize
    rw [hlinked.placeOf_lt_iff (Nat.lt_trans hlt hsize) hsize]
    exact .numbered ((hwithin x).not.mp hx) ((hwithin y).not.mp hy) hlt

end Document

theorem order_lateBranch : lateBranch.Built ∧
    lateBranch.Walks [3, 6] [3, 1, 2, 6] ∧ lateBranch.descendants 3 = [1, 2] ∧
    lateBranch.places = [0, 2, 3, 1, 5, 6, 4] ∧ lateBranch.placeOf 2 < lateBranch.placeOf 6 ∧
    lateBranch.placeOf 6 < lateBranch.placeOf 4 ∧ lateBranch.placeOf 4 < lateBranch.placeOf 5 := by
  obtain ⟨hlists, -, -, -, -, hsiblings, hapart, hnumbered⟩ := built_lateBranch.tree_order
  obtain ⟨hwalk, hroot, -⟩ := hlists 0
  have hchildren : lateBranch.children 0 = [3, 6] := rfl
  have hbelow : lateBranch.descendants 0 = [3, 1, 2, 6] := rfl
  refine ⟨built_lateBranch, hchildren ▸ (hwalk _).mpr hbelow.symm, rfl, by decide +kernel,
    hsiblings 3 [] 6 ⟨0, [], [], rfl⟩ (by decide) 2 (by decide) 6 (by decide),
    hapart 6 (by decide) 4 (by decide) (by decide),
    hnumbered 4 5 (by decide) (by decide) (by decide) (by decide)⟩

end DocumentQuery
