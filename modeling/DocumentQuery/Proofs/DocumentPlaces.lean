import Mathlib.Data.List.Perm.Subperm
import Mathlib.Data.List.Sort
import DocumentQuery.Proofs.TreeOrder

namespace DocumentQuery

/-- A node without a place gets the next number after those of the nodes before it that had
none either. -/
theorem getElem?_fillPlaces (next : Nat) (places : List (Option Nat)) (i : Nat) :
    (fillPlaces next places)[i]? =
      places[i]?.map fun place => place.getD (next + (places.take i).countP Option.isNone) := by
  induction places generalizing next i with
  | nil => rfl
  | cons place places ih =>
    cases i with
    | zero => cases place <;> rfl
    | succ i =>
      cases place with
      | some k =>
        rw [fillPlaces, List.getElem?_cons_succ, ih]
        simp
      | none =>
        rw [fillPlaces, List.getElem?_cons_succ, ih]
        simp [Nat.add_assoc, Nat.add_comm 1]

namespace Document

variable {doc : Document} {x y : NodeId}

theorem getElem?_foldl_zipIdx {ids : List NodeId} (hn : ids.Nodup) (k : Nat)
    (places : Array (Option Nat)) (x : NodeId) :
    ((ids.zipIdx k).foldl (fun places (id, place) => places.setIfInBounds id (some place))
        places)[x]? =
      places[x]?.map fun place => if x ∈ ids then some (k + ids.idxOf x) else place := by
  induction ids generalizing k places with
  | nil => simp
  | cons id ids ih =>
    obtain ⟨hid, hn⟩ := List.nodup_cons.mp hn
    rw [List.zipIdx_cons, List.foldl_cons, ih hn, Array.getElem?_setIfInBounds]
    by_cases he : id = x
    · subst he
      by_cases hs : id < places.size <;> simp [hid, hs]
    · have hx : x ≠ id := Ne.symm he
      simp only [if_neg he, List.mem_cons, hx, false_or, List.idxOf_cons_ne _ he]
      congr 1
      funext place
      rw [Nat.succ_eq_add_one, Nat.add_right_comm, Nat.add_assoc]

/-- The place of a node that is not attached comes after all that are, and after those of the
nodes with smaller numbers. -/
theorem Linked.getElem?_places (h : doc.Linked) (hx : x < doc.size) :
    doc.places[x]? = some (if x ∈ doc.attached then doc.attached.idxOf x
      else doc.attached.length + (List.range x).countP (· ∉ doc.attached)) := by
  have hplace : ∀ y < doc.size, doc.attachedPlaces.toList[y]? =
      some (if y ∈ doc.attached then some (doc.attached.idxOf y) else none) := by
    intro y hy
    rw [Array.getElem?_toList, attachedPlaces, getElem?_foldl_zipIdx h.nodup_attached]
    simp [hy]
  have htake : (doc.attachedPlaces.toList.take x).countP Option.isNone =
      (List.range x).countP (· ∉ doc.attached) := by
    have heq : doc.attachedPlaces.toList.take x = (List.range x).map fun y =>
        if y ∈ doc.attached then some (doc.attached.idxOf y) else none := by
      refine List.ext_getElem? fun i => ?_
      rw [List.getElem?_take, List.getElem?_map]
      split
      next hi => rw [hplace i (Nat.lt_trans hi hx), List.getElem?_range hi, Option.map_some]
      next hi => simp [hi]
    rw [heq, List.countP_map]
    congr 1
    funext y
    by_cases hy : y ∈ doc.attached <;> simp [hy]
  rw [places, getElem?_fillPlaces, hplace x hx, htake, Option.map_some]
  split <;> rfl

/-- The place of a node, by which nodes are put in order. -/
def placeOf (doc : Document) (x : NodeId) : Nat :=
  doc.places.toArray.getD x doc.size

theorem Linked.placeOf_eq (h : doc.Linked) (hx : x < doc.size) :
    doc.placeOf x = if x ∈ doc.attached then doc.attached.idxOf x
      else doc.attached.length + (List.range x).countP (· ∉ doc.attached) := by
  have hplace := h.getElem?_places hx
  rw [placeOf, Array.getD_eq_getD_getElem?, List.getElem?_toArray, hplace, Option.getD_some]

/-- Document order: the document node and what lies below it in tree order, and after them the
other nodes in the order of their numbers. -/
inductive Before (doc : Document) (x y : NodeId) : Prop where
  | inTree (hx : doc.Within x 0) (hy : doc.Within y 0) (h : doc.Precedes x y)
  | apart (hx : doc.Within x 0) (hy : ¬doc.Within y 0)
  | numbered (hx : ¬doc.Within x 0) (hy : ¬doc.Within y 0) (h : x < y)

theorem before_iff_precedes (hx : doc.Within x 0) (hy : doc.Within y 0) :
    doc.Before x y ↔ doc.Precedes x y := by
  refine ⟨fun h => ?_, .inTree hx hy⟩
  cases h with
  | inTree _ _ h => exact h
  | apart _ hn => exact absurd hy hn
  | numbered hn _ _ => exact absurd hx hn

theorem before_iff_lt (hx : ¬doc.Within x 0) (hy : ¬doc.Within y 0) :
    doc.Before x y ↔ x < y := by
  refine ⟨fun h => ?_, .numbered hx hy⟩
  cases h with
  | inTree hw _ _ | apart hw _ => exact absurd hw hx
  | numbered _ _ h => exact h

theorem not_before (hx : ¬doc.Within x 0) (hy : doc.Within y 0) : ¬doc.Before x y := by
  rintro (⟨hw, -, -⟩ | ⟨hw, -⟩ | ⟨-, hn, -⟩)
  · exact hx hw
  · exact hx hw
  · exact hn hy

theorem idxOf_lt_idxOf_iff {ids : List NodeId} {before : NodeId → NodeId → Prop}
    (hp : ids.Pairwise before) (asymm : ∀ x y, before x y → ¬before y x) (hx : x ∈ ids)
    (hy : y ∈ ids) : ids.idxOf x < ids.idxOf y ↔ before x y := by
  have hlt : ∀ x y, x ∈ ids → y ∈ ids → ids.idxOf x < ids.idxOf y → before x y := by
    intro x y hx hy hlt
    have hb := List.pairwise_iff_getElem.mp hp _ _ (List.idxOf_lt_length_of_mem hx)
      (List.idxOf_lt_length_of_mem hy) hlt
    rwa [List.getElem_idxOf, List.getElem_idxOf] at hb
  refine ⟨hlt x y hx hy, fun hb => ?_⟩
  rcases Nat.lt_trichotomy (ids.idxOf x) (ids.idxOf y) with h | h | h
  · exact h
  · have he : x = y := (List.idxOf_inj hx).mp h
    exact absurd (he ▸ hb) (asymm x y hb)
  · exact absurd (hlt y x hy hx h) (asymm x y hb)

theorem countP_range_lt {p : Nat → Bool} (hx : p x = true) (h : x < y) :
    (List.range x).countP p < (List.range y).countP p := by
  have hle := (List.range_sublist.mpr h).countP_le (p := p)
  rw [List.range_succ, List.countP_append, List.countP_singleton, if_pos hx] at hle
  omega

/-- Nodes are numbered in document order. -/
theorem Linked.placeOf_lt_iff (h : doc.Linked) (hx : x < doc.size) (hy : y < doc.size) :
    doc.placeOf x < doc.placeOf y ↔ doc.Before x y := by
  rw [h.placeOf_eq hx, h.placeOf_eq hy]
  by_cases hax : x ∈ doc.attached <;> by_cases hay : y ∈ doc.attached
  · rw [if_pos hax, if_pos hay,
      before_iff_precedes (h.mem_attached_iff_within.mp hax) (h.mem_attached_iff_within.mp hay)]
    exact idxOf_lt_idxOf_iff h.pairwise_attached (fun _ _ => h.precedes_asymm) hax hay
  · have hlt := List.idxOf_lt_length_of_mem hax
    rw [if_pos hax, if_neg hay]
    exact iff_of_true (Nat.lt_add_right _ hlt)
      (.apart (h.mem_attached_iff_within.mp hax) (h.mem_attached_iff_within.not.mp hay))
  · have hlt := List.idxOf_lt_length_of_mem hay
    rw [if_neg hax, if_pos hay]
    exact iff_of_false (by omega)
      (not_before (h.mem_attached_iff_within.not.mp hax) (h.mem_attached_iff_within.mp hay))
  · have hnx := h.mem_attached_iff_within.not.mp hax
    have hny := h.mem_attached_iff_within.not.mp hay
    rw [if_neg hax, if_neg hay, before_iff_lt hnx hny, Nat.add_lt_add_iff_left]
    refine ⟨fun hlt => Nat.lt_of_not_le fun hle => ?_, countP_range_lt (decide_eq_true hax)⟩
    exact Nat.not_lt.mpr (List.range_sublist.mpr hle).countP_le hlt

/-- No two nodes have the same place. -/
theorem Linked.eq_of_placeOf_eq (h : doc.Linked) (hx : x < doc.size) (hy : y < doc.size)
    (he : doc.placeOf x = doc.placeOf y) : x = y := by
  have hxy : ¬doc.Before x y := by
    rw [← h.placeOf_lt_iff hx hy, he]
    exact Nat.lt_irrefl _
  have hyx : ¬doc.Before y x := by
    rw [← h.placeOf_lt_iff hy hx, he]
    exact Nat.lt_irrefl _
  by_cases hax : x ∈ doc.attached <;> by_cases hay : y ∈ doc.attached
  · rw [h.placeOf_eq hx, h.placeOf_eq hy, if_pos hax, if_pos hay] at he
    exact (List.idxOf_inj hax).mp he
  · have hbefore : doc.Before x y :=
      .apart (h.mem_attached_iff_within.mp hax) (h.mem_attached_iff_within.not.mp hay)
    exact absurd hbefore hxy
  · have hbefore : doc.Before y x :=
      .apart (h.mem_attached_iff_within.mp hay) (h.mem_attached_iff_within.not.mp hax)
    exact absurd hbefore hyx
  · have hnx := h.mem_attached_iff_within.not.mp hax
    have hny := h.mem_attached_iff_within.not.mp hay
    rw [before_iff_lt hnx hny] at hxy
    rw [before_iff_lt hny hnx] at hyx
    exact Nat.le_antisymm (Nat.le_of_not_lt hyx) (Nat.le_of_not_lt hxy)

theorem Linked.placeOf_zero (h : doc.Linked) : doc.placeOf 0 = 0 := by
  have hroot : 0 ∈ doc.attached := List.mem_cons_self
  rw [h.placeOf_eq h.notEmpty, if_pos hroot, attached, List.idxOf_cons_self]

theorem Linked.lt_size_of_mem_attached (h : doc.Linked) (hx : x ∈ doc.attached) :
    x < doc.size := by
  rcases List.mem_cons.mp hx with rfl | hx
  · exact h.notEmpty
  · obtain ⟨p, hp, -⟩ := below_iff.mp (h.mem_descendants.mp hx)
    exact lt_size_of_parent? hp

theorem Linked.length_attached (h : doc.Linked) :
    doc.attached.length = (List.range doc.size).countP (· ∈ doc.attached) := by
  have hperm : doc.attached.Perm ((List.range doc.size).filter (· ∈ doc.attached)) := by
    refine (List.perm_ext_iff_of_nodup h.nodup_attached (List.nodup_range.filter _)).mpr ?_
    intro x
    simpa using h.lt_size_of_mem_attached
  rw [hperm.length_eq, List.countP_eq_length_filter]

/-- Attached nodes are numbered in tree order. -/
theorem Linked.placeOf_lt_of_precedes (h : doc.Linked) (hx : x ∈ doc.attached)
    (hy : y ∈ doc.attached) (hp : doc.Precedes x y) : doc.placeOf x < doc.placeOf y := by
  rw [h.placeOf_lt_iff (h.lt_size_of_mem_attached hx) (h.lt_size_of_mem_attached hy)]
  exact .inTree (h.mem_attached_iff_within.mp hx) (h.mem_attached_iff_within.mp hy) hp

theorem Linked.size_eq_length_attached_add (h : doc.Linked) :
    doc.size = doc.attached.length + (List.range doc.size).countP (· ∉ doc.attached) := by
  have hcount := (List.range doc.size).length_eq_countP_add_countP (· ∈ doc.attached)
  rw [List.length_range, ← h.length_attached] at hcount
  simpa using hcount

theorem Linked.placeOf_lt_size (h : doc.Linked) (hx : x < doc.size) :
    doc.placeOf x < doc.size := by
  have hsize := h.size_eq_length_attached_add
  rw [h.placeOf_eq hx]
  split
  next ha =>
    have hlt := List.idxOf_lt_length_of_mem ha
    omega
  next ha =>
    have hlt : (List.range x).countP (· ∉ doc.attached) <
        (List.range doc.size).countP (· ∉ doc.attached) := countP_range_lt (decide_eq_true ha) hx
    omega

theorem Linked.places_eq (h : doc.Linked) :
    doc.places = (List.range doc.size).map doc.placeOf := by
  refine List.ext_getElem? fun x => ?_
  rw [List.getElem?_map]
  by_cases hx : x < doc.size
  · rw [h.getElem?_places hx, List.getElem?_range hx, Option.map_some, h.placeOf_eq hx]
  · rw [places, getElem?_fillPlaces, Array.getElem?_toList, attachedPlaces,
      getElem?_foldl_zipIdx h.nodup_attached]
    simp [hx]

/-- Each place from zero on, up to the number of nodes, is the place of one node. -/
theorem Linked.places_perm (h : doc.Linked) : doc.places.Perm (List.range doc.size) := by
  have hnodup : doc.places.Nodup := by
    rw [h.places_eq]
    refine List.nodup_range.map_on fun x hx y hy he => ?_
    exact h.eq_of_placeOf_eq (List.mem_range.mp hx) (List.mem_range.mp hy) he
  have hsub : doc.places ⊆ List.range doc.size := by
    intro place hp
    rw [h.places_eq] at hp
    obtain ⟨x, hx, rfl⟩ := List.mem_map.mp hp
    exact List.mem_range.mpr (h.placeOf_lt_size (List.mem_range.mp hx))
  have hlength : (List.range doc.size).length ≤ doc.places.length := by
    rw [h.places_eq, List.length_map]
  exact (List.subperm_of_subset hnodup hsub).perm_of_length_le hlength

theorem inOrder_eq (doc : Document) (ids : List NodeId) :
    doc.inOrder ids = ids.mergeSort fun x y => doc.placeOf x ≤ doc.placeOf y :=
  rfl

theorem mem_inOrder {ids : List NodeId} : x ∈ doc.inOrder ids ↔ x ∈ ids :=
  List.mem_mergeSort

/-- Nodes in document order stand at rising places. -/
theorem Linked.pairwise_inOrder (h : doc.Linked) {ids : List NodeId} (hn : ids.Nodup)
    (hi : ∀ x ∈ ids, x < doc.size) :
    (doc.inOrder ids).Pairwise fun x y => doc.placeOf x < doc.placeOf y := by
  have hle : (doc.inOrder ids).Pairwise fun x y => doc.placeOf x ≤ doc.placeOf y := by
    rw [inOrder_eq]
    refine (List.pairwise_mergeSort ?_ ?_ ids).imp fun hxy => of_decide_eq_true hxy
    · intro x y z hxy hyz
      exact decide_eq_true (Nat.le_trans (of_decide_eq_true hxy) (of_decide_eq_true hyz))
    · intro x y
      simpa using Nat.le_total (doc.placeOf x) (doc.placeOf y)
  have hne : (doc.inOrder ids).Nodup := (List.mergeSort_perm ids _).nodup_iff.mpr hn
  refine (hle.and hne).imp_of_mem fun hx hy hxy => Nat.lt_of_le_of_ne hxy.1 fun he => hxy.2 ?_
  exact h.eq_of_placeOf_eq (hi _ (mem_inOrder.mp hx)) (hi _ (mem_inOrder.mp hy)) he

/-- Lists with the same members at rising places are the same. -/
theorem eq_of_pairwise_placeOf {xs ys : List NodeId}
    (hx : xs.Pairwise fun x y => doc.placeOf x < doc.placeOf y)
    (hy : ys.Pairwise fun x y => doc.placeOf x < doc.placeOf y)
    (h : ∀ x, x ∈ xs ↔ x ∈ ys) : xs = ys := by
  let rises : NodeId → NodeId → Prop := fun x y => doc.placeOf x < doc.placeOf y
  have hirrefl : Std.Irrefl rises := ⟨fun x => Nat.lt_irrefl _⟩
  have hantisymm : Std.Antisymm rises := ⟨fun x y hxy hyx => absurd hxy (Nat.lt_asymm hyx)⟩
  exact List.Pairwise.eq_of_mem_iff (r := rises) hx hy h

end Document

end DocumentQuery
