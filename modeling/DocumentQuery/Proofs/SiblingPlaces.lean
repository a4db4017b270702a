import DocumentQuery.SiblingPosition
import DocumentQuery.Proofs.DocumentRelations

namespace DocumentQuery

/-- The place of a member in a list, from one on, counted from the start or from the end. -/
def ordinal (xs : List NodeId) (fromEnd : Bool) (x : NodeId) : Nat :=
  (if fromEnd then xs.reverse else xs).idxOf x + 1

section Ordinal

variable {xs before rest : List NodeId} {x : NodeId}

theorem idxOf_eq_iff (hn : xs.Nodup) {i : Nat} (hi : i < xs.length) (hx : x ∈ xs) :
    xs.idxOf x = i ↔ x = xs[i] := by
  constructor
  · rintro rfl
    exact (List.getElem_idxOf hi).symm
  · rintro rfl
    exact hn.idxOf_getElem i hi

theorem ordinal_start_eq_iff (hn : xs.Nodup) {i : Nat} (hi : i < xs.length) (hx : x ∈ xs) :
    ordinal xs false x = i + 1 ↔ x = xs[i] := by
  rw [ordinal, Nat.add_right_cancel_iff]
  exact idxOf_eq_iff hn hi hx

theorem ordinal_end_eq_iff (hn : xs.Nodup) {i : Nat} (hi : i < xs.length) (hx : x ∈ xs) :
    ordinal xs true x = xs.length - i ↔ x = xs[i] := by
  have hlast : xs.length - 1 - i < xs.reverse.length := by
    rw [List.length_reverse]
    omega
  have hplace := idxOf_eq_iff (List.nodup_reverse.mpr hn) hlast (List.mem_reverse.mpr hx)
  rw [List.getElem_reverse] at hplace
  have hsame : xs.length - 1 - (xs.length - 1 - i) = i := by omega
  simp only [hsame] at hplace
  rw [← hplace, ordinal, if_pos rfl]
  omega

theorem ordinal_le_length (fromEnd : Bool) (hx : x ∈ xs) : ordinal xs fromEnd x ≤ xs.length := by
  cases fromEnd with
  | false => exact List.idxOf_lt_length_of_mem hx
  | true =>
    have hlast := List.idxOf_lt_length_of_mem (List.mem_reverse.mpr hx)
    rw [List.length_reverse] at hlast
    exact hlast

theorem ordinal_append_cons (hn : (before ++ x :: rest).Nodup) (fromEnd : Bool) :
    ordinal (before ++ x :: rest) fromEnd x = 1 + (if fromEnd then rest else before).length := by
  have hbefore : x ∉ before := fun hm => List.disjoint_of_nodup_append hn hm List.mem_cons_self
  have hrest : x ∉ rest := (List.nodup_cons.mp hn.of_append_right).1
  cases fromEnd with
  | false =>
    rw [ordinal, if_neg Bool.false_ne_true, List.idxOf_append_of_notMem hbefore,
      List.idxOf_cons_self, if_neg Bool.false_ne_true]
    omega
  | true =>
    rw [ordinal, if_pos rfl, List.reverse_append, List.reverse_cons, List.append_assoc,
      List.idxOf_append_of_notMem (mt List.mem_reverse.mp hrest), List.singleton_append,
      List.idxOf_cons_self, List.length_reverse, if_pos rfl]
    omega

/-- A member that comes first from either end is alone. -/
theorem ordinal_eq_one_iff (hn : xs.Nodup) (hx : x ∈ xs) :
    (ordinal xs false x = 1 ∧ ordinal xs true x = 1) ↔ ∀ y ∈ xs, y = x := by
  obtain ⟨before, rest, rfl⟩ := List.append_of_mem hx
  have hothers := (List.nodup_cons.mp (List.nodup_middle.mp hn)).1
  rw [ordinal_append_cons hn, ordinal_append_cons hn]
  constructor
  · rintro ⟨hbefore, hrest⟩
    have hbefore : before = [] := List.length_eq_zero_iff.mp (by simpa using hbefore)
    have hrest : rest = [] := List.length_eq_zero_iff.mp (by simpa using hrest)
    simp [hbefore, hrest]
  · intro hall
    have hnone : before ++ rest = [] := by
      refine List.eq_nil_iff_forall_not_mem.mpr fun y hy => hothers ?_
      have hsame : y = x := hall y (by simpa [or_left_comm] using Or.inr (List.mem_append.mp hy))
      exact hsame ▸ hy
    obtain ⟨rfl, rfl⟩ := List.append_eq_nil_iff.mp hnone
    exact ⟨rfl, rfl⟩

end Ordinal

/-- The tag that a sibling of an element has to have to count for its position. -/
def Element.countedTag (e : Element) (sameType : Bool) : Option String :=
  if sameType then some e.tag else none

namespace Document

variable {doc : Document} {p x : NodeId} {e : Element} {tag : String}

/-- Whether a node is an element with a tag, up to the case of ASCII letters. -/
def isTagged (doc : Document) (tag : String) (x : NodeId) : Bool :=
  ((doc.element? x).map fun e => sameName tag e.tag).getD false

/-- The element children of a node in order, all of them or those with a tag. -/
def childrenTagged (doc : Document) (p : NodeId) : Option String → List NodeId
  | none => doc.elementChildren p
  | some tag => (doc.elementChildren p).filter (doc.isTagged tag)

theorem isTagged_iff : doc.isTagged tag x = true ↔
    ∃ e, doc.element? x = some e ∧ sameName tag e.tag = true := by
  cases h : doc.element? x <;> simp [isTagged, h]

/-- Two tags that some element has are the same up to the case of ASCII letters. -/
theorem childrenTagged_eq_of_isTagged (he : doc.element? x = some e)
    (hx : doc.isTagged tag x = true) (p : NodeId) :
    doc.childrenTagged p (some tag) = doc.childrenTagged p (some e.tag) := by
  obtain ⟨e', he', hsame⟩ := isTagged_iff.mp hx
  cases he.symm.trans he'
  have htag : doc.isTagged tag = doc.isTagged e.tag := by
    funext y
    simp only [isTagged, sameName, beq_iff_eq.mp hsame]
  rw [childrenTagged, childrenTagged, htag]

theorem childrenTagged_eq_filter (he : doc.element? x = some e) (sameType : Bool) (p : NodeId) :
    doc.childrenTagged p (e.countedTag sameType) =
      (doc.children p).filter (doc.counts x sameType) := by
  cases sameType with
  | false =>
    refine List.filter_congr fun y _ => ?_
    rw [isElement, counts]
    cases doc.element? y <;> rfl
  | true =>
    have hcounts : doc.childrenTagged p (e.countedTag true) =
        ((doc.children p).filter doc.isElement).filter (doc.isTagged e.tag) := rfl
    rw [hcounts, List.filter_filter]
    refine List.filter_congr fun y _ => ?_
    rw [isTagged, isElement, counts]
    cases doc.element? y <;> simp [he]

theorem counts_self (he : doc.element? x = some e) (sameType : Bool) :
    doc.counts x sameType x = true := by
  simp [counts, he, sameName]

theorem Linked.nodup_childrenTagged (h : doc.Linked) (p : NodeId) (tag : Option String) :
    (doc.childrenTagged p tag).Nodup := by
  have hall : (doc.elementChildren p).Nodup := (h.nodup p).filter _
  cases tag with
  | none => exact hall
  | some tag => exact hall.filter _

theorem Linked.siblingsTo_eq {before rest : List NodeId} (h : doc.Linked)
    (hc : doc.children p = before ++ x :: rest) (fromEnd : Bool) :
    doc.siblingsTo x fromEnd = if fromEnd then rest else before.reverse := by
  rw [siblingsTo, h.followingSiblings_eq hc, h.precedingSiblings_eq hc]

/-- The position of an element is its place among the children of its parent that count. -/
theorem Linked.siblingPosition_eq (h : doc.Linked) (he : doc.element? x = some e)
    (hp : doc.parent? x = some p) (fromEnd sameType : Bool) :
    doc.siblingPosition x fromEnd sameType =
      ordinal (doc.childrenTagged p (e.countedTag sameType)) fromEnd x := by
  obtain ⟨before, rest, hc⟩ := h.exists_children_of_parent hp
  have hsplit : doc.childrenTagged p (e.countedTag sameType) =
      before.filter (doc.counts x sameType) ++ x :: rest.filter (doc.counts x sameType) := by
    rw [childrenTagged_eq_filter he, hc, List.filter_append,
      List.filter_cons_of_pos (counts_self he sameType)]
  have hn := h.nodup_childrenTagged p (e.countedTag sameType)
  rw [hsplit] at hn ⊢
  rw [siblingPosition, h.siblingsTo_eq hc, ordinal_append_cons hn]
  cases fromEnd with
  | false =>
    rw [if_neg Bool.false_ne_true, if_neg Bool.false_ne_true, List.countP_reverse,
      List.countP_eq_length_filter]
  | true => rw [if_pos rfl, if_pos rfl, List.countP_eq_length_filter]

/-- Every member of such a list counts the members of that list. -/
theorem Linked.of_mem_childrenTagged {tag : Option String} (h : doc.Linked)
    (hx : x ∈ doc.childrenTagged p tag) : doc.parent? x = some p ∧
      ∃ e, doc.element? x = some e ∧
        doc.childrenTagged p (e.countedTag tag.isSome) = doc.childrenTagged p tag := by
  have hall : x ∈ doc.elementChildren p := by
    cases tag with
    | none => exact hx
    | some tag => exact List.mem_of_mem_filter hx
  obtain ⟨hchild, helement⟩ := List.mem_filter.mp hall
  obtain ⟨e, he⟩ := Option.isSome_iff_exists.mp helement
  refine ⟨h.mem_children.mp hchild, e, he, ?_⟩
  cases tag with
  | none => rfl
  | some tag => exact (childrenTagged_eq_of_isTagged he (List.mem_filter.mp hx).2 p).symm

/-- No position is greater than the number of nodes. -/
theorem Linked.siblingPosition_le_size (h : doc.Linked) (x : NodeId) (fromEnd sameType : Bool) :
    doc.siblingPosition x fromEnd sameType ≤ doc.size := by
  have hsiblings : (doc.siblingsTo x fromEnd).length < doc.size := by
    rcases h.place x with hnone | ⟨p, before, rest, hc⟩
    · rw [siblingsTo, hnone.1, hnone.2, ite_self]
      exact h.notEmpty
    · have hlength := h.size_of_children p
      rw [hc, List.length_append, List.length_cons] at hlength
      rw [h.siblingsTo_eq hc]
      split
      · omega
      · rw [List.length_reverse]
        omega
  have hcount := List.countP_le_length (p := doc.counts x sameType) (l := doc.siblingsTo x fromEnd)
  rw [siblingPosition]
  omega

end Document

end DocumentQuery
