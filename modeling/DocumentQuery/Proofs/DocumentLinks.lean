import Mathlib.Data.List.Nodup
import Mathlib.Logic.Relation
import DocumentQuery.DocumentAxes

namespace DocumentQuery

namespace Document

variable {doc after : Document} {parent child id x : NodeId}

/-- The documents that come of allocating nodes and of appending them, each at most once and
never below itself. -/
inductive Built : Document → Prop where
  | blank : Built blank
  | alloc {doc : Document} (built : Built doc) (kind : NodeKind) : Built (doc.alloc kind)
  | append {doc after : Document} {parent child : NodeId} (built : Built doc)
      (notRoot : child ≠ 0) (single : doc.parent? child = none) (apart : child ≠ parent)
      (above : doc.isDescendant parent child = false)
      (done : doc.append parent child = some after) : Built after

theorem node?_modify (doc : Document) (id : NodeId) (f : Node → Node) (x : NodeId) :
    (doc.modify id f).node? x = (doc.node? x).map fun n => if x = id then f n else n := by
  have h : (doc.modify id f).node? x = if id = x then (doc.node? x).map f else doc.node? x :=
    Array.getElem?_modify
  rw [h]
  by_cases he : x = id
  · simp [he]
  · simp [he, Ne.symm he]

theorem node?_alloc (doc : Document) (kind : NodeKind) (x : NodeId) :
    (doc.alloc kind).node? x = if x = doc.size then some { kind } else doc.node? x :=
  Array.getElem?_push

theorem node?_eq_none (h : doc.size ≤ x) : doc.node? x = none :=
  Array.getElem?_eq_none h

theorem node?_of_contains (h : doc.contains x = true) : ∃ n, doc.node? x = some n :=
  ⟨_, Array.getElem?_eq_getElem (of_decide_eq_true h)⟩

theorem lt_size_of_node? {n : Node} (h : doc.node? x = some n) : x < doc.size := by
  by_contra hn
  rw [node?_eq_none (Nat.le_of_not_lt hn)] at h
  cases h

theorem lt_size_of_parent? (h : doc.parent? x = some id) : x < doc.size := by
  obtain ⟨n, hn, -⟩ := Option.bind_eq_some_iff.mp h
  exact lt_size_of_node? hn

theorem lt_size_of_isElement (h : doc.isElement x = true) : x < doc.size := by
  by_contra hn
  rw [isElement, element?, node?_eq_none (Nat.le_of_not_lt hn)] at h
  cases h

theorem contains_of_append (h : doc.append parent child = some after) :
    doc.contains parent = true ∧ doc.contains child = true := by
  unfold append at h
  split at h
  next hc => exact Bool.and_eq_true_iff.mp hc
  next => cases h

/-- The node at `x` once `child` has been appended to `parent`. -/
def relinked (doc : Document) (parent child x : NodeId) (n : Node) : Node where
  kind := n.kind
  parent := if x = child then some parent else n.parent
  children := if x = parent then n.children ++ [child] else n.children
  next := if (doc.children parent).getLast? = some x then some child else n.next
  previous := if x = child then (doc.children parent).getLast?.or n.previous else n.previous

theorem node?_append (h : doc.append parent child = some after) (x : NodeId) :
    after.node? x = (doc.node? x).map (doc.relinked parent child x) := by
  unfold append at h
  split at h
  next =>
    split at h
    next last hl =>
      cases h
      simp only [node?_modify, Option.map_map]
      congr 1
      funext n
      simp only [Function.comp_apply, relinked, hl]
      split_ifs <;> simp_all
    next hl =>
      cases h
      simp only [node?_modify, Option.map_map]
      congr 1
      funext n
      simp only [Function.comp_apply, relinked, hl]
      split_ifs <;> simp_all
  next => cases h

/-- The nodes above a node, its parent first, up to one without a parent. -/
inductive Ascent (doc : Document) : NodeId → List NodeId → Prop where
  | top {x : NodeId} (h : doc.parent? x = none) : Ascent doc x []
  | up {x p : NodeId} {above : List NodeId} (h : doc.parent? x = some p)
      (rest : Ascent doc p above) : Ascent doc x (p :: above)

/-- The links of a tree agree with each other. -/
structure Linked (doc : Document) : Prop where
  notEmpty : 0 < doc.size
  root : doc.parent? 0 = none
  rootKind : doc.isElement 0 = false
  inside : ∀ ⦃c p⦄, doc.parent? c = some p → p < doc.size
  mem_children : ∀ {p c}, c ∈ doc.children p ↔ doc.parent? c = some p
  nodup : ∀ p, (doc.children p).Nodup
  siblings : ∀ ⦃p before c rest⦄, doc.children p = before ++ c :: rest →
    doc.next? c = rest.head? ∧ doc.previous? c = before.getLast?
  single : ∀ ⦃c⦄, doc.parent? c = none → doc.next? c = none ∧ doc.previous? c = none
  ascent : ∀ x, ∃ above, doc.Ascent x above

theorem Ascent.unique {above others : List NodeId} (h : doc.Ascent x above)
    (ho : doc.Ascent x others) : above = others := by
  induction h generalizing others with
  | top h =>
    cases ho with
    | top => rfl
    | up hp => cases h.symm.trans hp
  | up h _ ih =>
    cases ho with
    | top hp => cases h.symm.trans hp
    | up hp rest =>
      cases h.symm.trans hp
      rw [ih rest]

theorem Ascent.exists_of_mem {above : List NodeId} {y : NodeId} (h : doc.Ascent x above)
    (hy : y ∈ above) : ∃ before rest, above = before ++ y :: rest ∧ doc.Ascent y rest := by
  induction h with
  | top => cases hy
  | @up x p above _ hrest ih =>
    rcases List.mem_cons.mp hy with rfl | hy
    · exact ⟨[], above, rfl, hrest⟩
    · obtain ⟨before, rest, rfl, hr⟩ := ih hy
      exact ⟨p :: before, rest, rfl, hr⟩

/-- No node lies above itself. -/
theorem Ascent.not_mem {above : List NodeId} (h : doc.Ascent x above) : x ∉ above := by
  intro hm
  obtain ⟨before, rest, he, hr⟩ := h.exists_of_mem hm
  have hsame := h.unique hr
  have hlength := congrArg List.length he
  rw [hsame, List.length_append, List.length_cons] at hlength
  omega

theorem Ascent.nodup {above : List NodeId} (h : doc.Ascent x above) : above.Nodup := by
  induction h with
  | top => exact List.nodup_nil
  | up _ rest ih => exact List.nodup_cons.mpr ⟨rest.not_mem, ih⟩

theorem Ascent.chain_eq {above : List NodeId} (h : doc.Ascent x above) (limit : Nat) :
    chain doc.parent? limit (doc.parent? x) = above.take limit := by
  induction h generalizing limit with
  | top h =>
    rw [h]
    cases limit <;> rfl
  | up h _ ih =>
    rw [h]
    cases limit with
    | zero => rfl
    | succ limit => rw [chain, ih, List.take_succ_cons]

theorem length_le_size {xs : List NodeId} (hn : xs.Nodup) (hx : ∀ x ∈ xs, x < doc.size) :
    xs.length ≤ doc.size := by
  have hsub : xs ⊆ List.range doc.size := fun x hm => List.mem_range.mpr (hx x hm)
  simpa using hn.length_le_of_subset hsub

theorem Linked.lt_size_of_ascent (h : doc.Linked) {above : List NodeId}
    (ha : doc.Ascent x above) : ∀ y ∈ above, y < doc.size := by
  induction ha with
  | top => exact nofun
  | up hp _ ih => exact List.forall_mem_cons.mpr ⟨h.inside hp, ih⟩

theorem Linked.ancestors_eq (h : doc.Linked) {above : List NodeId} (ha : doc.Ascent x above) :
    doc.ancestors x = above := by
  have hlength := length_le_size ha.nodup (h.lt_size_of_ascent ha)
  rw [ancestors, ha.chain_eq, List.take_of_length_le hlength]

theorem Linked.ascent_ancestors (h : doc.Linked) (x : NodeId) :
    doc.Ascent x (doc.ancestors x) := by
  obtain ⟨above, ha⟩ := h.ascent x
  exact (h.ancestors_eq ha).symm ▸ ha

theorem bind_node?_alloc (doc : Document) (x : NodeId) {kind : NodeKind} {f : Node → Option NodeId}
    (hf : f { kind } = none) : ((doc.alloc kind).node? x).bind f = (doc.node? x).bind f := by
  rw [node?_alloc]
  split
  next h =>
    rw [h, node?_eq_none Nat.le.refl]
    exact hf
  next => rfl

@[simp] theorem parent?_alloc (doc : Document) (kind : NodeKind) (x : NodeId) :
    (doc.alloc kind).parent? x = doc.parent? x :=
  doc.bind_node?_alloc x rfl

@[simp] theorem next?_alloc (doc : Document) (kind : NodeKind) (x : NodeId) :
    (doc.alloc kind).next? x = doc.next? x :=
  doc.bind_node?_alloc x rfl

@[simp] theorem previous?_alloc (doc : Document) (kind : NodeKind) (x : NodeId) :
    (doc.alloc kind).previous? x = doc.previous? x :=
  doc.bind_node?_alloc x rfl

@[simp] theorem children_alloc (doc : Document) (kind : NodeKind) (x : NodeId) :
    (doc.alloc kind).children x = doc.children x := by
  unfold children
  rw [node?_alloc]
  split
  next h =>
    rw [h, node?_eq_none Nat.le.refl]
    rfl
  next => rfl

theorem ascent_alloc {above : List NodeId} (kind : NodeKind) (h : doc.Ascent x above) :
    (doc.alloc kind).Ascent x above := by
  induction h with
  | top h => exact .top ((doc.parent?_alloc kind _).trans h)
  | up h _ ih => exact .up ((doc.parent?_alloc kind _).trans h) ih

theorem size_alloc (doc : Document) (kind : NodeKind) : (doc.alloc kind).size = doc.size + 1 :=
  Array.size_push _

theorem linked_alloc (h : doc.Linked) (kind : NodeKind) : (doc.alloc kind).Linked where
  notEmpty := by rw [size_alloc]; omega
  root := by rw [parent?_alloc]; exact h.root
  rootKind := by
    have hsame : (doc.alloc kind).node? 0 = doc.node? 0 := by
      rw [node?_alloc, if_neg (Nat.ne_of_lt h.notEmpty)]
    rw [isElement, element?, hsame]
    exact h.rootKind
  inside := by
    intro c p hp
    rw [parent?_alloc] at hp
    rw [size_alloc]
    exact Nat.lt_succ_of_lt (h.inside hp)
  mem_children := by
    intro p c
    rw [children_alloc, parent?_alloc]
    exact h.mem_children
  nodup := by simpa using h.nodup
  siblings := by simpa using h.siblings
  single := by simpa using h.single
  ascent := by
    intro x
    obtain ⟨above, hx⟩ := h.ascent x
    exact ⟨above, ascent_alloc kind hx⟩

theorem linked_blank : Linked blank := by
  have hempty : blank = (⟨#[]⟩ : Document).alloc .document := rfl
  have hnode : ∀ x, (⟨#[]⟩ : Document).node? x = none := fun x => node?_eq_none (Nat.zero_le x)
  have hparent : ∀ x, blank.parent? x = none := by
    intro x
    rw [hempty, parent?_alloc, parent?, hnode]
    rfl
  have hchildren : ∀ x, blank.children x = [] := by
    intro x
    rw [hempty, children_alloc, children, hnode]
    rfl
  refine ⟨Nat.one_pos, rfl, rfl, ?_, ?_, ?_, ?_, ?_, fun x => ⟨[], .top (hparent x)⟩⟩
  · simp [hparent]
  · simp [hparent, hchildren]
  · simp [hchildren]
  · simp [hchildren]
  · intro c _
    rw [hempty, next?_alloc, previous?_alloc, next?, previous?, hnode]
    exact ⟨rfl, rfl⟩

theorem Linked.getLast?_ne (h : doc.Linked) {p : NodeId} (hx : doc.parent? x ≠ some p) :
    (doc.children p).getLast? ≠ some x :=
  fun hl => hx (h.mem_children.mp (List.mem_of_getLast? hl))

theorem getLast?_ne_of_nodup {before rest : List NodeId} {y : NodeId}
    (h : (before ++ x :: y :: rest).Nodup) : (before ++ x :: y :: rest).getLast? ≠ some x := by
  intro hl
  have hlater : x ∈ y :: rest := by
    rw [List.getLast?_append, List.getLast?_cons_cons,
      List.getLast?_eq_some_getLast (List.cons_ne_nil y rest)] at hl
    exact Option.some.inj hl ▸ List.getLast_mem (List.cons_ne_nil y rest)
  exact (List.nodup_cons.mp h.of_append_right).1 hlater

section Append

variable (done : doc.append parent child = some after)

include done

theorem parent?_append (x : NodeId) :
    after.parent? x = if x = child then some parent else doc.parent? x := by
  rw [parent?, node?_append done]
  split
  next h =>
    have hc := (contains_of_append done).2
    obtain ⟨n, hn⟩ := node?_of_contains hc
    simp [h, hn, relinked]
  next h => cases hn : doc.node? x <;> simp [parent?, hn, relinked, h]

theorem children_append (x : NodeId) :
    after.children x =
      if x = parent then doc.children parent ++ [child] else doc.children x := by
  rw [children, node?_append done]
  split
  next h =>
    obtain ⟨n, hn⟩ := node?_of_contains (contains_of_append done).1
    simp [h, hn, relinked, children]
  next h => cases hn : doc.node? x <;> simp [children, hn, relinked, h]

theorem next?_append {x : NodeId} (h : (doc.children parent).getLast? = some x)
    (hx : x < doc.size) : after.next? x = some child := by
  obtain ⟨n, hn⟩ := node?_of_contains (decide_eq_true hx)
  rw [next?, node?_append done, hn]
  simp [relinked, h]

theorem next?_append_of_ne {x : NodeId} (h : (doc.children parent).getLast? ≠ some x) :
    after.next? x = doc.next? x := by
  rw [next?, node?_append done]
  cases hn : doc.node? x <;> simp [next?, hn, relinked, h]

theorem previous?_append_self :
    after.previous? child = (doc.children parent).getLast?.or (doc.previous? child) := by
  obtain ⟨n, hn⟩ := node?_of_contains (contains_of_append done).2
  rw [previous?, previous?, node?_append done, hn]
  simp [relinked]

theorem previous?_append_of_ne {x : NodeId} (h : x ≠ child) :
    after.previous? x = doc.previous? x := by
  rw [previous?, node?_append done]
  cases hn : doc.node? x <;> simp [previous?, hn, relinked, h]

theorem size_append : after.size = doc.size := by
  unfold append at done
  split at done
  next =>
    split at done
    all_goals
      cases done
      simp only [size, modify, Array.size_modify]
  next => cases done

theorem isElement_append (x : NodeId) : after.isElement x = doc.isElement x := by
  rw [isElement, isElement, element?, element?, node?_append done]
  cases doc.node? x with
  | none => rfl
  | some n =>
    obtain ⟨kind⟩ := n
    cases kind <;> rfl

theorem ascent_append_of_not_mem {above : List NodeId} (h : doc.Ascent x above) (hx : x ≠ child)
    (hm : child ∉ above) : after.Ascent x above := by
  induction h with
  | @top x h =>
    refine .top ?_
    rw [parent?_append done, if_neg hx, h]
  | @up x p above h rest ih =>
    have hp : p ≠ child := fun he => hm (he ▸ List.mem_cons_self)
    refine .up ?_ (ih hp fun hin => hm (List.mem_cons_of_mem _ hin))
    rw [parent?_append done, if_neg hx, h]

theorem exists_ascent_append {above : List NodeId} (single : doc.parent? child = none)
    (hc : after.Ascent child above) {ups : List NodeId} (h : doc.Ascent x ups) :
    ∃ ups', after.Ascent x ups' := by
  induction h with
  | @top x h =>
    by_cases hx : x = child
    · exact ⟨above, hx ▸ hc⟩
    · exact ⟨[], .top (by rw [parent?_append done, if_neg hx, h])⟩
  | @up x p ups h _ ih =>
    have hx : x ≠ child := by
      rintro rfl
      rw [single] at h
      cases h
    obtain ⟨ups', hp⟩ := ih
    exact ⟨p :: ups', .up (by rw [parent?_append done, if_neg hx, h]) hp⟩

/-- The links that a child has to its neighbours once another one has been appended. -/
theorem siblings_append (h : doc.Linked) (single : doc.parent? child = none)
    {p c : NodeId} {before rest : List NodeId} (hp : after.children p = before ++ c :: rest) :
    after.next? c = rest.head? ∧ after.previous? c = before.getLast? := by
  have hnew : child ∉ doc.children parent := by
    rw [h.mem_children, single]
    exact nofun
  rw [children_append done] at hp
  split at hp
  next =>
    rcases rest.eq_nil_or_concat with rfl | ⟨front, last, rfl⟩
    · obtain ⟨hbefore, hc⟩ := List.append_inj' hp rfl
      obtain rfl : child = c := List.singleton_inj.mp hc
      have hlast : (doc.children parent).getLast? ≠ some child :=
        h.getLast?_ne (by simp [single])
      rw [next?_append_of_ne done hlast, previous?_append_self done, (h.single single).1,
        (h.single single).2, hbefore]
      exact ⟨rfl, Option.or_none⟩
    · rw [List.concat_eq_append, ← List.cons_append, ← List.append_assoc] at hp
      obtain ⟨hold, hc⟩ := List.append_inj' hp rfl
      obtain rfl : child = last := List.singleton_inj.mp hc
      have hm : c ∈ doc.children parent := by simp [hold]
      have hne : c ≠ child := fun he => hnew (he ▸ hm)
      obtain ⟨hnext, hprevious⟩ := h.siblings hold
      rw [previous?_append_of_ne done hne]
      refine ⟨?_, hprevious⟩
      cases front with
      | nil =>
        have hlast : (doc.children parent).getLast? = some c := by simp [hold]
        have hin := lt_size_of_parent? (h.mem_children.mp hm)
        rw [next?_append done hlast hin]
        rfl
      | cons d front =>
        have hlast : (doc.children parent).getLast? ≠ some c :=
          hold ▸ getLast?_ne_of_nodup (hold ▸ h.nodup parent)
        rw [next?_append_of_ne done hlast, hnext]
        rfl
  next hne =>
    have hm : c ∈ doc.children p := by simp [hp]
    have hparent := h.mem_children.mp hm
    have hc : c ≠ child := by
      rintro rfl
      rw [single] at hparent
      cases hparent
    have hlast : (doc.children parent).getLast? ≠ some c :=
      h.getLast?_ne (by simp [hparent, hne])
    rw [next?_append_of_ne done hlast, previous?_append_of_ne done hc]
    exact h.siblings hp

/-- Appending a node keeps the links in agreement with each other. -/
theorem linked_append (h : doc.Linked) (notRoot : child ≠ 0)
    (single : doc.parent? child = none) (apart : child ≠ parent)
    (above : child ∉ doc.ancestors parent) : after.Linked where
  notEmpty := by
    rw [size_append done]
    exact h.notEmpty
  root := by
    rw [parent?_append done, if_neg notRoot.symm]
    exact h.root
  rootKind := by
    rw [isElement_append done]
    exact h.rootKind
  inside := by
    intro c p hp
    rw [size_append done]
    rw [parent?_append done] at hp
    split at hp
    next =>
      cases hp
      exact of_decide_eq_true (contains_of_append done).1
    next => exact h.inside hp
  mem_children := by
    intro p c
    have hc : c ∈ doc.children p ↔ doc.parent? c = some p := h.mem_children
    rw [children_append done, parent?_append done]
    by_cases hp : p = parent <;> by_cases he : c = child
    · simp [hp, he]
    · simpa [hp, he] using hp ▸ hc
    · rw [if_neg hp, if_pos he, hc, he, single]
      simp [Ne.symm hp]
    · rw [if_neg hp, if_neg he]
      exact hc
  nodup := by
    intro p
    rw [children_append done]
    split
    next =>
      have hnew : child ∉ doc.children parent := by
        rw [h.mem_children, single]
        exact nofun
      exact List.concat_eq_append ▸ (h.nodup parent).concat hnew
    next => exact h.nodup p
  siblings := by
    intro p before c rest hp
    exact siblings_append done h single hp
  single := by
    intro c hc
    rw [parent?_append done] at hc
    split at hc
    next => cases hc
    next hne =>
      have hlast : (doc.children parent).getLast? ≠ some c := h.getLast?_ne (by simp [hc])
      rw [next?_append_of_ne done hlast, previous?_append_of_ne done hne]
      exact h.single hc
  ascent := by
    intro x
    obtain ⟨ups, hx⟩ := h.ascent x
    have hp : after.Ascent parent (doc.ancestors parent) :=
      ascent_append_of_not_mem done (h.ascent_ancestors parent) apart.symm above
    have hchild : after.Ascent child (parent :: doc.ancestors parent) :=
      .up (by rw [parent?_append done, if_pos rfl]) hp
    exact exists_ascent_append done single hchild hx

end Append

theorem Built.linked (h : doc.Built) : doc.Linked := by
  induction h with
  | blank => exact linked_blank
  | alloc _ kind ih => exact linked_alloc ih kind
  | append _ notRoot single apart above done ih =>
    refine linked_append done ih notRoot single apart ?_
    simpa [isDescendant] using above

/-- A new node may be appended to every node that is already there. -/
theorem Built.grow (h : doc.Built) {kind : NodeKind} (hp : parent < doc.size)
    (done : (doc.alloc kind).append parent doc.size = some after) : after.Built := by
  have hlinked := h.linked
  have ha := hlinked.ascent_ancestors parent
  have hsame := (linked_alloc hlinked kind).ancestors_eq (ascent_alloc kind ha)
  have hnew : doc.size ∉ doc.ancestors parent := fun hm =>
    Nat.lt_irrefl _ (hlinked.lt_size_of_ascent ha _ hm)
  refine .append (h.alloc kind) (Nat.ne_of_gt hlinked.notEmpty) ?_ (Nat.ne_of_gt hp) ?_ done
  · rw [parent?_alloc, parent?, node?_eq_none Nat.le.refl]
    rfl
  · simpa [isDescendant, hsame] using hnew

end Document

end DocumentQuery
