import Mathlib.Data.List.Induction
import DocumentQuery.Proofs.DocumentLinks

namespace DocumentQuery

namespace Document

variable {doc : Document} {p x y : NodeId}

/-- Whether `x` lies below `y`: the link to the parent leads from it to `y` in some steps. -/
def Below (doc : Document) : NodeId → NodeId → Prop :=
  Relation.TransGen fun child parent => doc.parent? child = some parent

/-- Whether `y` comes after `x` among the children of a node, with `between` between them. -/
def Follows (doc : Document) (x : NodeId) (between : List NodeId) (y : NodeId) : Prop :=
  ∃ p before rest, doc.children p = before ++ x :: (between ++ y :: rest)

theorem below_iff : doc.Below x y ↔
    ∃ p, doc.parent? x = some p ∧ (y = p ∨ doc.Below p y) := by
  have h : doc.Below x y ↔ _ := Relation.TransGen.head'_iff
  simp only [h, Relation.reflTransGen_iff_eq_or_transGen]
  rfl

theorem Ascent.mem_iff {above : List NodeId} (h : doc.Ascent x above) :
    y ∈ above ↔ doc.Below x y := by
  induction h with
  | top h =>
    refine ⟨nofun, fun hb => ?_⟩
    obtain ⟨p, hp, -⟩ := below_iff.mp hb
    rw [h] at hp
    cases hp
  | @up x p above hp _ ih =>
    have hb : doc.Below x y ↔ y = p ∨ doc.Below p y := by simp [@below_iff doc x y, hp]
    rw [List.mem_cons, ih, hb]

theorem Linked.mem_ancestors (h : doc.Linked) : y ∈ doc.ancestors x ↔ doc.Below x y :=
  (h.ascent_ancestors x).mem_iff

theorem Ascent.mem_take {above : List NodeId} (h : doc.Ascent x above) (n : Nat) :
    y ∈ above.take n ↔ ∃ c ∈ (x :: above).take n, doc.parent? c = some y := by
  induction h generalizing n with
  | @top x h =>
    refine ⟨by simp, ?_⟩
    rintro ⟨c, hc, hy⟩
    obtain rfl := List.mem_singleton.mp (List.mem_of_mem_take hc)
    rw [h] at hy
    cases hy
  | @up x p above hp _ ih =>
    cases n with
    | zero => simp
    | succ n =>
      rw [List.take_succ_cons, List.take_succ_cons, List.mem_cons, List.exists_mem_cons_iff, ih,
        hp, Option.some.injEq, eq_comm]

theorem Linked.mem_visit (h : doc.Linked) {depth : Nat} {id : NodeId} {rest : List NodeId} :
    x ∈ doc.visit depth id rest ↔ id ∈ (x :: doc.ancestors x).take depth ∨ x ∈ rest := by
  induction depth generalizing id rest with
  | zero => simp [visit]
  | succ depth ih =>
    have hfold : ∀ cs : List NodeId, x ∈ cs.foldr (doc.visit depth) rest ↔
        (∃ c ∈ cs, c ∈ (x :: doc.ancestors x).take depth) ∨ x ∈ rest := by
      intro cs
      induction cs with
      | nil => simp
      | cons c cs ihc => rw [List.foldr_cons, ih, ihc, List.exists_mem_cons_iff, or_assoc]
    rw [visit, List.mem_cons, hfold, List.take_succ_cons, List.mem_cons,
      (h.ascent_ancestors x).mem_take, or_assoc, eq_comm]
    simp only [h.mem_children, and_comm]

/-- A node lists below it exactly the nodes that have it among their ancestors. -/
theorem Linked.mem_descendants (h : doc.Linked) : x ∈ doc.descendants y ↔ doc.Below x y := by
  have ha := h.ascent_ancestors x
  have hall : (doc.ancestors x).take doc.size = doc.ancestors x :=
    List.take_of_length_le (length_le_size ha.nodup (h.lt_size_of_ascent ha))
  have hfold : ∀ cs : List NodeId, x ∈ cs.foldr (doc.visit doc.size) [] ↔
      ∃ c ∈ cs, c ∈ (x :: doc.ancestors x).take doc.size := by
    intro cs
    induction cs with
    | nil => simp
    | cons c cs ihc => rw [List.foldr_cons, h.mem_visit, ihc, List.exists_mem_cons_iff]
  have hup := @Ascent.mem_take doc x y _ ha doc.size
  rw [hall] at hup
  rw [descendants, hfold, ← h.mem_ancestors, hup]
  simp only [h.mem_children, and_comm]

theorem chain_none (link : NodeId → Option NodeId) (limit : Nat) : chain link limit none = [] := by
  cases limit <;> rfl

theorem Linked.size_of_children (h : doc.Linked) (p : NodeId) :
    (doc.children p).length ≤ doc.size :=
  length_le_size (h.nodup p) fun _ hc => lt_size_of_parent? (h.mem_children.mp hc)

theorem Linked.chain_next (h : doc.Linked) {before rest : List NodeId}
    (hp : doc.children p = before ++ rest) (hb : before ≠ []) (limit : Nat) :
    chain doc.next? limit rest.head? = rest.take limit := by
  induction rest generalizing before limit with
  | nil => rw [List.head?_nil, chain_none, List.take_nil]
  | cons y rest ih =>
    cases limit with
    | zero => rfl
    | succ limit =>
      have hnext := (h.siblings hp).1
      rw [List.append_cons] at hp
      rw [List.head?_cons, chain, hnext, ih hp (by simp), List.take_succ_cons]

theorem Linked.followingSiblings_eq (h : doc.Linked) {before rest : List NodeId}
    (hp : doc.children p = before ++ x :: rest) : doc.followingSiblings x = rest := by
  have hlength := h.size_of_children p
  have hnext := (h.siblings hp).1
  rw [List.append_cons] at hp
  rw [hp, List.length_append] at hlength
  rw [followingSiblings, hnext, h.chain_next hp (by simp), List.take_of_length_le (by omega)]

theorem Linked.chain_previous (h : doc.Linked) {before rest : List NodeId}
    (hp : doc.children p = before ++ rest) (limit : Nat) :
    chain doc.previous? limit before.getLast? = before.reverse.take limit := by
  induction before using List.reverseRecOn generalizing rest limit with
  | nil => rw [List.getLast?_nil, chain_none, List.reverse_nil, List.take_nil]
  | append_singleton before y ih =>
    cases limit with
    | zero => rfl
    | succ limit =>
      rw [List.append_assoc] at hp
      have hprevious := (h.siblings hp).2
      rw [List.getLast?_concat, chain, hprevious, ih hp, List.reverse_concat, List.take_succ_cons]

theorem Linked.precedingSiblings_eq (h : doc.Linked) {before rest : List NodeId}
    (hp : doc.children p = before ++ x :: rest) : doc.precedingSiblings x = before.reverse := by
  have hlength := h.size_of_children p
  rw [hp, List.length_append] at hlength
  rw [precedingSiblings, (h.siblings hp).2, h.chain_previous hp, List.take_of_length_le]
  rw [List.length_reverse]
  omega

theorem Linked.siblings_of_single (h : doc.Linked) (hp : doc.parent? x = none) :
    doc.followingSiblings x = [] ∧ doc.precedingSiblings x = [] := by
  obtain ⟨hnext, hprevious⟩ := h.single hp
  refine ⟨?_, ?_⟩
  · rw [followingSiblings, hnext, chain_none]
  · rw [precedingSiblings, hprevious, chain_none]

theorem Linked.exists_children_of_parent (h : doc.Linked) (hp : doc.parent? x = some p) :
    ∃ before rest, doc.children p = before ++ x :: rest :=
  List.append_of_mem (h.mem_children.mpr hp)

/-- A node without a parent has no siblings, and every other one stands among the children of
its parent. -/
theorem Linked.place (h : doc.Linked) (x : NodeId) :
    (doc.followingSiblings x = [] ∧ doc.precedingSiblings x = []) ∨
      ∃ p before rest, doc.children p = before ++ x :: rest := by
  cases hp : doc.parent? x with
  | none => exact .inl (h.siblings_of_single hp)
  | some p => exact .inr ⟨p, h.exists_children_of_parent hp⟩

theorem Linked.follows_iff_followingSiblings (h : doc.Linked) {between : List NodeId} :
    doc.Follows x between y ↔ ∃ rest, doc.followingSiblings x = between ++ y :: rest := by
  constructor
  · rintro ⟨p, before, rest, hp⟩
    exact ⟨rest, h.followingSiblings_eq hp⟩
  · rintro ⟨rest, hs⟩
    rcases h.place x with ⟨hnone, -⟩ | ⟨p, before, after, hp⟩
    · simp [hnone] at hs
    · rw [← h.followingSiblings_eq hp, hs] at hp
      exact ⟨p, before, rest, hp⟩

theorem Linked.follows_iff_precedingSiblings (h : doc.Linked) {between : List NodeId} :
    doc.Follows x between y ↔ ∃ rest, doc.precedingSiblings y = between.reverse ++ x :: rest := by
  constructor
  · rintro ⟨p, before, rest, hp⟩
    rw [← List.cons_append, ← List.append_assoc] at hp
    refine ⟨before.reverse, ?_⟩
    rw [h.precedingSiblings_eq hp]
    simp
  · rintro ⟨rest, hs⟩
    rcases h.place y with ⟨-, hnone⟩ | ⟨p, before, after, hp⟩
    · simp [hnone] at hs
    · rw [h.precedingSiblings_eq hp, List.reverse_eq_iff] at hs
      rw [hs] at hp
      exact ⟨p, rest.reverse, after, by simpa using hp⟩

theorem Linked.mem_followingSiblings (h : doc.Linked) :
    y ∈ doc.followingSiblings x ↔ ∃ between, doc.Follows x between y := by
  simp only [h.follows_iff_followingSiblings, List.mem_iff_append]

theorem Linked.mem_precedingSiblings (h : doc.Linked) :
    x ∈ doc.precedingSiblings y ↔ ∃ between, doc.Follows x between y := by
  simp only [h.follows_iff_precedingSiblings, List.mem_iff_append]
  constructor
  · rintro ⟨between, rest, hs⟩
    exact ⟨between.reverse, rest, by rw [hs, List.reverse_reverse]⟩
  · rintro ⟨between, rest, hs⟩
    exact ⟨between.reverse, rest, hs⟩

theorem Linked.nextElement?_eq_some (h : doc.Linked) : doc.nextElement? x = some y ↔
    doc.isElement y = true ∧
      ∃ between, doc.Follows x between y ∧ ∀ z ∈ between, doc.isElement z = false := by
  rw [nextElement?, List.find?_eq_some_iff_append]
  simp only [h.follows_iff_followingSiblings, Bool.not_eq_true', exists_and_right]

theorem Linked.previousElement?_eq_some (h : doc.Linked) : doc.previousElement? y = some x ↔
    doc.isElement x = true ∧
      ∃ between, doc.Follows x between y ∧ ∀ z ∈ between, doc.isElement z = false := by
  rw [previousElement?, List.find?_eq_some_iff_append]
  simp only [h.follows_iff_precedingSiblings, Bool.not_eq_true']
  refine and_congr_right fun _ => ⟨?_, ?_⟩
  · rintro ⟨between, rest, hs, hnone⟩
    exact ⟨between.reverse, ⟨rest, by rw [hs, List.reverse_reverse]⟩, by simpa using hnone⟩
  · rintro ⟨between, ⟨rest, hs⟩, hnone⟩
    exact ⟨between.reverse, rest, hs, by simpa using hnone⟩

end Document

end DocumentQuery
