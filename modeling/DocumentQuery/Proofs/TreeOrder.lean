import DocumentQuery.DocumentOrder
import DocumentQuery.Proofs.DocumentRelations

namespace DocumentQuery

namespace Document

variable {doc : Document} {p c d x y z : NodeId} {between : List NodeId}

/-- Whether `x` is `y` or lies below it. -/
def Within (doc : Document) : NodeId → NodeId → Prop :=
  Relation.ReflTransGen fun child parent => doc.parent? child = some parent

/-- Whether `x` comes before `y` in tree order: `y` lies below `x`, or of two children of a
node the earlier one has `x` and the later one has `y` within it. -/
def Precedes (doc : Document) (x y : NodeId) : Prop :=
  doc.Below y x ∨ ∃ c between d, doc.Follows c between d ∧ doc.Within x c ∧ doc.Within y d

theorem within_iff : doc.Within x y ↔ x = y ∨ doc.Below x y := by
  have h : doc.Within x y ↔ y = x ∨ doc.Below x y := Relation.reflTransGen_iff_eq_or_transGen
  rw [h, eq_comm]

/-- Of two nodes above a node, one lies above the other. -/
theorem Within.trichotomy (hy : doc.Within x y) (hz : doc.Within x z) :
    y = z ∨ doc.Below y z ∨ doc.Below z y := by
  have hone : Relator.RightUnique fun child parent => doc.parent? child = some parent :=
    fun _ _ _ ha hb => Option.some.inj (ha.symm.trans hb)
  rcases Relation.ReflTransGen.total_of_right_unique hone hy hz with hw | hw
  · exact (within_iff.mp hw).imp_right .inl
  · exact (within_iff.mp hw).imp Eq.symm .inr

theorem within_of_below_child (hp : doc.parent? c = some p) (h : doc.Below c y) :
    doc.Within p y := by
  obtain ⟨q, hq, hy⟩ := below_iff.mp h
  cases hp.symm.trans hq
  exact within_iff.mpr (hy.imp_left Eq.symm)

namespace Linked

theorem not_below_self (h : doc.Linked) (x : NodeId) : ¬doc.Below x x :=
  fun hb => (h.ascent_ancestors x).not_mem (h.mem_ancestors.mpr hb)

theorem not_below_of_parent (h : doc.Linked) (hc : doc.parent? c = some p)
    (hd : doc.parent? d = some p) : ¬doc.Below c d := by
  intro hb
  have hup : doc.Below d p := .single hd
  exact h.not_below_self p (.trans_right (within_of_below_child hc hb) hup)

theorem parent?_of_follows (h : doc.Linked) (hf : doc.Follows c between d) :
    ∃ p, doc.parent? c = some p ∧ doc.parent? d = some p ∧ c ≠ d := by
  obtain ⟨p, before, rest, hp⟩ := hf
  have hn := h.nodup p
  rw [hp] at hn
  refine ⟨p, h.mem_children.mp (by simp [hp]), h.mem_children.mp (by simp [hp]), ?_⟩
  rintro rfl
  exact (List.nodup_cons.mp hn.of_append_right).1 (by simp)

theorem not_follows_both (h : doc.Linked) {other : List NodeId}
    (hf : doc.Follows c between d) : ¬doc.Follows d other c := by
  intro hb
  obtain ⟨p, before, rest, hp⟩ := hf
  obtain ⟨after, hs⟩ := h.follows_iff_followingSiblings.mp hb
  have hn : (c :: (between ++ d :: rest)).Nodup := (hp ▸ h.nodup p).of_append_right
  rw [← List.cons_append, ← List.append_assoc] at hp
  rw [h.followingSiblings_eq hp] at hs
  exact (List.nodup_cons.mp hn).1 (by simp [hs])

/-- No node lies within two siblings. -/
theorem not_within_both (h : doc.Linked) (hf : doc.Follows c between d)
    (hc : doc.Within x c) : ¬doc.Within x d := by
  intro hd
  obtain ⟨p, hpc, hpd, hne⟩ := h.parent?_of_follows hf
  rcases hc.trichotomy hd with he | hb | hb
  · exact hne he
  · exact h.not_below_of_parent hpc hpd hb
  · exact h.not_below_of_parent hpd hpc hb

theorem below_iff_of_follows (h : doc.Linked) (hf : doc.Follows c between d) :
    doc.Below c z ↔ doc.Below d z := by
  obtain ⟨p, hpc, hpd, -⟩ := h.parent?_of_follows hf
  rw [below_iff, below_iff, hpc, hpd]

/-- No two nodes come each before the other. -/
theorem precedes_asymm (h : doc.Linked) (hxy : doc.Precedes x y) : ¬doc.Precedes y x := by
  rcases hxy with hb | ⟨c, between, d, hf, hx, hy⟩
  · rintro (hb' | ⟨c, between, d, hf, hy, hx⟩)
    · exact h.not_below_self x (hb'.trans hb)
    · exact h.not_within_both hf hy (hb.to_reflTransGen.trans hx)
  · rintro (hb | ⟨c', between', d', hf', hy', hx'⟩)
    · exact h.not_within_both hf hx (hb.to_reflTransGen.trans hy)
    -- siblings lie below the same nodes, so that one pair lies within a node of the other pair
    · rcases hx.trichotomy hx' with rfl | hb | hb
      · rcases hy.trichotomy hy' with rfl | hb | hb
        · exact h.not_follows_both hf hf'
        · have hup := (h.below_iff_of_follows hf).mpr hb
          exact h.not_within_both hf' (hx.trans hup.to_reflTransGen) hx
        · have hup := (h.below_iff_of_follows hf').mp hb
          exact h.not_within_both hf hx (hx.trans hup.to_reflTransGen)
      · have hup := (h.below_iff_of_follows hf).mp hb
        exact h.not_within_both hf' hy' (hy.trans hup.to_reflTransGen)
      · have hup := (h.below_iff_of_follows hf').mpr hb
        exact h.not_within_both hf (hy'.trans hup.to_reflTransGen) hy

theorem follows_trans (h : doc.Linked) {e : NodeId} {more : List NodeId}
    (hcd : doc.Follows c between d) (hde : doc.Follows d more e) :
    ∃ all, doc.Follows c all e := by
  obtain ⟨p, before, rest, hp⟩ := hcd
  obtain ⟨after, hs⟩ := h.follows_iff_followingSiblings.mp hde
  have hd : doc.children p = (before ++ c :: between) ++ d :: rest := by simp [hp]
  rw [h.followingSiblings_eq hd] at hs
  exact ⟨between ++ d :: more, p, before, after, by simp [hp, hs]⟩

theorem precedes_trans (h : doc.Linked) (hxy : doc.Precedes x y) (hyz : doc.Precedes y z) :
    doc.Precedes x z := by
  rcases hxy with hyx | ⟨c, between, d, hcd, hxc, hyd⟩
  · rcases hyz with hzy | ⟨c, between, d, hcd, hyc, hzd⟩
    · exact .inl (hzy.trans hyx)
    -- either the earlier sibling has `x` within it, or both siblings lie below `x`
    · rcases Within.trichotomy hyx.to_reflTransGen hyc with rfl | hxc | hcx
      · exact .inr ⟨x, between, d, hcd, .refl, hzd⟩
      · exact .inr ⟨c, between, d, hcd, hxc.to_reflTransGen, hzd⟩
      · exact .inl (.trans_right hzd ((h.below_iff_of_follows hcd).mp hcx))
  · rcases hyz with hzy | ⟨c', between', d', hcd', hyc', hzd'⟩
    · exact .inr ⟨c, between, d, hcd, hxc, hzy.to_reflTransGen.trans hyd⟩
    · rcases hyd.trichotomy hyc' with rfl | hdown | hdown
      · obtain ⟨all, hall⟩ := h.follows_trans hcd hcd'
        exact .inr ⟨c, all, d', hall, hxc, hzd'⟩
      · have hup := (h.below_iff_of_follows hcd).mpr hdown
        exact .inr ⟨c', between', d', hcd', hxc.trans hup.to_reflTransGen, hzd'⟩
      · have hup := (h.below_iff_of_follows hcd').mp hdown
        exact .inr ⟨c, between, d, hcd, hxc, hzd'.trans hup.to_reflTransGen⟩

end Linked

theorem foldr_visit (doc : Document) (depth : Nat) (cs rest : List NodeId) :
    cs.foldr (doc.visit depth) rest = cs.flatMap (fun c => doc.visit depth c []) ++ rest := by
  induction depth generalizing cs rest with
  | zero => induction cs <;> simp_all [visit]
  | succ depth ih =>
    induction cs with
    | nil => rfl
    | cons c cs ihc =>
      rw [List.foldr_cons, ihc, List.flatMap_cons, visit, visit, ih, ih _ [], List.append_nil,
        List.append_assoc, List.cons_append]

theorem pairwise_follows (doc : Document) (p : NodeId) :
    (doc.children p).Pairwise fun c d => ∃ between, doc.Follows c between d := by
  rw [List.pairwise_iff_forall_sublist]
  intro c d hs
  obtain ⟨front, back, hp, hc, hd⟩ := List.cons_sublist_iff.mp hs
  obtain ⟨before, between, rfl⟩ := List.append_of_mem hc
  obtain ⟨more, rest, rfl⟩ := List.append_of_mem (List.singleton_sublist.mp hd)
  exact ⟨between ++ more, p, before, rest, by simp [hp]⟩

/-- Lists of what lies within the children of a node, one after another, are in tree order. -/
theorem pairwise_flatMap_children {below : NodeId → List NodeId}
    (hp : ∀ c, (below c).Pairwise doc.Precedes) (hw : ∀ c, ∀ y ∈ below c, doc.Within y c)
    (x : NodeId) : ((doc.children x).flatMap below).Pairwise doc.Precedes := by
  refine List.pairwise_flatMap.mpr ⟨fun c _ => hp c, (doc.pairwise_follows x).imp ?_⟩
  rintro c d ⟨between, hf⟩ y hy z hz
  exact .inr ⟨c, between, d, hf, hw c y hy, hw d z hz⟩

namespace Linked

theorem within_of_mem_visit (h : doc.Linked) {depth : Nat} (hx : x ∈ doc.visit depth y []) :
    doc.Within x y := by
  have hm := List.mem_of_mem_take ((h.mem_visit.mp hx).resolve_right List.not_mem_nil)
  rcases List.mem_cons.mp hm with rfl | hm
  · exact .refl
  · exact (h.mem_ancestors.mp hm).to_reflTransGen

theorem pairwise_visit (h : doc.Linked) (depth : Nat) (x : NodeId) :
    (doc.visit depth x []).Pairwise doc.Precedes := by
  induction depth generalizing x with
  | zero => exact .nil
  | succ depth ih =>
    rw [visit, foldr_visit, List.append_nil]
    have hbelow := pairwise_flatMap_children ih (fun _ _ => h.within_of_mem_visit) x
    refine List.pairwise_cons.mpr ⟨fun y hy => .inl ?_, hbelow⟩
    obtain ⟨c, hc, hy⟩ := List.mem_flatMap.mp hy
    exact .tail' (h.within_of_mem_visit hy) (h.mem_children.mp hc)

/-- What lies below a node is listed in tree order. -/
theorem pairwise_descendants (h : doc.Linked) (x : NodeId) :
    (doc.descendants x).Pairwise doc.Precedes := by
  rw [descendants, foldr_visit, List.append_nil]
  exact pairwise_flatMap_children (h.pairwise_visit doc.size) (fun _ _ => h.within_of_mem_visit) x

theorem mem_attached (h : doc.Linked) : x ∈ doc.attached ↔ x = 0 ∨ doc.Below x 0 := by
  rw [attached, List.mem_cons, h.mem_descendants]

theorem mem_attached_iff_within (h : doc.Linked) : x ∈ doc.attached ↔ doc.Within x 0 :=
  h.mem_attached.trans within_iff.symm

theorem mem_attached_iff_parent (h : doc.Linked) (hp : doc.parent? x = some p) :
    x ∈ doc.attached ↔ p ∈ doc.attached := by
  have hx : x ≠ 0 := by
    rintro rfl
    rw [h.root] at hp
    cases hp
  have hbelow : doc.Below x 0 ↔ p = 0 ∨ doc.Below p 0 := by
    simp [@below_iff doc x 0, hp, eq_comm]
  rw [h.mem_attached, h.mem_attached, or_iff_right hx, hbelow]

theorem mem_attached_of_below (h : doc.Linked) (hb : doc.Below y x) :
    y ∈ doc.attached ↔ x ∈ doc.attached := by
  induction hb with
  | single hp => exact h.mem_attached_iff_parent hp
  | tail _ hp ih => exact ih.trans (h.mem_attached_iff_parent hp)

theorem mem_attached_of_follows (h : doc.Linked) (hf : doc.Follows x between y) :
    y ∈ doc.attached ↔ x ∈ doc.attached := by
  obtain ⟨p, hx, hy, -⟩ := h.parent?_of_follows hf
  rw [h.mem_attached_iff_parent hx, h.mem_attached_iff_parent hy]

theorem mem_attached_of_within (h : doc.Linked) (hw : doc.Within y x) :
    y ∈ doc.attached ↔ x ∈ doc.attached := by
  rcases within_iff.mp hw with rfl | hb
  · rfl
  · exact h.mem_attached_of_below hb

/-- What comes before or after an attached node in tree order is attached. -/
theorem mem_attached_of_precedes (h : doc.Linked) (hp : doc.Precedes x y) :
    y ∈ doc.attached ↔ x ∈ doc.attached := by
  rcases hp with hb | ⟨c, between, d, hf, hx, hy⟩
  · exact h.mem_attached_of_below hb
  · rw [h.mem_attached_of_within hx, h.mem_attached_of_within hy, h.mem_attached_of_follows hf]

theorem pairwise_attached (h : doc.Linked) : doc.attached.Pairwise doc.Precedes :=
  List.pairwise_cons.mpr
    ⟨fun _ hx => .inl (h.mem_descendants.mp hx), h.pairwise_descendants 0⟩

/-- A list in tree order repeats no node. -/
theorem nodup_of_pairwise (h : doc.Linked) {ids : List NodeId} (hp : ids.Pairwise doc.Precedes) :
    ids.Nodup :=
  hp.imp fun hxy => by
    rintro rfl
    exact h.precedes_asymm hxy hxy

theorem nodup_attached (h : doc.Linked) : doc.attached.Nodup :=
  h.nodup_of_pairwise h.pairwise_attached

end Linked

end Document

end DocumentQuery
