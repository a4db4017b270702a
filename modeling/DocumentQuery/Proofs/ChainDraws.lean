import DocumentQuery.Proofs.DrawCounts
import DocumentQuery.Proofs.ElementChains

namespace DocumentQuery

open Query

variable {ctx : QueryContext} {doc : Document} {answers : Answers} {left steps : List Step}
  {count other : Nat} {y : NodeId} {b : Bool}

namespace Answers

/-- The elements without a kept answer for so many steps. -/
def missing (answers : Answers) (doc : Document) (count : Nat) : List NodeId :=
  doc.elements.filter fun y => answers[(count, y)]?.isNone

theorem mem_missing : y ∈ answers.missing doc count ↔
    doc.isElement y = true ∧ answers[(count, y)]? = none := by
  rw [missing, List.mem_filter, Document.mem_elements, Option.isNone_iff_eq_none]

theorem nodup_missing : (answers.missing doc count).Nodup :=
  doc.nodup_elements.filter _

theorem missing_empty : missing ∅ doc count = doc.elements := by
  refine List.filter_eq_self.mpr fun y _ => ?_
  rw [Std.TreeMap.getElem?_emptyc]
  rfl

theorem getElem?_insert_of_ne {key asked : Nat × Nat} (h : key ≠ asked) :
    (answers.insert key b)[asked]? = answers[asked]? := by
  rw [Std.TreeMap.getElem?_insert, if_neg]
  exact fun he => h (Std.LawfulEqCmp.compare_eq_iff_eq.mp he)

theorem missing_insert_of_ne (h : other ≠ count) :
    missing (answers.insert (other, y) b) doc count = answers.missing doc count := by
  refine List.filter_congr fun x _ => ?_
  rw [getElem?_insert_of_ne fun he => h (congrArg Prod.fst he)]

theorem missing_insert :
    missing (answers.insert (count, y) b) doc count = (answers.missing doc count).erase y := by
  rw [nodup_missing.erase_eq_filter, missing, missing, List.filter_filter]
  refine List.filter_congr fun x _ => ?_
  by_cases hx : x = y
  · subst hx
    rw [Std.TreeMap.getElem?_insert_self]
    simp
  · rw [getElem?_insert_of_ne fun he => hx (congrArg Prod.snd he).symm]
    simp [hx]

theorem length_missing_insert (h : y ∈ answers.missing doc count) :
    (missing (answers.insert (count, y) b) doc count).length + 1 =
      (answers.missing doc count).length := by
  have hpos := List.length_pos_of_mem h
  rw [missing_insert, List.length_erase_of_mem h]
  omega

/-- The random tests that may still be asked along a chain of steps, which are given last first:
those of each compound for every element without a kept answer. -/
def openTests (answers : Answers) (doc : Document) : List Step → Nat
  | [] => 0
  | ⟨_, c⟩ :: left =>
    (answers.missing doc (left.length + 1)).length * c.randomTests + answers.openTests doc left

theorem openTests_empty :
    openTests ∅ doc steps = doc.elements.length * stepsRandomTests steps := by
  induction steps with
  | nil => rfl
  | cons step left ih =>
    obtain ⟨k, c⟩ := step
    rw [openTests, ih, missing_empty, stepsRandomTests, Nat.mul_add]

theorem openTests_insert_of_lt (h : left.length < count) :
    openTests (answers.insert (count, y) b) doc left = answers.openTests doc left := by
  induction left with
  | nil => rfl
  | cons step left ih =>
    obtain ⟨k, c⟩ := step
    rw [List.length_cons] at h
    simp only [openTests]
    rw [missing_insert_of_ne (by omega), ih (by omega)]

end Answers

namespace CachedQuery

variable {α β : Type} {m n : Nat}

/-- Whether a query draws no more than the random tests that it closes along a chain and so many
besides, and keeps no answers for more steps than the chain has. -/
def Spends (doc : Document) (left : List Step) (n : Nat) (q : CachedQuery α) : Prop :=
  ∀ answers st,
    ((q.run answers).after st).drawn + Answers.openTests ((q.run answers).answer st).2 doc left ≤
        st.drawn + Answers.openTests answers doc left + n ∧
      ∀ count, left.length < count →
        Answers.missing ((q.run answers).answer st).2 doc count = Answers.missing answers doc count

theorem spends_pure (a : α) : Spends doc left 0 (pure a) :=
  fun _ _ => ⟨Nat.le.refl, fun _ _ => rfl⟩

theorem spends_lift {q : Query α} (h : q.DrawsAtMost n) : Spends doc left n (liftM q) := by
  intro answers st
  have hdrawn := h st
  refine ⟨?_, fun _ _ => rfl⟩
  show (q.after st).drawn + Answers.openTests answers doc left ≤ _
  omega

theorem Spends.bind {q : CachedQuery α} {f : α → CachedQuery β} (hq : Spends doc left m q)
    (hf : ∀ a, Spends doc left n (f a)) : Spends doc left (m + n) (q >>= f) := by
  intro answers st
  obtain ⟨hfirst, hkept⟩ := hq answers st
  obtain ⟨hrest, hkept'⟩ := hf ((q.run answers).answer st).1 ((q.run answers).answer st).2
    ((q.run answers).after st)
  refine ⟨Nat.le_trans hrest ?_, fun count hc => (hkept' count hc).trans (hkept count hc)⟩
  omega

theorem spends_any {test : α → CachedQuery Bool} {xs : List α}
    (h : ∀ x ∈ xs, Spends doc left 0 (test x)) : Spends doc left 0 (any test xs) := by
  induction xs with
  | nil => exact spends_pure false
  | cons x xs ih =>
    obtain ⟨hx, hxs⟩ := List.forall_mem_cons.mp h
    refine Spends.bind hx (n := 0) fun passes => ?_
    cases passes with
    | true => exact spends_pure true
    | false => exact ih hxs

theorem run_cached_of_some {key : Nat × Nat} {compute : CachedQuery Bool}
    (h : answers[key]? = some b) : (cached key compute).run answers = pure (b, answers) := by
  simp [cached, h]

theorem run_cached_of_none {key : Nat × Nat} {compute : CachedQuery Bool}
    (h : answers[key]? = none) : (cached key compute).run answers =
      do
        let (answer, answers) ← compute.run answers
        return (answer, answers.insert key answer) := by
  simp [cached, h]

/-- Keeping the answer for an element closes the tests of the last compound there, so these pay
for computing it, and it is computed only while they are open. -/
theorem spends_cached {compute : CachedQuery Bool} {k : Combinator} {c : Compound}
    (hy : doc.isElement y = true) (h : Spends doc left c.randomTests compute) :
    Spends doc (⟨k, c⟩ :: left) 0 (cached (left.length + 1, y) compute) := by
  intro answers st
  cases hk : answers[(left.length + 1, y)]? with
  | some known =>
    rw [run_cached_of_some hk]
    exact ⟨Nat.le.refl, fun _ _ => rfl⟩
  | none =>
    rw [run_cached_of_none hk]
    obtain ⟨hspent, hkept⟩ := h answers st
    let result := (compute.run answers).answer st
    have hspent : ((compute.run answers).after st).drawn + Answers.openTests result.2 doc left ≤
        st.drawn + answers.openTests doc left + c.randomTests := hspent
    -- the computation keeps answers for fewer steps only, so the one for `y` is still missing
    have hlast : y ∈ Answers.missing result.2 doc (left.length + 1) := by
      rw [hkept _ (Nat.lt_succ_self _)]
      exact Answers.mem_missing.mpr ⟨hy, hk⟩
    have hclosed := Answers.length_missing_insert (b := result.1) hlast
    have hleft : Answers.openTests (result.2.insert (left.length + 1, y) result.1) doc left =
        Answers.openTests result.2 doc left :=
      Answers.openTests_insert_of_lt (Nat.lt_succ_self left.length)
    rw [hkept _ (Nat.lt_succ_self _)] at hclosed
    refine ⟨?_, fun count hc => ?_⟩
    · show ((compute.run answers).after st).drawn +
        Answers.openTests (result.2.insert (left.length + 1, y) result.1) doc (⟨k, c⟩ :: left) ≤ _
      simp only [Answers.openTests]
      rw [hleft, ← hclosed, Nat.succ_mul]
      omega
    · rw [List.length_cons] at hc
      show Answers.missing (result.2.insert (left.length + 1, y) result.1) doc count = _
      rw [Answers.missing_insert_of_ne (by omega), hkept count (by omega)]

end CachedQuery

/-- Every way through a chain to an element draws only for tests that no way before has made. -/
theorem spends_chainEndsAt (h : StepsDraw ctx steps) (hy : ctx.document.isElement y = true) :
    CachedQuery.Spends ctx.document steps 0 (chainEndsAt ctx steps y) := by
  induction steps generalizing y with
  | nil => exact CachedQuery.spends_pure true
  | cons step left ih =>
    obtain ⟨k, c⟩ := step
    obtain ⟨hc, hleft⟩ := List.forall_mem_cons.mp h
    refine CachedQuery.spends_cached hy ?_
    refine (CachedQuery.spends_lift (hc y)).bind (n := 0) fun passes => ?_
    cases passes with
    | false => exact CachedQuery.spends_pure false
    | true =>
      cases left with
      | nil => exact CachedQuery.spends_pure _
      | cons next left =>
        exact CachedQuery.spends_any fun x hx =>
          ih hleft (Combinator.isElement_of_mem_sources hx)

theorem Group.drawsAtMost_endsAt {g : Group} (h : StepsDraw ctx g.steps)
    (hy : ctx.document.isElement y = true) : (g.endsAt ctx y).DrawsAtMost
      (ctx.document.elements.length * stepsRandomTests g.steps) := by
  intro st
  have hsteps : StepsDraw ctx g.steps.reverse := fun t ht => h t (List.mem_reverse.mp ht)
  have hspent := (spends_chainEndsAt hsteps hy ∅ st).1
  rw [Answers.openTests_empty, stepsRandomTests_reverse] at hspent
  show (((chainEndsAt ctx g.steps.reverse y).run ∅).after st).drawn ≤ _
  omega

theorem drawsAtMost_anyGroupEndsAt {groups : List Group}
    (h : ∀ g ∈ groups, StepsDraw ctx g.steps) (hy : ctx.document.isElement y = true) :
    (anyGroupEndsAt ctx y groups).DrawsAtMost
      (ctx.document.elements.length * groupsRandomTests groups) := by
  induction groups with
  | nil => exact drawsAtMost_pure false
  | cons g gs ih =>
    obtain ⟨hg, hgs⟩ := List.forall_mem_cons.mp h
    rw [groupsRandomTests, Nat.mul_add]
    refine (g.drawsAtMost_endsAt hg hy).bind fun passes => ?_
    cases passes with
    | true => exact drawsAtMost_pure true
    | false => exact ih hgs

theorem Selector.drawsAtMost_matchesNode {s : Selector} (h : ∀ n, .selector n ∉ s.arguments) :
    (s.matchesNode ctx y).DrawsAtMost (ctx.document.elements.length * s.randomTests) := by
  unfold matchesNode
  split
  next hy =>
    rw [s.randomTests_eq]
    exact drawsAtMost_anyGroupEndsAt (fun g => s.stepsDraw h ctx) hy
  next => exact drawsAtMost_pure false

/-- A query asks each of its random tests at most once about each element: one match draws no
more answers than that, and a search no more from each of its scope nodes. -/
theorem Engine.draws_once_per_element (engine : Engine) (doc : Document) {s : Selector}
    (h : ∀ n, .selector n ∉ s.arguments) :
    (∀ node scope, (engine.matchesNode doc s node scope).DrawsAtMost
      (doc.elements.length * s.randomTests)) ∧
    ∀ scopes, (engine.find doc s scopes).DrawsAtMost
      (scopes.length * (doc.elements.length * s.randomTests)) := by
  refine ⟨fun node scope => ?_, drawsAtMost_find h⟩
  unfold matchesNode
  split
  next => exact drawsAtMost_pure _
  next => exact (s.drawsAtMost_matchesNode h).bind (n := 0) fun passes => drawsAtMost_pure _

/-- The selector `:indeterminate :indeterminate > :indeterminate`. -/
def randomAtEachStep : Selector :=
  let random : Compound := { pseudoClasses := [⟨.indeterminate, .none⟩] }
  ⟨[⟨[⟨.descendant, random⟩, ⟨.descendant, random⟩, ⟨.child, random⟩]⟩]⟩

/-- If every answer lets its element pass, the search draws nine answers from the document and six
from the outermost element. -/
theorem draws_randomAtEachStep : (∀ n, .selector n ∉ randomAtEachStep.arguments) ∧
    doubledElements.elements.length * randomAtEachStep.randomTests = 12 ∧
    (({ random := fun _ => true } : Engine).matchesNode doubledElements randomAtEachStep 4
      0).DrawsAtMost 12 ∧
    (({ random := fun _ => true } : Engine).find doubledElements randomAtEachStep
      [0, 1]).DrawsAtMost 24 ∧
    ((({ random := fun _ => true } : Engine).find doubledElements randomAtEachStep
      [0, 1]).after {}).drawn = 15 := by
  have hplain : ∀ n, .selector n ∉ randomAtEachStep.arguments := by
    intro n
    simp [randomAtEachStep, Selector.arguments, Selector.pseudoClasses, Selector.compounds]
  obtain ⟨hmatch, hfind⟩ := Engine.draws_once_per_element { random := fun _ => true }
    doubledElements hplain
  exact ⟨hplain, rfl, hmatch 4 0, hfind [0, 1], rfl⟩

end DocumentQuery
