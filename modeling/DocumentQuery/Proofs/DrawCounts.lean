import DocumentQuery.Proofs.RelatedRuns
import DocumentQuery.Proofs.SelectorShape

namespace DocumentQuery

namespace Query

variable {α β : Type} {m n : Nat}

/-- Whether a query draws at most so many random answers, whatever was asked before it. -/
def DrawsAtMost (q : Query α) (n : Nat) : Prop :=
  ∀ st, (q.after st).drawn ≤ st.drawn + n

theorem drawsAtMost_pure (a : α) : DrawsAtMost (pure a) n :=
  fun _ => Nat.le_add_right _ n

theorem drawsAtMost_warn (message : String) : DrawsAtMost (warn message) 0 :=
  fun _ => Nat.le.refl

theorem drawsAtMost_draw (source : Nat → Bool) : DrawsAtMost (draw source) 1 :=
  fun _ => Nat.le.refl

theorem DrawsAtMost.mono {q : Query α} (h : q.DrawsAtMost m) (hle : m ≤ n) : q.DrawsAtMost n :=
  fun st => Nat.le_trans (h st) (Nat.add_le_add_left hle _)

theorem DrawsAtMost.bind {q : Query α} {f : α → Query β} (hq : q.DrawsAtMost m)
    (hf : ∀ a, (f a).DrawsAtMost n) : (q >>= f).DrawsAtMost (m + n) := by
  intro st
  have hfirst := hq st
  have hrest := hf (q.answer st) (q.after st)
  show ((f (q.answer st)).after (q.after st)).drawn ≤ _
  omega

theorem DrawsAtMost.both {first second : Query Bool} (hf : first.DrawsAtMost m)
    (hs : second.DrawsAtMost n) : (both first second).DrawsAtMost (m + n) := by
  refine hf.bind fun passes => ?_
  cases passes with
  | true => exact hs
  | false => exact drawsAtMost_pure false

theorem drawsAtMost_keep {test : α → Query Bool} (h : ∀ x, (test x).DrawsAtMost n)
    (xs : List α) : (keep test xs).DrawsAtMost (xs.length * n) := by
  induction xs with
  | nil => exact drawsAtMost_pure []
  | cons x xs ih =>
    have hall := (h x).bind fun passes => ih.bind fun others =>
      drawsAtMost_pure (n := 0) (if passes then x :: others else others)
    refine hall.mono ?_
    rw [List.length_cons, Nat.succ_mul]
    omega

end Query

open Query

/-- How many tests of a compound ask for a random answer. -/
def Compound.randomTests (c : Compound) : Nat :=
  c.pseudoClasses.countP fun p => p.name = .indeterminate

/-- How many tests of steps ask for a random answer. -/
def stepsRandomTests : List Step → Nat
  | [] => 0
  | t :: rest => t.compound.randomTests + stepsRandomTests rest

/-- How many tests of groups ask for a random answer. -/
def groupsRandomTests : List Group → Nat
  | [] => 0
  | g :: gs => stepsRandomTests g.steps + groupsRandomTests gs

/-- How many tests of a selector ask for a random answer. -/
def Selector.randomTests (s : Selector) : Nat :=
  s.pseudoClasses.countP fun p => p.name = .indeterminate

theorem stepsRandomTests_append (before after : List Step) :
    stepsRandomTests (before ++ after) = stepsRandomTests before + stepsRandomTests after := by
  induction before with
  | nil => exact (Nat.zero_add _).symm
  | cons t before ih => rw [List.cons_append, stepsRandomTests, stepsRandomTests, ih, Nat.add_assoc]

theorem stepsRandomTests_reverse (steps : List Step) :
    stepsRandomTests steps.reverse = stepsRandomTests steps := by
  induction steps with
  | nil => rfl
  | cons t rest ih =>
    rw [List.reverse_cons, stepsRandomTests_append, ih]
    simp only [stepsRandomTests]
    omega

theorem countP_steps (steps : List Step) :
    ((steps.map Step.compound).flatMap Compound.pseudoClasses).countP
      (fun p => p.name = .indeterminate) = stepsRandomTests steps := by
  induction steps with
  | nil => rfl
  | cons t rest ih =>
    rw [List.map_cons, List.flatMap_cons, List.countP_append, ih]
    rfl

theorem Selector.randomTests_eq (s : Selector) : s.randomTests = groupsRandomTests s.groups := by
  obtain ⟨groups⟩ := s
  rw [randomTests, pseudoClasses, compounds, List.flatMap_assoc]
  induction groups with
  | nil => rfl
  | cons g gs ih =>
    rw [List.flatMap_cons, List.countP_append, countP_steps, ih]
    rfl

/-- A query draws nothing if it keeps every number of draws that warnings keep. -/
theorem Query.drawsAtMost_of_alike {α : Type} {q : Query α}
    (h : ∀ drawn, (∀ message, WarnsAlike (fun st _ => st.drawn = drawn) message) →
      Alike (fun st _ => st.drawn = drawn) q q) : q.DrawsAtMost 0 := by
  intro st
  have hkept := h st.drawn (fun _ _ _ hd => ⟨rfl, hd⟩) st st rfl
  exact Nat.le_of_eq hkept.2

variable {ctx : QueryContext} {x : NodeId}

/-- Only `:indeterminate` draws, and it draws once. -/
theorem PseudoClass.drawsAtMost_holds {p : PseudoClass} (h : ∀ n, p.argument ≠ .selector n) :
    (p.holds ctx x).DrawsAtMost (if p.name = .indeterminate then 1 else 0) := by
  obtain ⟨name, argument⟩ := p
  by_cases hname : name = .indeterminate
  · subst hname
    exact (drawsAtMost_warn _).bind fun _ => drawsAtMost_draw ctx.random
  · rw [if_neg hname]
    refine drawsAtMost_of_alike fun drawn hwarn => ?_
    let nested := argument.findsFrom ctx x
    show Alike _ (ctx.pseudoClassHolds name argument nested x)
      ((ctx.drawingFrom ctx.random).pseudoClassHolds name argument nested x)
    refine QueryContext.alike_pseudoClassHolds (fun _ => hwarn _) (fun he => absurd he hname) ?_
    cases argument with
    | selector n => exact absurd rfl (h n)
    | none | text | nth | index => exact alike_pure false

theorem drawsAtMost_pseudoClassesHold {tests : List PseudoClass}
    (h : ∀ p ∈ tests, ∀ n, p.argument ≠ .selector n) :
    (pseudoClassesHold ctx tests x).DrawsAtMost
      (tests.countP fun p => p.name = .indeterminate) := by
  induction tests with
  | nil => exact drawsAtMost_pure true
  | cons p ps ih =>
    obtain ⟨hp, hps⟩ := List.forall_mem_cons.mp h
    have hfirst : (p.holds ctx x).DrawsAtMost _ := PseudoClass.drawsAtMost_holds hp
    refine (hfirst.both (ih hps)).mono ?_
    rw [List.countP_cons]
    simp only [decide_eq_true_eq]
    omega

theorem Compound.drawsAtMost_holds {c : Compound}
    (h : ∀ p ∈ c.pseudoClasses, ∀ n, p.argument ≠ .selector n) :
    (c.holds ctx x).DrawsAtMost c.randomTests := by
  have hplain : DrawsAtMost (ctx.plainTestsHold c.typeTest c.id c.classes c.attributes x) 0 :=
    drawsAtMost_of_alike fun drawn hwarn => c.alike_plainTestsHold fun p _ _ => hwarn _
  have htests : DrawsAtMost (pseudoClassesHold ctx c.pseudoClasses x) _ :=
    drawsAtMost_pseudoClassesHold h
  obtain ⟨typeTest, id, classes, attributes, pseudoClasses, pseudoElements⟩ := c
  have hall := hplain.both (htests.both (drawsAtMost_pure (n := 0)
    (ctx.pseudoElementsHold pseudoElements x)))
  exact hall.mono (by simp [randomTests])

/-- Whether testing a compound of steps draws no more than the compound has random tests. -/
def StepsDraw (ctx : QueryContext) (steps : List Step) : Prop :=
  ∀ t ∈ steps, ∀ x, (t.compound.holds ctx x).DrawsAtMost t.compound.randomTests

namespace Document

variable {doc : Document}

/-- The elements of a tree, attached or not. -/
def elements (doc : Document) : List NodeId :=
  (List.range doc.size).filter doc.isElement

theorem mem_elements : x ∈ doc.elements ↔ doc.isElement x = true := by
  rw [elements, List.mem_filter, List.mem_range]
  exact and_iff_right_of_imp lt_size_of_isElement

theorem nodup_elements (doc : Document) : doc.elements.Nodup :=
  List.nodup_range.filter _

theorem length_le_elements {xs : List NodeId} (hn : xs.Nodup)
    (hx : ∀ x ∈ xs, doc.isElement x = true) : xs.length ≤ doc.elements.length :=
  hn.length_le_of_subset fun x hm => mem_elements.mpr (hx x hm)

end Document

theorem Combinator.isElement_of_mem_targets {k : Combinator} {doc : Document} {y : NodeId}
    (h : y ∈ k.targets doc x) : doc.isElement y = true := by
  cases k with
  | descendant | child | generalSibling => exact (List.mem_filter.mp h).2
  | adjacentSibling => exact List.find?_some (Option.mem_toList.mp h)

theorem Combinator.isElement_of_mem_sources {k : Combinator} {doc : Document} {y : NodeId}
    (h : y ∈ k.sources doc x) : doc.isElement y = true := by
  cases k with
  | descendant | child | generalSibling => exact (List.mem_filter.mp h).2
  | adjacentSibling => exact List.find?_some (Option.mem_toList.mp h)

/-- A step tests each element at most once, whatever it starts from. -/
theorem drawsAtMost_stepsFrom {steps : List Step} (h : StepsDraw ctx steps)
    (current : List NodeId) : (stepsFrom ctx steps current).DrawsAtMost
      (ctx.document.elements.length * stepsRandomTests steps) := by
  induction steps generalizing current with
  | nil => exact drawsAtMost_pure current
  | cons step rest ih =>
    obtain ⟨k, c⟩ := step
    obtain ⟨hc, hrest⟩ := List.forall_mem_cons.mp h
    let reached := distinct (current.flatMap (k.targets ctx.document))
    have hreached : reached.length ≤ ctx.document.elements.length := by
      refine Document.length_le_elements (nodup_distinct _) fun y hy => ?_
      obtain ⟨z, -, hz⟩ := List.mem_flatMap.mp (mem_distinct.mp hy)
      exact k.isElement_of_mem_targets hz
    have hfirst := drawsAtMost_keep hc reached
    have hall := hfirst.bind (n := ctx.document.elements.length * stepsRandomTests rest)
      (f := fun kept => if kept.isEmpty then return [] else stepsFrom ctx rest kept) fun kept => by
        cases kept with
        | nil => exact drawsAtMost_pure []
        | cons z kept => exact ih hrest (z :: kept)
    refine hall.mono ?_
    rw [stepsRandomTests, Nat.mul_add]
    exact Nat.add_le_add_right (Nat.mul_le_mul_right _ hreached) _

theorem Group.drawsAtMost_foundFrom {g : Group} (h : StepsDraw ctx g.steps) :
    (g.foundFrom ctx x).DrawsAtMost
      (ctx.document.elements.length * stepsRandomTests g.steps) := by
  obtain ⟨steps⟩ := g
  exact drawsAtMost_stepsFrom h [x]

theorem Selector.stepsDraw {s : Selector} (h : ∀ n, .selector n ∉ s.arguments)
    (ctx : QueryContext) {g : Group} (hg : g ∈ s.groups) : StepsDraw ctx g.steps := by
  refine fun t ht x => Compound.drawsAtMost_holds fun p hp n he => h n ?_
  rw [← he]
  exact List.mem_map_of_mem (mem_pseudoClasses hg ht hp)

namespace Engine

theorem drawsAtMost_foundByGroups {groups : List Group}
    (h : ∀ g ∈ groups, StepsDraw ctx g.steps) : (foundByGroups ctx x groups).DrawsAtMost
      (ctx.document.elements.length * groupsRandomTests groups) := by
  induction groups with
  | nil => exact drawsAtMost_pure []
  | cons g gs ih =>
    obtain ⟨hg, hgs⟩ := List.forall_mem_cons.mp h
    rw [groupsRandomTests, Nat.mul_add]
    exact (g.drawsAtMost_foundFrom hg).bind fun found =>
      (ih hgs).bind (n := 0) fun others => drawsAtMost_pure (found ++ others)

variable {engine : Engine} {doc : Document} {s : Selector}

theorem drawsAtMost_foundFromScopes (h : ∀ n, .selector n ∉ s.arguments) (scopes : List NodeId) :
    (engine.foundFromScopes doc s scopes).DrawsAtMost
      (scopes.length * (doc.elements.length * s.randomTests)) := by
  induction scopes with
  | nil => exact drawsAtMost_pure []
  | cons scope scopes ih =>
    have hscope := drawsAtMost_foundByGroups (x := scope) fun g =>
      s.stepsDraw h (engine.context doc scope)
    rw [← s.randomTests_eq] at hscope
    have hall := hscope.bind fun found =>
      ih.bind (n := 0) fun others => drawsAtMost_pure (found ++ others)
    refine hall.mono ?_
    rw [List.length_cons, Nat.succ_mul, Nat.add_comm]
    exact Nat.le.refl

theorem drawsAtMost_find (h : ∀ n, .selector n ∉ s.arguments) (scopes : List NodeId) :
    (engine.find doc s scopes).DrawsAtMost
      (scopes.length * (doc.elements.length * s.randomTests)) := by
  unfold find
  split
  next => exact drawsAtMost_pure _
  next =>
    exact (drawsAtMost_foundFromScopes h scopes).bind (n := 0) fun found => drawsAtMost_pure _

end Engine

end DocumentQuery
