import DocumentQuery.Engine
import DocumentQuery.Proofs.QueryAnswers

namespace DocumentQuery

namespace Query

variable {α β : Type} {R : QueryState → QueryState → Prop}

/-- The state that a query leaves. -/
def after (q : Query α) (st : QueryState) : QueryState :=
  (Id.run (q.run st)).2

/-- Whether two queries that start from related states give one answer and leave related
states. -/
def Alike (R : QueryState → QueryState → Prop) (q q' : Query α) : Prop :=
  ∀ st st', R st st' → q.answer st = q'.answer st' ∧ R (q.after st) (q'.after st')

theorem alike_pure (a : α) : Alike R (pure a) (pure a) :=
  fun _ _ h => ⟨rfl, h⟩

theorem Alike.bind {q q' : Query α} {f f' : α → Query β} (hq : Alike R q q')
    (hf : ∀ a, Alike R (f a) (f' a)) : Alike R (q >>= f) (q' >>= f') := by
  intro st st' h
  obtain ⟨ha, hr⟩ := hq st st' h
  show (f (q.answer st)).answer (q.after st) = (f' (q'.answer st')).answer (q'.after st') ∧
    R ((f (q.answer st)).after (q.after st)) ((f' (q'.answer st')).after (q'.after st'))
  rw [ha]
  exact hf _ _ _ hr

theorem Alike.both {first first' second second' : Query Bool} (hf : Alike R first first')
    (hs : Alike R second second') : Alike R (both first second) (both first' second') := by
  refine hf.bind fun passes => ?_
  cases passes with
  | true => exact hs
  | false => exact alike_pure false

theorem Alike.guard {q q' : Query Bool} (h : Alike R q q') (b : Bool) :
    Alike R (if b then q else pure false) (if b then q' else pure false) := by
  cases b with
  | true => exact h
  | false => exact alike_pure false

theorem alike_all {test test' : α → Query Bool} {xs : List α}
    (h : ∀ x ∈ xs, Alike R (test x) (test' x)) : Alike R (all test xs) (all test' xs) := by
  induction xs with
  | nil => exact alike_pure true
  | cons x xs ih =>
    obtain ⟨hx, hxs⟩ := List.forall_mem_cons.mp h
    exact hx.both (ih hxs)

theorem alike_keep {test test' : α → Query Bool} {xs : List α}
    (h : ∀ x, Alike R (test x) (test' x)) : Alike R (keep test xs) (keep test' xs) := by
  induction xs with
  | nil => exact alike_pure []
  | cons x xs ih => exact (h x).bind fun _ => ih.bind fun _ => alike_pure _

end Query

namespace CachedQuery

variable {α β : Type} {R : QueryState → QueryState → Prop}

/-- Whether two queries with the same kept answers run alike, and keep the same answers. -/
def Alike (R : QueryState → QueryState → Prop) (q q' : CachedQuery α) : Prop :=
  ∀ answers, Query.Alike R (q.run answers) (q'.run answers)

theorem alike_pure (a : α) : Alike R (pure a) (pure a) :=
  fun _ => Query.alike_pure _

theorem alike_lift {q q' : Query α} (h : Query.Alike R q q') : Alike R (liftM q) (liftM q') := by
  intro answers st st' hst
  obtain ⟨ha, hr⟩ := h st st' hst
  exact ⟨congrArg (fun a => (a, answers)) ha, hr⟩

theorem Alike.bind {q q' : CachedQuery α} {f f' : α → CachedQuery β} (hq : Alike R q q')
    (hf : ∀ a, Alike R (f a) (f' a)) : Alike R (q >>= f) (q' >>= f') :=
  fun answers => (hq answers).bind fun result => hf result.1 result.2

theorem alike_any {test test' : α → CachedQuery Bool} {xs : List α}
    (h : ∀ x, Alike R (test x) (test' x)) : Alike R (any test xs) (any test' xs) := by
  induction xs with
  | nil => exact alike_pure false
  | cons x xs ih =>
    refine (h x).bind fun passes => ?_
    cases passes with
    | true => exact alike_pure true
    | false => exact ih

theorem Alike.cached {compute compute' : CachedQuery Bool} (h : Alike R compute compute')
    (key : Nat × Nat) : Alike R (cached key compute) (cached key compute') := by
  have hget : Alike R (get : CachedQuery Answers) get := fun _ => Query.alike_pure _
  refine hget.bind fun answers => ?_
  cases answers[key]? with
  | some known => exact alike_pure known
  | none =>
    refine h.bind fun answer => ?_
    have hkeep : Alike R (modify fun answers => answers.insert key answer : CachedQuery Unit)
        (modify fun answers => answers.insert key answer) := fun _ => Query.alike_pure _
    exact hkeep.bind fun _ => alike_pure answer

end CachedQuery

open Query

/-- The same query with another source of random answers. -/
def QueryContext.drawingFrom (ctx : QueryContext) (random : Nat → Bool) : QueryContext :=
  { ctx with random }

variable {R : QueryState → QueryState → Prop} {ctx : QueryContext} {other : Nat → Bool}
  {x : NodeId}

/-- Whether a warning keeps related states related. -/
def Query.WarnsAlike (R : QueryState → QueryState → Prop) (message : String) : Prop :=
  Alike R (warn message) (warn message)

/-- What is warned of where a prefix has no namespace. -/
def undeclaredPrefix (nsPrefix : String) : String :=
  "namespace prefix '" ++ nsPrefix ++ "' is not declared; '" ++ nsPrefix ++ "|' matches nothing"

/-- What is warned of where a pseudo-class asks for the state of a user agent. -/
def PseudoClassName.withoutUserAgent (pseudo : PseudoClassName) : String :=
  "':" ++ pseudo.spelling ++ "' has no user-agent context and never matches"

/-- What is warned of where an answer is drawn. -/
def randomAnswer : String :=
  "':indeterminate' answers with a random boolean"

namespace QueryContext

theorem alike_resolve {nsPrefix : String}
    (h : ctx.prefixes.get? nsPrefix = none → WarnsAlike R (undeclaredPrefix nsPrefix)) :
    Alike R (ctx.resolve nsPrefix x) (ctx.resolve nsPrefix x) := by
  unfold resolve
  split
  next uri _ => exact alike_pure (some uri)
  next hnone =>
    have hwarn := h (Option.or_eq_none_iff.mp hnone).1
    exact hwarn.bind fun _ => alike_pure none

theorem alike_namespaceHolds {ns : Option NamespaceTest} {e : Element}
    (h : ∀ p, .bound p ∈ ns → ctx.prefixes.get? p = none → WarnsAlike R (undeclaredPrefix p)) :
    Alike R (ctx.namespaceHolds ns x e) (ctx.namespaceHolds ns x e) := by
  match ns with
  | none | some .any | some .without => exact alike_pure _
  | some (.bound nsPrefix) =>
    refine (alike_resolve (h nsPrefix rfl)).bind fun uri => ?_
    cases uri with
    | some uri => exact alike_pure _
    | none => exact alike_pure false

theorem alike_attributeHolds {test : AttributeTest}
    (h : ∀ p, .bound p ∈ test.ns → ctx.prefixes.get? p = none →
      WarnsAlike R (undeclaredPrefix p)) :
    Alike R (ctx.attributeHolds x test) (ctx.attributeHolds x test) := by
  obtain ⟨ns, name, operator, value⟩ := test
  match ns with
  | none | some .any | some .without => exact alike_pure _
  | some (.bound nsPrefix) =>
    refine (alike_resolve (h nsPrefix rfl)).bind fun uri => ?_
    cases uri with
    | some uri => exact alike_pure _
    | none => exact alike_pure false

end QueryContext

/-- The namespace tests of a compound, of its type test and of its attribute tests. -/
def Compound.namespaces (c : Compound) : List NamespaceTest :=
  (c.typeTest.bind TypeTest.ns).toList ++ c.attributes.filterMap AttributeTest.ns

theorem Compound.alike_plainTestsHold {c : Compound}
    (h : ∀ p, .bound p ∈ c.namespaces → ctx.prefixes.get? p = none →
      WarnsAlike R (undeclaredPrefix p)) :
    Alike R (ctx.plainTestsHold c.typeTest c.id c.classes c.attributes x)
      (ctx.plainTestsHold c.typeTest c.id c.classes c.attributes x) := by
  unfold QueryContext.plainTestsHold
  split
  next e _ =>
    have htype : Alike R (ctx.typeHolds c.typeTest x e) (ctx.typeHolds c.typeTest x e) := by
      unfold QueryContext.typeHolds
      split
      next => exact alike_pure true
      next test htest =>
        refine Alike.guard (QueryContext.alike_namespaceHolds fun p hp => h p ?_) _
        have hmem : .bound p ∈ c.typeTest.bind TypeTest.ns := by rw [htest]; exact hp
        exact List.mem_append_left _ (Option.mem_toList.mpr hmem)
    refine htype.both (Alike.guard (alike_all fun test htest => ?_) _)
    refine QueryContext.alike_attributeHolds fun p hp => h p ?_
    exact List.mem_append_right _ (List.mem_filterMap.mpr ⟨test, htest, hp⟩)
  next => exact alike_pure false

theorem QueryContext.alike_pseudoClassHolds {pseudo : PseudoClassName} {argument : Argument}
    {nested nested' : Query Bool}
    (hstate : pseudo.isUserAgentState = true → WarnsAlike R pseudo.withoutUserAgent)
    (hrandom : pseudo = .indeterminate →
      WarnsAlike R randomAnswer ∧ Alike R (draw ctx.random) (draw other))
    (h : Alike R nested nested') :
    Alike R (ctx.pseudoClassHolds pseudo argument nested x)
      ((ctx.drawingFrom other).pseudoClassHolds pseudo argument nested' x) := by
  unfold pseudoClassHolds
  by_cases hs : pseudo.isUserAgentState = true
  · rw [if_pos hs, if_pos hs]
    have hwarn := hstate hs
    exact hwarn.bind fun _ => alike_pure false
  · rw [if_neg hs, if_neg hs]
    cases pseudo with
    | indeterminate =>
      obtain ⟨hwarn, hdraw⟩ := hrandom rfl
      exact hwarn.bind fun _ => hdraw
    | has | matching | is | any => exact h
    | not => exact h.bind fun _ => alike_pure _
    | _ => exact alike_pure _

theorem alike_pseudoClassesHold {tests : List PseudoClass}
    (h : ∀ p ∈ tests, Alike R (p.holds ctx x) (p.holds (ctx.drawingFrom other) x)) :
    Alike R (pseudoClassesHold ctx tests x)
      (pseudoClassesHold (ctx.drawingFrom other) tests x) := by
  induction tests with
  | nil => exact alike_pure true
  | cons p ps ih =>
    obtain ⟨hp, hps⟩ := List.forall_mem_cons.mp h
    exact hp.both (ih hps)

theorem Compound.alike_holds {c : Compound}
    (hplain : ∀ p, .bound p ∈ c.namespaces → ctx.prefixes.get? p = none →
      WarnsAlike R (undeclaredPrefix p))
    (htests : ∀ p ∈ c.pseudoClasses,
      Alike R (p.holds ctx x) (p.holds (ctx.drawingFrom other) x)) :
    Alike R (c.holds ctx x) (c.holds (ctx.drawingFrom other) x) := by
  have hpseudo := alike_pseudoClassesHold htests
  have hnames := c.alike_plainTestsHold (x := x) hplain
  obtain ⟨typeTest, id, classes, attributes, pseudoClasses, pseudoElements⟩ := c
  exact hnames.both (hpseudo.both (alike_pure _))

/-- Whether the compounds of steps are tested alike with two sources of random answers. -/
def StepsAlike (R : QueryState → QueryState → Prop) (ctx : QueryContext) (other : Nat → Bool)
    (steps : List Step) : Prop :=
  ∀ t ∈ steps, ∀ x, Alike R (t.compound.holds ctx x) (t.compound.holds (ctx.drawingFrom other) x)

theorem alike_stepsFrom {steps : List Step} (h : StepsAlike R ctx other steps)
    (current : List NodeId) :
    Alike R (stepsFrom ctx steps current) (stepsFrom (ctx.drawingFrom other) steps current) := by
  induction steps generalizing current with
  | nil => exact alike_pure current
  | cons step steps ih =>
    obtain ⟨k, c⟩ := step
    obtain ⟨hc, hrest⟩ := List.forall_mem_cons.mp h
    refine (alike_keep hc).bind fun kept => ?_
    cases kept with
    | nil => exact alike_pure []
    | cons z kept => exact ih hrest (z :: kept)

theorem Group.alike_foundFrom {g : Group} (h : StepsAlike R ctx other g.steps) :
    Alike R (g.foundFrom ctx x) (g.foundFrom (ctx.drawingFrom other) x) := by
  obtain ⟨steps⟩ := g
  exact alike_stepsFrom h [x]

theorem Selector.alike_findsFrom {s : Selector}
    (h : ∀ g ∈ s.groups, StepsAlike R ctx other g.steps) :
    Alike R (s.findsFrom ctx x) (s.findsFrom (ctx.drawingFrom other) x) := by
  obtain ⟨groups⟩ := s
  induction groups with
  | nil => exact alike_pure false
  | cons g gs ih =>
    obtain ⟨hg, hgs⟩ := List.forall_mem_cons.mp h
    refine (g.alike_foundFrom hg).bind fun found => ?_
    cases found with
    | nil => exact ih hgs
    | cons y found => exact alike_pure true

theorem alike_chainEndsAt {steps : List Step} (h : StepsAlike R ctx other steps) (x : NodeId) :
    CachedQuery.Alike R (chainEndsAt ctx steps x) (chainEndsAt (ctx.drawingFrom other) steps x) := by
  induction steps generalizing x with
  | nil => exact CachedQuery.alike_pure true
  | cons step left ih =>
    obtain ⟨k, c⟩ := step
    obtain ⟨hc, hleft⟩ := List.forall_mem_cons.mp h
    refine CachedQuery.Alike.cached ?_ (left.length + 1, x)
    refine (CachedQuery.alike_lift (hc x)).bind fun passes => ?_
    cases passes with
    | false => exact CachedQuery.alike_pure false
    | true =>
      cases left with
      | nil => exact CachedQuery.alike_pure _
      | cons next left => exact CachedQuery.alike_any (ih hleft)

theorem Group.alike_endsAt {g : Group} (h : StepsAlike R ctx other g.steps) :
    Alike R (g.endsAt ctx x) (g.endsAt (ctx.drawingFrom other) x) := by
  have hsteps : StepsAlike R ctx other g.steps.reverse :=
    fun t ht => h t (List.mem_reverse.mp ht)
  exact (alike_chainEndsAt hsteps x ∅).bind fun _ => alike_pure _

theorem alike_anyGroupEndsAt {groups : List Group}
    (h : ∀ g ∈ groups, StepsAlike R ctx other g.steps) :
    Alike R (anyGroupEndsAt ctx x groups) (anyGroupEndsAt (ctx.drawingFrom other) x groups) := by
  induction groups with
  | nil => exact alike_pure false
  | cons g gs ih =>
    obtain ⟨hg, hgs⟩ := List.forall_mem_cons.mp h
    refine (g.alike_endsAt hg).bind fun passes => ?_
    cases passes with
    | true => exact alike_pure true
    | false => exact ih hgs

theorem Selector.alike_matchesNode {s : Selector}
    (h : ∀ g ∈ s.groups, StepsAlike R ctx other g.steps) :
    Alike R (s.matchesNode ctx x) (s.matchesNode (ctx.drawingFrom other) x) :=
  (alike_anyGroupEndsAt h).guard _

namespace Engine

variable {engine : Engine} {doc : Document} {s : Selector}

/-- The same settings with another source of random answers. -/
def drawingFrom (engine : Engine) (random : Nat → Bool) : Engine :=
  { engine with random }

theorem alike_foundByGroups {groups : List Group}
    (h : ∀ g ∈ groups, StepsAlike R ctx other g.steps) :
    Alike R (foundByGroups ctx x groups) (foundByGroups (ctx.drawingFrom other) x groups) := by
  induction groups with
  | nil => exact alike_pure []
  | cons g gs ih =>
    obtain ⟨hg, hgs⟩ := List.forall_mem_cons.mp h
    exact (g.alike_foundFrom hg).bind fun found => (ih hgs).bind fun others => alike_pure _

theorem alike_foundFromScopes (scopes : List NodeId)
    (h : ∀ scope, ∀ g ∈ s.groups, StepsAlike R (engine.context doc scope) other g.steps) :
    Alike R (engine.foundFromScopes doc s scopes)
      ((engine.drawingFrom other).foundFromScopes doc s scopes) := by
  induction scopes with
  | nil => exact alike_pure []
  | cons scope scopes ih =>
    exact (alike_foundByGroups (h scope)).bind fun found => ih.bind fun others => alike_pure _

theorem alike_find (scopes : List NodeId)
    (h : ∀ scope, ∀ g ∈ s.groups, StepsAlike R (engine.context doc scope) other g.steps) :
    Alike R (engine.find doc s scopes) ((engine.drawingFrom other).find doc s scopes) := by
  unfold find
  split
  next => exact alike_pure _
  next => exact (alike_foundFromScopes scopes h).bind fun found => alike_pure _

theorem alike_matchesNode (node scope : NodeId)
    (h : ∀ g ∈ s.groups, StepsAlike R (engine.context doc scope) other g.steps) :
    Alike R (engine.matchesNode doc s node scope)
      ((engine.drawingFrom other).matchesNode doc s node scope) := by
  unfold matchesNode
  split
  next => exact alike_pure _
  next => exact (s.alike_matchesNode h).bind fun passes => alike_pure _

end Engine

end DocumentQuery
