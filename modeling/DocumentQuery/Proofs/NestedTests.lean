import DocumentQuery.Proofs.ForwardSearch
import DocumentQuery.Proofs.SelectorShape

namespace DocumentQuery

namespace PseudoClassName

/-- The pseudo-classes that ask for the scope node itself. -/
def scopeNames : List PseudoClassName :=
  [.scope, .xRoot, .xReset]

/-- The pseudo-classes that hold where their nested selector finds something. -/
def findingNames : List PseudoClassName :=
  [.has, .matching, .is, .any]

end PseudoClassName

/-- Whether no test of a selector asks for the scope node, not even one in a selector nested in
it. -/
inductive Selector.ScopeFree : Selector → Prop where
  | mk {s : Selector} (names : ∀ p ∈ s.pseudoClasses, p.name ∉ PseudoClassName.scopeNames)
      (nested : ∀ n, .selector n ∈ s.arguments → ScopeFree n) : ScopeFree s

/-- The same query, seen from another scope node. -/
def QueryContext.seenFrom (ctx : QueryContext) (scope : NodeId) : QueryContext :=
  { ctx with scope }

variable {ctx : QueryContext} {scope x y : NodeId}

theorem PseudoClassName.fits_scope {pseudo : PseudoClassName} (h : pseudo ∉ scopeNames)
    (argument : Argument) (doc : Document) (scope other x : NodeId) :
    pseudo.fits argument doc scope x = pseudo.fits argument doc other x := by
  cases pseudo with
  | scope | xRoot | xReset => exact absurd (by decide) h
  | _ => rfl

theorem PseudoClassName.metBy_seenFrom {pseudo : PseudoClassName} (h : pseudo ∉ scopeNames)
    {argument : Argument} {found found' : Prop} (hf : found' ↔ found) :
    pseudo.MetBy (ctx.seenFrom scope) x argument found' ↔ pseudo.MetBy ctx x argument found := by
  unfold MetBy
  split
  next => exact hf
  next => exact hf
  next => exact hf
  next => exact hf
  next => exact not_congr hf
  next => exact Iff.rfl
  next => rw [fits_scope h argument ctx.document ctx.scope scope x]; rfl

theorem Compound.metBy_seenFrom {c : Compound}
    (h : ∀ p ∈ c.pseudoClasses, p.MetBy (ctx.seenFrom scope) x ↔ p.MetBy ctx x) :
    c.MetBy (ctx.seenFrom scope) x ↔ c.MetBy ctx x := by
  obtain ⟨typeTest, id, classes, attributes, pseudoClasses, pseudoElements⟩ := c
  have hpseudo : allMetBy (ctx.seenFrom scope) pseudoClasses x ↔ allMetBy ctx pseudoClasses x := by
    rw [allMetBy_iff, allMetBy_iff]
    exact forall₂_congr h
  -- type tests and attribute tests do not look at the scope
  exact and_congr Iff.rfl (and_congr Iff.rfl (and_congr hpseudo Iff.rfl))

theorem stepsLead_seenFrom {steps : List Step}
    (h : ∀ t ∈ steps, ∀ x, t.compound.MetBy (ctx.seenFrom scope) x ↔ t.compound.MetBy ctx x) :
    stepsLead (ctx.seenFrom scope) steps x y ↔ stepsLead ctx steps x y := by
  induction steps generalizing x with
  | nil => exact Iff.rfl
  | cons step steps ih =>
    obtain ⟨k, c⟩ := step
    obtain ⟨hc, hrest⟩ := List.forall_mem_cons.mp h
    exact exists_congr fun z => and_congr Iff.rfl (and_congr (hc z) (ih hrest))

/-- What a selector finds depends on the scope only where a test asks for it. -/
theorem Selector.ScopeFree.leads_seenFrom {s : Selector} (h : s.ScopeFree) :
    s.Leads (ctx.seenFrom scope) x y ↔ s.Leads ctx x y := by
  induction h generalizing x y with
  | @mk s names nested ih =>
    have htest : ∀ p ∈ s.pseudoClasses, ∀ x, p.MetBy (ctx.seenFrom scope) x ↔ p.MetBy ctx x := by
      rintro ⟨name, argument⟩ hp x
      refine PseudoClassName.metBy_seenFrom (names _ hp) (exists_congr fun y => ?_)
      cases argument with
      | selector n => exact ih n (List.mem_map_of_mem hp)
      | none | text | nth | index => exact Iff.rfl
    rw [leads_iff, leads_iff]
    refine exists_congr fun g => and_congr_right fun hg => ?_
    obtain ⟨steps⟩ := g
    exact stepsLead_seenFrom fun t ht x =>
      Compound.metBy_seenFrom fun p hp => htest p (mem_pseudoClasses hg ht hp) x

section

variable {nested : Selector}

theorem PseudoClass.decides_finding (h : ctx.Settled) {name : PseudoClassName}
    (hname : name ∈ PseudoClassName.findingNames) :
    (PseudoClass.holds ctx ⟨name, .selector nested⟩ x).Decides (∃ y, nested.Leads ctx x y) := by
  refine (PseudoClass.decides_holds h _ x).congr ?_
  simp only [PseudoClassName.findingNames, List.mem_cons, List.not_mem_nil, or_false] at hname
  rcases hname with rfl | rfl | rfl | rfl <;> exact Iff.rfl

theorem PseudoClass.decides_not (h : ctx.Settled) :
    (PseudoClass.holds ctx ⟨.not, .selector nested⟩ x).Decides ¬∃ y, nested.Leads ctx x y :=
  PseudoClass.decides_holds h _ x

end

namespace Engine

variable {engine : Engine} {doc : Document}

theorem ensures_find_single (built : doc.Built) (steady : ∀ i, engine.random i = engine.random 0)
    (s : Selector) (hx : doc.contains x = true) :
    (engine.find doc s [x]).Ensures fun result => ∃ found, result = .ok found ∧
      ∀ y, y ∈ found ↔ s.Leads (engine.context doc x) x y := by
  have hknown : ∀ scope ∈ [x], doc.contains scope = true := by simpa using hx
  refine (ensures_find built steady s hknown).mono ?_
  rintro _ ⟨found, rfl, hfound⟩
  refine ⟨found, rfl, fun y => ?_⟩
  rw [hfound, Selector.leads_iff]
  simp

/-- A search from one scope node finds something exactly if the selector leads from it anywhere. -/
theorem find_ne_nil_iff (built : doc.Built) (steady : ∀ i, engine.random i = engine.random 0)
    (s : Selector) (hx : doc.contains x = true) (st : QueryState) :
    (∃ found, (engine.find doc s [x]).answer st = .ok found ∧ found ≠ []) ↔
      ∃ y, s.Leads (engine.context doc x) x y := by
  obtain ⟨found, hfind, hfound⟩ := ensures_find_single built steady s hx st
  simp only [hfind, Except.ok.injEq, exists_eq_left', ← hfound]
  exact ⟨List.exists_mem_of_ne_nil found, fun ⟨_, hy⟩ => List.ne_nil_of_mem hy⟩

/-- The tests with a nested selector ask whether it leads anywhere from the node, where all its
tests see the scope of the query. For a selector that does not ask for the scope, that is
whether a search from the node finds anything. -/
theorem nested_tests_iff_leads (built : doc.Built)
    (steady : ∀ i, engine.random i = engine.random 0) (s : Selector)
    (hx : doc.isElement x = true) (scope : NodeId) (st : QueryState) :
    (∀ name ∈ PseudoClassName.findingNames,
      (PseudoClass.holds (engine.context doc scope) ⟨name, .selector s⟩ x).answer st = true ↔
        ∃ y, ∃ g ∈ s.groups, g.Leads ⟨doc, scope, engine.prefixes, engine.random⟩ x y) ∧
    ((PseudoClass.holds (engine.context doc scope) ⟨.not, .selector s⟩ x).answer st = false ↔
        ∃ y, ∃ g ∈ s.groups, g.Leads ⟨doc, scope, engine.prefixes, engine.random⟩ x y) ∧
    (s.ScopeFree →
      (∀ name ∈ .not :: PseudoClassName.findingNames, ∀ other st',
        (PseudoClass.holds (engine.context doc other) ⟨name, .selector s⟩ x).answer st' =
          (PseudoClass.holds (engine.context doc scope) ⟨name, .selector s⟩ x).answer st) ∧
      ∀ st', (PseudoClass.holds (engine.context doc scope) ⟨.has, .selector s⟩ x).answer st = true ↔
        ∃ found, (engine.find doc s [x]).answer st' = .ok found ∧ found ≠ []) := by
  have hsettled := settled_context built steady
  simp only [← Selector.leads_iff]
  refine ⟨fun name hn => PseudoClass.decides_finding (hsettled scope) hn st, ?_, fun hfree => ?_⟩
  · rw [← Bool.not_eq_true]
    exact not_iff_comm.mp (PseudoClass.decides_not (hsettled scope) st).symm
  · have hsame (other y : NodeId) : s.Leads (engine.context doc other) x y ↔
        s.Leads (engine.context doc scope) x y :=
      @Selector.ScopeFree.leads_seenFrom (engine.context doc scope) other x y s hfree
    have hany (other : NodeId) := exists_congr (hsame other)
    refine ⟨fun name hn other st' => ?_, fun st' => ?_⟩
    · rcases List.mem_cons.mp hn with rfl | hn
      · have hother := (PseudoClass.decides_not (hsettled other)).congr (not_congr (hany other))
        exact hother.answer_eq (PseudoClass.decides_not (hsettled scope)) st' st
      · have hother := (PseudoClass.decides_finding (hsettled other) hn).congr (hany other)
        exact hother.answer_eq (PseudoClass.decides_finding (hsettled scope) hn) st' st
    · have hin : doc.contains x = true := decide_eq_true (Document.lt_size_of_isElement hx)
      rw [find_ne_nil_iff built steady s hin, hany x]
      exact PseudoClass.decides_finding (hsettled scope) (by decide) st

end Engine

/-- The selectors `> a` and `> b:not(> a)`. -/
def childA : Selector :=
  ⟨[⟨[⟨.child, { typeTest := some ⟨none, some "a"⟩ }⟩]⟩]⟩

def childWithoutA : Selector :=
  ⟨[⟨[⟨.child, { typeTest := some ⟨none, some "b"⟩, pseudoClasses := [⟨.not, .selector childA⟩] }⟩]⟩]⟩

theorem scopeFree_childA : childA.ScopeFree :=
  .mk (fun _ hp => nomatch hp) (fun _ hn => nomatch hn)

theorem scopeFree_childWithoutA : childWithoutA.ScopeFree := by
  refine .mk (fun p hp => ?_) (fun n hn => ?_)
  · rw [List.mem_singleton.mp hp]
    decide
  · cases List.mem_singleton.mp hn
    exact scopeFree_childA

/-- The element `a` holds a `b` that holds no `a`, wherever the query started; and it holds the
node where the query started, if that is the `b`. -/
theorem has_childWithoutA : nestedElements.Built ∧
    (∀ i, ({} : Engine).random i = ({} : Engine).random 0) ∧ nestedElements.isElement 1 = true ∧
    childWithoutA.ScopeFree ∧ .has ∈ PseudoClassName.findingNames ∧
    (PseudoClass.holds (({} : Engine).context nestedElements 2)
      ⟨.has, .selector childScope⟩ 1).answer {} = true ∧
    (∃ y, ∃ g ∈ childScope.groups, g.Leads ⟨nestedElements, 2, .empty, fun _ => false⟩ 1 y) ∧
    (∃ y, ∃ g ∈ childWithoutA.groups, g.Leads ⟨nestedElements, 2, .empty, fun _ => false⟩ 1 y) ∧
    (∀ scope, (PseudoClass.holds (({} : Engine).context nestedElements scope)
      ⟨.has, .selector childWithoutA⟩ 1).answer {} = true) ∧
    ∃ found, (({} : Engine).find nestedElements childWithoutA [1]).answer {} = .ok found ∧
      found ≠ [] := by
  have hscope : (PseudoClass.holds (({} : Engine).context nestedElements 2)
      ⟨.has, .selector childScope⟩ 1).answer {} = true := rfl
  have hholds : (PseudoClass.holds (({} : Engine).context nestedElements 2)
      ⟨.has, .selector childWithoutA⟩ 1).answer {} = true := rfl
  have hnested := fun s => @Engine.nested_tests_iff_leads 1 {} _ built_nestedElements
    (fun _ => rfl) s rfl 2 {}
  obtain ⟨hseen, -, -⟩ := hnested childScope
  obtain ⟨hfinds, -, hfree⟩ := hnested childWithoutA
  obtain ⟨hsame, hsearch⟩ := hfree scopeFree_childWithoutA
  exact ⟨built_nestedElements, fun _ => rfl, rfl, scopeFree_childWithoutA, by decide, hscope,
    (hseen .has (by decide)).mp hscope, (hfinds .has (by decide)).mp hholds,
    fun scope => (hsame .has (by decide) scope {}).trans hholds, (hsearch {}).mp hholds⟩

end DocumentQuery
