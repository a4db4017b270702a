import DocumentQuery.Engine
import DocumentQuery.Proofs.DocumentLinks
import DocumentQuery.Proofs.QueryAnswers

namespace DocumentQuery

open Query

/-- The answer to whether a node matches a compound that stands alone. -/
def Engine.matchesAlone (engine : Engine) (doc : Document) (scope : NodeId) (c : Compound)
    (x : NodeId) (st : QueryState) : Except SelectorError Bool :=
  (engine.matchesNode doc (.ofCompound c) x scope).answer st

variable {ctx : QueryContext} {c : Compound} {x : NodeId}

theorem Group.endsAt_single : Group.endsAt ctx ⟨[⟨.descendant, c⟩]⟩ x = c.holds ctx x := by
  have hgoes (passes : Bool) : (fun result : Bool × Answers => result.1) <$>
      StateT.run (if passes = true then pure true else pure false : CachedQuery Bool) ∅ =
        (pure passes : Query Bool) := by
    cases passes <;> rfl
  unfold Group.endsAt
  simp only [List.reverse_cons, List.reverse_nil, List.nil_append]
  unfold chainEndsAt CachedQuery.cached
  simp [Combinator.relatesToScope, hgoes]

theorem Selector.matchesNode_ofCompound (hx : ctx.document.isElement x = true) :
    (Selector.ofCompound c).matchesNode ctx x = c.holds ctx x := by
  have hgoes (passes : Bool) : (if passes = true then pure true else pure false : Query Bool) =
      pure passes := by
    cases passes <;> rfl
  rw [Selector.matchesNode, if_pos hx]
  simp [ofCompound, anyGroupEndsAt, Group.endsAt_single, hgoes]

/-- Whether a pseudo-class asks for the place, the attributes and the text of a node alone. -/
def PseudoClassName.asksNode (pseudo : PseudoClassName) : Bool :=
  !pseudo.isUserAgentState && pseudo ∉ [.indeterminate, .has, .matching, .is, .any, .not]

section AsksNode

variable {pseudo : PseudoClassName} (h : pseudo.asksNode = true) (argument : Argument)

include h

theorem PseudoClass.holds_of_asksNode : PseudoClass.holds ctx ⟨pseudo, argument⟩ x =
    pure (pseudo.fits argument ctx.document ctx.scope x) := by
  cases pseudo
  all_goals first
    | rfl
    | exact absurd h (by decide)

theorem PseudoClassName.metBy_of_asksNode {found : Prop} : pseudo.MetBy ctx x argument found ↔
    pseudo.fits argument ctx.document ctx.scope x = true := by
  cases pseudo
  all_goals first
    | exact and_iff_right rfl
    | exact absurd h (by decide)

end AsksNode

namespace Compound

/-- Whether no pseudo-class of a compound warns, draws an answer or starts a search. -/
def AsksNode (c : Compound) : Prop :=
  ∀ p ∈ c.pseudoClasses, p.name.asksNode = true

theorem asksNode_of_nil (h : c.pseudoClasses = []) : c.AsksNode := by
  intro p hp
  rw [h] at hp
  cases hp

theorem asksNode_of_single {p : PseudoClass} (h : p.name.asksNode = true) :
    AsksNode { pseudoClasses := [p] } :=
  List.forall_mem_singleton.mpr h

theorem metBy_iff : c.MetBy ctx x ↔ ∃ e, ctx.document.element? x = some e ∧
    (∀ test ∈ c.typeTest, test.MetBy ctx x e) ∧ (∀ name ∈ c.id, e.id? = some name) ∧
    (∀ name ∈ c.classes, name ∈ e.classes) ∧ (∀ test ∈ c.attributes, test.MetBy ctx x) ∧
    (∀ p ∈ c.pseudoClasses, p.MetBy ctx x) ∧
    (c.pseudoElements ≠ [] → ctx.document.textContent x ≠ []) := by
  obtain ⟨typeTest, id, classes, attributes, pseudoClasses, pseudoElements⟩ := c
  rw [MetBy, allMetBy_iff]
  constructor
  · rintro ⟨⟨e, he, htype, hid, hclasses⟩, hrest⟩
    exact ⟨e, he, htype, hid, hclasses, hrest⟩
  · rintro ⟨e, he, htype, hid, hclasses, hrest⟩
    exact ⟨⟨e, he, htype, hid, hclasses⟩, hrest⟩

theorem decides_allMetBy {tests : List PseudoClass} (h : ∀ p ∈ tests, p.name.asksNode = true) :
    (pseudoClassesHold ctx tests x).Decides (allMetBy ctx tests x) := by
  induction tests with
  | nil => exact decides_pure (by simp [allMetBy])
  | cons p ps ih =>
    obtain ⟨hp, hps⟩ := List.forall_mem_cons.mp h
    obtain ⟨name, argument⟩ := p
    have hfirst : (PseudoClass.holds ctx ⟨name, argument⟩ x).Decides
        (PseudoClass.MetBy ctx ⟨name, argument⟩ x) := by
      rw [PseudoClass.holds_of_asksNode hp]
      exact decides_pure (PseudoClassName.metBy_of_asksNode hp argument).symm
    exact hfirst.both fun _ => ih hps

/-- Where nothing is drawn and nothing is searched for, a compound is tested right in any tree. -/
theorem AsksNode.decides_holds (h : c.AsksNode) : (c.holds ctx x).Decides (c.MetBy ctx x) := by
  obtain ⟨typeTest, id, classes, attributes, pseudoClasses, pseudoElements⟩ := c
  refine (QueryContext.decides_plainTestsHold.both fun _ => (decides_allMetBy h).both fun _ =>
    QueryContext.decides_pseudoElementsHold pseudoElements).congr ?_
  rw [MetBy, and_assoc]

end Compound

namespace Engine

variable {engine : Engine} {doc : Document} {scope : NodeId}
  (hscope : doc.contains scope = true) (hx : doc.isElement x = true)

include hscope hx

theorem matchesAlone_eq (c : Compound) (st : QueryState) : engine.matchesAlone doc scope c x st =
    .ok ((c.holds (engine.context doc scope) x).answer st) := by
  have hin : doc.contains x = true := decide_eq_true (Document.lt_size_of_isElement hx)
  have hknown : [x, scope].find? (fun id => !doc.contains id) = none := by simp [hin, hscope]
  rw [matchesAlone, matchesNode, hknown, Selector.matchesNode_ofCompound hx]
  rfl

theorem matchesAlone_iff (h : c.AsksNode) (st : QueryState) :
    engine.matchesAlone doc scope c x st = .ok true ↔ c.MetBy (engine.context doc scope) x := by
  rw [matchesAlone_eq hscope hx, Except.ok.injEq]
  exact h.decides_holds st

theorem matchesAlone_congr {d : Compound} (h : c.AsksNode) (hd : d.AsksNode)
    (hsame : c.MetBy (engine.context doc scope) x ↔ d.MetBy (engine.context doc scope) x)
    (st st' : QueryState) :
    engine.matchesAlone doc scope c x st = engine.matchesAlone doc scope d x st' := by
  rw [matchesAlone_eq hscope hx, matchesAlone_eq hscope hx]
  exact congrArg Except.ok (h.decides_holds.answer_eq (hd.decides_holds.congr hsame.symm) st st')

theorem matchesAlone_attribute_iff (test : AttributeTest) (st : QueryState) :
    engine.matchesAlone doc scope { attributes := [test] } x st = .ok true ↔
      test.MetBy (engine.context doc scope) x := by
  obtain ⟨e, he⟩ := Option.isSome_iff_exists.mp hx
  have he : (engine.context doc scope).document.element? x = some e := he
  rw [matchesAlone_iff hscope hx (Compound.asksNode_of_nil rfl), Compound.metBy_iff, he]
  simp

theorem matchesAlone_pseudoClass_iff {name : PseudoClassName} (h : name.asksNode = true)
    (argument : Argument) (st : QueryState) :
    engine.matchesAlone doc scope { pseudoClasses := [⟨name, argument⟩] } x st = .ok true ↔
      name.fits argument doc scope x = true := by
  obtain ⟨e, he⟩ := Option.isSome_iff_exists.mp hx
  have he : (engine.context doc scope).document.element? x = some e := he
  have hmet : PseudoClass.MetBy (engine.context doc scope) ⟨name, argument⟩ x ↔
      name.fits argument doc scope x = true := PseudoClassName.metBy_of_asksNode h argument
  rw [matchesAlone_iff hscope hx (Compound.asksNode_of_single h), Compound.metBy_iff, he]
  simp [hmet]

theorem matchesAlone_pseudoElement_iff (p : PseudoElement) (st : QueryState) :
    engine.matchesAlone doc scope { pseudoElements := [p] } x st = .ok true ↔
      doc.textContent x ≠ [] := by
  obtain ⟨e, he⟩ := Option.isSome_iff_exists.mp hx
  have he : (engine.context doc scope).document.element? x = some e := he
  rw [matchesAlone_iff hscope hx (Compound.asksNode_of_nil rfl), Compound.metBy_iff, he]
  simp [context]

end Engine

end DocumentQuery
