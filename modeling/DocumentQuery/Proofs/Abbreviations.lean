import Mathlib.Logic.Relation
import DocumentQuery.Proofs.ComparedValues
import DocumentQuery.Proofs.EqualMeaning
import DocumentQuery.Proofs.LoneCompounds

namespace DocumentQuery

open Query

/-- The pseudo-classes that are short for a test of one attribute. -/
inductive PseudoClassName.Abbreviates : PseudoClassName → AttributeTest → Prop where
  | link (op : AttributeOperator) : Abbreviates .link ⟨none, "href", op, none⟩
  | state {name : PseudoClassName} (h : name ∈ [.enabled, .disabled, .checked])
      (op : AttributeOperator) : Abbreviates name ⟨none, name.spelling, op, none⟩
  | kind {name : PseudoClassName} (h : name ∈ [.text, .radio, .checkbox, .file, .password, .submit,
      .image, .reset, .button]) : Abbreviates name ⟨none, "type", .exactly, some name.spelling⟩

/-- Two compounds of which the second has an attribute test for a class, an id or a pseudo-class
of the first. -/
inductive Compound.Abbreviates : Compound → Compound → Prop where
  | className (c : Compound) (name : String) (front back : List String)
      (before after : List AttributeTest) :
      Abbreviates { c with classes := front ++ name :: back, attributes := before ++ after }
        { c with
          classes := front ++ back
          attributes := before ++ ⟨none, "class", .containsWithSpace, some name⟩ :: after }
  | id (c : Compound) (name : String) (before after : List AttributeTest) :
      Abbreviates { c with id := some name, attributes := before ++ after }
        { c with id := none, attributes := before ++ ⟨none, "id", .exactly, some name⟩ :: after }
  | pseudoClass (c : Compound) {name : PseudoClassName} {test : AttributeTest}
      (h : name.Abbreviates test) (argument : Argument) (front back : List PseudoClass)
      (before after : List AttributeTest) :
      Abbreviates
        { c with pseudoClasses := front ++ ⟨name, argument⟩ :: back, attributes := before ++ after }
        { c with pseudoClasses := front ++ back, attributes := before ++ test :: after }

/-- A place for a compound in a selector. -/
structure CompoundPlace where
  earlier : List Group
  front : List Step
  combinator : Combinator
  back : List Step
  later : List Group

def CompoundPlace.fill (place : CompoundPlace) (c : Compound) : Selector :=
  ⟨place.earlier ++ ⟨place.front ++ ⟨place.combinator, c⟩ :: place.back⟩ :: place.later⟩

/-- Two selectors of which the second has an attribute test where the first has a short form of it,
in a compound of its own or of a selector nested in it at any depth. -/
inductive Selector.Abbreviates : Selector → Selector → Prop where
  | here (place : CompoundPlace) {c d : Compound} (h : c.Abbreviates d) :
      Abbreviates (place.fill c) (place.fill d)
  | nested (place : CompoundPlace) (c : Compound) (name : PseudoClassName)
      (front back : List PseudoClass) {s t : Selector} (h : s.Abbreviates t) :
      Abbreviates (place.fill { c with pseudoClasses := front ++ ⟨name, .selector s⟩ :: back })
        (place.fill { c with pseudoClasses := front ++ ⟨name, .selector t⟩ :: back })

section Tests

variable {ctx : QueryContext} {doc : Document} {x : NodeId} {e : Element} {name : String}

theorem Document.attribute?_eq (he : doc.element? x = some e) (name : String) :
    doc.attribute? x name = e.attribute? name := by
  rw [attribute?, he]
  rfl

/-- A class is one of the words of the attribute. -/
theorem Element.mem_classes_iff : name ∈ e.classes ↔
    AttributeOperator.containsWithSpace.accepts (some name) (e.attribute? "class") = true := by
  unfold classes
  cases e.attribute? "class" with
  | none => simp [AttributeOperator.accepts]
  | some value =>
    have hlist (word : List Char) : String.ofList word = name ↔ word = name.toList := by
      rw [← String.toList_inj, String.toList_ofList]
    have hword : name.toList ≠ [] ↔ name ≠ "" := not_congr String.toList_eq_nil_iff
    rw [AttributeOperator.accepts, AttributeOperator.holds_iff_relates]
    simp only [List.mem_map, hlist, exists_eq_right, mem_words, hword,
      AttributeOperator.Relates]

theorem AttributeTest.metBy_class_iff (he : ctx.document.element? x = some e) :
    AttributeTest.MetBy ctx x ⟨none, "class", .containsWithSpace, some name⟩ ↔
      name ∈ e.classes := by
  rw [Element.mem_classes_iff, ← Document.attribute?_eq he]
  rfl

theorem AttributeTest.metBy_id_iff (he : ctx.document.element? x = some e) :
    AttributeTest.MetBy ctx x ⟨none, "id", .exactly, some name⟩ ↔ e.id? = some name := by
  rw [Element.id?, ← Document.attribute?_eq he, ← AttributeOperator.accepts_exactly_iff]
  rfl

end Tests

namespace Document

variable {doc : Document} {x : NodeId}

theorem hasAttribute_eq (name : String) (op : AttributeOperator) :
    doc.hasAttribute x name = doc.attributeMatches x name none op := by
  unfold hasAttribute attributeMatches
  cases doc.attribute? x name <;> rfl

theorem hasTypeAttribute_eq (kind : String) :
    doc.hasTypeAttribute x kind = doc.attributeMatches x "type" (some kind) .exactly := by
  rw [Bool.eq_iff_iff, hasTypeAttribute, attributeMatches, AttributeOperator.accepts_exactly_iff,
    beq_iff_eq]

end Document

namespace PseudoClassName.Abbreviates

variable {name : PseudoClassName} {test : AttributeTest} {doc : Document} {scope x : NodeId}

theorem asksNode (h : name.Abbreviates test) : name.asksNode = true := by
  cases h with
  | link => rfl
  | state h => revert name; decide
  | kind h => revert name; decide

theorem fits_eq (h : name.Abbreviates test) (argument : Argument) :
    name.fits argument doc scope x =
      doc.attributeMatches x test.name test.value test.operator := by
  cases h with
  | link op => exact Document.hasAttribute_eq "href" op
  | state h op =>
    rw [← Document.hasAttribute_eq]
    simp only [List.mem_cons, List.not_mem_nil, or_false] at h
    rcases h with rfl | rfl | rfl
    all_goals rfl
  | kind h =>
    rw [← Document.hasTypeAttribute_eq]
    simp only [List.mem_cons, List.not_mem_nil, or_false] at h
    rcases h with rfl | rfl | rfl | rfl | rfl | rfl | rfl | rfl | rfl
    all_goals rfl

theorem ns_eq (h : name.Abbreviates test) : test.ns = none := by
  cases h <;> rfl

theorem fits_iff {ctx : QueryContext} (h : name.Abbreviates test) (argument : Argument) :
    name.fits argument ctx.document ctx.scope x = true ↔ test.MetBy ctx x := by
  rw [h.fits_eq, AttributeTest.MetBy, h.ns_eq]

end PseudoClassName.Abbreviates

namespace Compound

variable {ctx : QueryContext} {x : NodeId} {c d : Compound}

theorem Abbreviates.meansSame (h : c.Abbreviates d) : c.MeansSame d := by
  intro ctx x
  rw [metBy_iff, metBy_iff]
  refine exists_congr fun e => and_congr_right fun he => ?_
  cases h with
  | className c name front back before after =>
    simp only [List.forall_mem_append, List.forall_mem_cons, AttributeTest.metBy_class_iff he]
    tauto
  | id c name before after =>
    simp only [List.forall_mem_append, List.forall_mem_cons, AttributeTest.metBy_id_iff he,
      Option.mem_def, Option.some.injEq, forall_eq', reduceCtorEq, false_implies, implies_true]
    tauto
  | pseudoClass c h argument front back before after =>
    have hmet : PseudoClass.MetBy ctx ⟨_, argument⟩ x ↔ _ :=
      (PseudoClassName.metBy_of_asksNode h.asksNode argument).trans (h.fits_iff argument)
    simp only [List.forall_mem_append, List.forall_mem_cons, hmet]
    tauto

end Compound

namespace Selector

variable {s t : Selector} {c d : Compound}

theorem MeansSame.fill (place : CompoundPlace) (h : c.MeansSame d) :
    (place.fill c).MeansSame (place.fill d) := by
  have hgroups (groups : List Group) : List.Forall₂ Group.MeansSame groups groups :=
    List.forall₂_same.mpr fun g _ => .refl g
  have hsteps (steps : List Step) : List.Forall₂ Step.MeansSame steps steps :=
    List.forall₂_same.mpr fun t _ => .refl t
  have hgroup : List.Forall₂ Step.MeansSame (place.front ++ ⟨place.combinator, c⟩ :: place.back)
      (place.front ++ ⟨place.combinator, d⟩ :: place.back) :=
    List.rel_append (hsteps _) (.cons ⟨rfl, h⟩ (hsteps _))
  exact List.rel_append (hgroups _) (.cons hgroup (hgroups _))

theorem fits_selector (name : PseudoClassName) (s t : Selector) (doc : Document)
    (scope x : NodeId) :
    name.fits (.selector s) doc scope x = name.fits (.selector t) doc scope x := by
  cases name <;> rfl

/-- Selectors that mean the same may be exchanged within a pseudo-class. -/
theorem MeansSame.nested (h : s.MeansSame t) (c : Compound) (name : PseudoClassName)
    (front back : List PseudoClass) :
    Compound.MeansSame { c with pseudoClasses := front ++ ⟨name, .selector s⟩ :: back }
      { c with pseudoClasses := front ++ ⟨name, .selector t⟩ :: back } := by
  intro ctx x
  have hfound : (∃ y, Argument.Leads ctx (.selector s) x y) ↔
      ∃ y, Argument.Leads ctx (.selector t) x y := exists_congr fun y => h.leads_iff
  have htest : PseudoClass.MetBy ctx ⟨name, .selector s⟩ x ↔
      PseudoClass.MetBy ctx ⟨name, .selector t⟩ x := by
    unfold PseudoClass.MetBy PseudoClassName.MetBy
    simp only [hfound, fits_selector name s t]
  rw [Compound.metBy_iff, Compound.metBy_iff]
  simp only [List.forall_mem_append, List.forall_mem_cons, htest]

/-- A short form means what the attribute test means that it is short for, at any depth. -/
theorem Abbreviates.meansSame (h : s.Abbreviates t) : s.MeansSame t := by
  induction h with
  | here place h => exact .fill place h.meansSame
  | nested place c name front back _ ih => exact .fill place (ih.nested c name front back)

end Selector

namespace Engine

/-- Whether queries with two selectors have the same results. -/
def ResultsAgree (engine : Engine) (doc : Document) (s t : Selector) : Prop :=
  (∀ scopes st st',
    (engine.find doc s scopes).answer st = (engine.find doc t scopes).answer st') ∧
  ∀ x scope st st', (engine.matchesNode doc s x scope).answer st =
    (engine.matchesNode doc t x scope).answer st'

variable {engine : Engine} {doc : Document} {scope x : NodeId}

theorem resultsAgree_of_meansSame {s t : Selector} (built : doc.Built)
    (steady : ∀ i, engine.random i = engine.random 0) (h : s.MeansSame t) :
    engine.ResultsAgree doc s t :=
  ⟨find_eq_of_meansSame built steady h, matchesNode_eq_of_meansSame built steady h⟩

/-- Any number of exchanges leaves the results as they are. -/
theorem resultsAgree_of_eqvGen {s t : Selector} (built : doc.Built)
    (steady : ∀ i, engine.random i = engine.random 0)
    (h : Relation.EqvGen Selector.Abbreviates s t) : engine.ResultsAgree doc s t := by
  induction h with
  | rel s t h => exact resultsAgree_of_meansSame built steady h.meansSame
  | refl s => exact resultsAgree_of_meansSame built steady (.refl s)
  | symm s t _ ih =>
    obtain ⟨hfind, hmatches⟩ := ih
    exact ⟨fun scopes st st' => (hfind scopes st' st).symm,
      fun x scope st st' => (hmatches x scope st' st).symm⟩
  | trans s t u _ _ ih ih' =>
    obtain ⟨hfind, hmatches⟩ := ih
    obtain ⟨hfind', hmatches'⟩ := ih'
    exact ⟨fun scopes st st' => (hfind scopes st st).trans (hfind' scopes st st'),
      fun x scope st st' => (hmatches x scope st st).trans (hmatches' x scope st st')⟩

section Alone

variable (hscope : doc.contains scope = true) (hx : doc.isElement x = true) (st st' : QueryState)

include hscope hx

/-- A compound is answered as the one it is short for, if no other test of it draws or searches. -/
theorem matchesAlone_abbreviates {c d : Compound} (h : c.Abbreviates d) (hc : c.AsksNode)
    (hd : d.AsksNode) :
    engine.matchesAlone doc scope c x st = engine.matchesAlone doc scope d x st' :=
  matchesAlone_congr hscope hx hc hd (h.meansSame _ _) st st'

theorem matchesAlone_class (name : String) :
    engine.matchesAlone doc scope { classes := [name] } x st = engine.matchesAlone doc scope
      { attributes := [⟨none, "class", .containsWithSpace, some name⟩] } x st' :=
  matchesAlone_abbreviates hscope hx st st' (.className {} name [] [] [] [])
    (Compound.asksNode_of_nil rfl) (Compound.asksNode_of_nil rfl)

theorem matchesAlone_id (name : String) :
    engine.matchesAlone doc scope { id := some name } x st = engine.matchesAlone doc scope
      { attributes := [⟨none, "id", .exactly, some name⟩] } x st' :=
  matchesAlone_abbreviates hscope hx st st' (.id {} name [] [])
    (Compound.asksNode_of_nil rfl) (Compound.asksNode_of_nil rfl)

theorem matchesAlone_abbreviation {name : PseudoClassName} {test : AttributeTest}
    (h : name.Abbreviates test) (argument : Argument) :
    engine.matchesAlone doc scope { pseudoClasses := [⟨name, argument⟩] } x st =
      engine.matchesAlone doc scope { attributes := [test] } x st' :=
  matchesAlone_abbreviates hscope hx st st' (.pseudoClass {} h argument [] [] [] [])
    (Compound.asksNode_of_single h.asksNode) (Compound.asksNode_of_nil rfl)

theorem matchesAlone_anyLink (argument : Argument) (op : AttributeOperator) :
    engine.matchesAlone doc scope { pseudoClasses := [⟨.anyLink, argument⟩] } x st = .ok true ↔
      ∃ name ∈ ["href", "src", "link"], engine.matchesAlone doc scope
        { attributes := [⟨none, name, op, none⟩] } x st' = .ok true := by
  have hasks : PseudoClassName.anyLink.asksNode = true := rfl
  rw [matchesAlone_pseudoClass_iff hscope hx hasks, PseudoClassName.fits, List.any_eq_true]
  refine exists_congr fun name => and_congr_right fun _ => ?_
  rw [matchesAlone_attribute_iff hscope hx, Document.hasAttribute_eq name op]
  rfl

end Alone

/-- Tests of a class, of an id and for a link or the state or kind of a form element hold where the
attribute tests do that they are short for. Such a test may stand for the other anywhere in a
selector, with the same results of every query. -/
theorem abbreviations_agree (engine : Engine) (built : doc.Built) :
    (∀ scope x, doc.contains scope = true → doc.isElement x = true → ∀ st st',
      (∀ name : String, engine.matchesAlone doc scope { classes := [name] } x st =
          engine.matchesAlone doc scope
            { attributes := [⟨none, "class", .containsWithSpace, some name⟩] } x st' ∧
        engine.matchesAlone doc scope { id := some name } x st =
          engine.matchesAlone doc scope
            { attributes := [⟨none, "id", .exactly, some name⟩] } x st') ∧
      (∀ (name : PseudoClassName) test argument, name.Abbreviates test →
        engine.matchesAlone doc scope { pseudoClasses := [⟨name, argument⟩] } x st =
          engine.matchesAlone doc scope { attributes := [test] } x st') ∧
      ∀ argument op,
        engine.matchesAlone doc scope { pseudoClasses := [⟨.anyLink, argument⟩] } x st =
          .ok true ↔
        ∃ name ∈ ["href", "src", "link"],
          engine.matchesAlone doc scope { attributes := [⟨none, name, op, none⟩] } x st' =
            .ok true) ∧
    ((∀ i, engine.random i = engine.random 0) →
      ∀ s t, Relation.EqvGen Selector.Abbreviates s t → engine.ResultsAgree doc s t) := by
  refine ⟨fun scope x hscope hx st st' => ⟨fun name => ⟨?_, ?_⟩, ?_, ?_⟩, fun steady s t h => ?_⟩
  · exact matchesAlone_class hscope hx st st' name
  · exact matchesAlone_id hscope hx st st' name
  · exact fun name test argument h => matchesAlone_abbreviation hscope hx st st' h argument
  · exact matchesAlone_anyLink hscope hx st st'
  · exact resultsAgree_of_eqvGen built steady h

end Engine

/-- The document of an element `p` with the classes `b` and `a` that holds a link. -/
def linkInClasses : Document :=
  ⟨#[{ kind := .document, children := [1] },
    { kind := .element ⟨"p", none, none, .ofList [("class", " b a")]⟩, parent := some 0,
      children := [2] },
    { kind := .element ⟨"a", none, none, .ofList [("href", "")]⟩, parent := some 1 }]⟩

theorem built_linkInClasses : linkInClasses.Built := by
  have hp := @Document.Built.grow _ _ 0 .blank
    (.element ⟨"p", none, none, .ofList [("class", " b a")]⟩) (by decide) rfl
  exact @Document.Built.grow _ _ 1 hp (.element ⟨"a", none, none, .ofList [("href", "")]⟩)
    (by decide) rfl

/-- The selector `.a:has(:link)`. -/
def linkHolder : Selector :=
  .ofCompound { classes := ["a"], pseudoClasses :=
    [⟨.has, .selector (.ofCompound { pseudoClasses := [⟨.link, .none⟩] })⟩] }

/-- The selector `[class~="a"]:has([href])`. -/
def hrefHolder : Selector :=
  .ofCompound { attributes := [⟨none, "class", .containsWithSpace, some "a"⟩], pseudoClasses :=
    [⟨.has, .selector (.ofCompound { attributes := [⟨none, "href", .exactly, none⟩] })⟩] }

theorem eqvGen_linkHolder : Relation.EqvGen Selector.Abbreviates linkHolder hrefHolder := by
  have hlink := Selector.Abbreviates.here ⟨[], [], .descendant, [], []⟩
    (.pseudoClass {} (.link .exactly) .none [] [] [] [])
  have hnested := Selector.Abbreviates.nested ⟨[], [], .descendant, [], []⟩ { classes := ["a"] }
    .has [] [] hlink
  have hclass := Selector.Abbreviates.here ⟨[], [], .descendant, [], []⟩
    (.className { pseudoClasses := [⟨.has, .selector
      (.ofCompound { attributes := [⟨none, "href", .exactly, none⟩] })⟩] } "a" [] [] [] [])
  exact .trans _ _ _ (.rel _ _ hnested) (.rel _ _ hclass)

theorem results_linkHolder : linkInClasses.Built ∧
    linkInClasses.contains 0 = true ∧ linkInClasses.isElement 2 = true ∧
    (∀ st, ({} : Engine).matchesAlone linkInClasses 0
      { attributes := [⟨none, "href", .exactly, none⟩] } 2 st = .ok true) ∧
    (∀ i, ({} : Engine).random i = ({} : Engine).random 0) ∧
    Relation.EqvGen Selector.Abbreviates linkHolder hrefHolder ∧
    (∀ st, (({} : Engine).find linkInClasses hrefHolder [0]).answer st = .ok [1]) := by
  have hlink : ({} : Engine).matchesAlone linkInClasses 0
      { pseudoClasses := [⟨.link, .none⟩] } 2 {} = .ok true := by decide +kernel
  have hfound : (({} : Engine).find linkInClasses linkHolder [0]).answer {} = .ok [1] := by decide +kernel
  obtain ⟨halone, hanywhere⟩ := Engine.abbreviations_agree {} built_linkInClasses
  obtain ⟨hfind, -⟩ := hanywhere (fun _ => rfl) _ _ eqvGen_linkHolder
  refine ⟨built_linkInClasses, rfl, rfl, fun st => ?_, fun _ => rfl, eqvGen_linkHolder,
    fun st => (hfind [0] {} st).symm.trans hfound⟩
  exact ((halone 0 2 rfl rfl {} st).2.1 _ _ .none (.link .exactly)).symm.trans hlink

end DocumentQuery
