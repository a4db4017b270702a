import DocumentQuery.Proofs.ComparedValues
import DocumentQuery.Proofs.LoneCompounds

namespace DocumentQuery

open Document

/-- Whether a local name is all of a qualified name without a colon, or what stands behind the
first colon. -/
def IsLocalPart (name qualified : String) : Prop :=
  qualified = name ∧ ':' ∉ name.toList ∨
    ∃ before, ':' ∉ before ∧ qualified.toList = before ++ ':' :: name.toList

theorem localPart_eq_iff {name qualified : String} :
    localPart qualified = name.toList ↔ IsLocalPart name qualified := by
  unfold localPart
  split
  next before after hs =>
    obtain ⟨hbefore, hq⟩ := splitFirst_eq_some_iff.mp hs
    constructor
    · rintro rfl
      exact .inr ⟨before, hbefore, hq⟩
    · rintro (⟨rfl, hnone⟩ | ⟨front, hfront, he⟩)
      · exact absurd (hq ▸ by simp) hnone
      -- there is one way to split a name at its first colon
      · have hfirst := splitFirst_eq_some_iff.mpr ⟨hfront, he⟩
        rw [hs] at hfirst
        cases hfirst
        rfl
  next hs =>
    have hnone := splitFirst_eq_none_iff.mp hs
    constructor
    · intro he
      exact .inl ⟨String.toList_inj.mp he, he ▸ hnone⟩
    · rintro (⟨rfl, -⟩ | ⟨front, -, he⟩)
      · rfl
      · exact absurd (he ▸ by simp) hnone

section Attributes

variable {doc : Document} {x : NodeId} {name uri : String} {value : Option String}
  {op : AttributeOperator}

theorem Element.mem_entries_iff {e : Element} {qualified whole : String} :
    (qualified, whole) ∈ e.attributes.entries ↔ e.attribute? qualified = some whole :=
  e.attributes.get?_eq_some_iff.symm

theorem Document.attribute?_eq_some_iff {whole : String} : doc.attribute? x name = some whole ↔
    ∃ e, doc.element? x = some e ∧ e.attribute? name = some whole :=
  Option.bind_eq_some_iff

/-- A test of local names asks for an attribute with any prefix or none. -/
theorem Document.localAttributeMatches_iff : doc.localAttributeMatches x name value op = true ↔
    ∃ e qualified whole, doc.element? x = some e ∧ e.attribute? qualified = some whole ∧
      IsLocalPart name qualified ∧ ∀ part ∈ value, op.holds part whole = true := by
  unfold localAttributeMatches
  cases doc.element? x with
  | none => simp
  | some e =>
    simp [localPart_eq_iff, AttributeOperator.accepts_iff, Element.mem_entries_iff]

theorem Document.exists_of_attributeIn? {whole : String}
    (h : doc.attributeIn? x uri name = some whole) :
    ∃ e qualified, doc.element? x = some e ∧ e.attribute? qualified = some whole ∧
      IsLocalPart name qualified := by
  obtain ⟨e, he, hfound⟩ := Option.bind_eq_some_iff.mp h
  obtain ⟨⟨qualified, v⟩, hm, hentry⟩ := List.exists_of_findSome?_eq_some hfound
  obtain ⟨⟨before, after⟩, hs, hrest⟩ := Option.bind_eq_some_iff.mp hentry
  obtain ⟨hfits, hv⟩ := Option.ite_none_right_eq_some.mp hrest
  obtain ⟨hbefore, hq⟩ := splitFirst_eq_some_iff.mp hs
  rw [hfits.1] at hq
  cases hv
  exact ⟨e, qualified, he, Element.mem_entries_iff.mp hm, .inr ⟨before, hbefore, hq⟩⟩

theorem Document.localAttributeMatches_of_attributeInMatches
    (h : doc.attributeInMatches x name uri value op = true) :
    doc.localAttributeMatches x name value op = true := by
  obtain ⟨whole, hw, hvalue⟩ := AttributeOperator.accepts_iff.mp h
  obtain ⟨e, qualified, he, hq, hlocal⟩ := exists_of_attributeIn? hw
  exact localAttributeMatches_iff.mpr ⟨e, qualified, whole, he, hq, hlocal, hvalue⟩

theorem Document.localAttributeMatches_of_attributeMatches (hname : ':' ∉ name.toList)
    (h : doc.attributeMatches x name value op = true) :
    doc.localAttributeMatches x name value op = true := by
  obtain ⟨whole, hw, hvalue⟩ := AttributeOperator.accepts_iff.mp h
  obtain ⟨e, he, hq⟩ := attribute?_eq_some_iff.mp hw
  exact localAttributeMatches_iff.mpr ⟨e, name, whole, he, hq, .inl ⟨rfl, hname⟩, hvalue⟩

end Attributes

namespace Engine

variable {doc : Document} {scope x : NodeId}

/-- A type test without a namespace is the one with any, of which those without a namespace and
with a prefix are two cases that exclude each other. An attribute test without a namespace is the
one with the empty prefix. A test with any prefix asks for a local name, so it passes where one
with a prefix does, and where one without does if the name has no colon. -/
theorem namespace_forms_agree (engine : Engine) (hscope : doc.contains scope = true)
    (hx : doc.isElement x = true) :
    (∀ name st st',
      engine.matchesAlone doc scope { typeTest := some ⟨none, name⟩ } x st =
        engine.matchesAlone doc scope { typeTest := some ⟨some .any, name⟩ } x st' ∧
      (∀ ns, engine.matchesAlone doc scope { typeTest := some ⟨some ns, name⟩ } x st = .ok true →
        engine.matchesAlone doc scope { typeTest := some ⟨none, name⟩ } x st' = .ok true) ∧
      ∀ p, ¬(engine.matchesAlone doc scope { typeTest := some ⟨some .without, name⟩ } x st =
          .ok true ∧
        engine.matchesAlone doc scope { typeTest := some ⟨some (.bound p), name⟩ } x st' =
          .ok true)) ∧
    ∀ name op value st st',
      engine.matchesAlone doc scope { attributes := [⟨none, name, op, value⟩] } x st =
        engine.matchesAlone doc scope { attributes := [⟨some .without, name, op, value⟩] } x st' ∧
      (∀ p, engine.matchesAlone doc scope { attributes := [⟨some (.bound p), name, op, value⟩] }
          x st = .ok true →
        engine.matchesAlone doc scope { attributes := [⟨some .any, name, op, value⟩] } x st' =
          .ok true) ∧
      (':' ∉ name.toList →
        engine.matchesAlone doc scope { attributes := [⟨none, name, op, value⟩] } x st =
          .ok true →
        engine.matchesAlone doc scope { attributes := [⟨some .any, name, op, value⟩] } x st' =
          .ok true) ∧
      (engine.matchesAlone doc scope { attributes := [⟨some .any, name, op, value⟩] } x st =
          .ok true ↔
        ∃ e qualified whole, doc.element? x = some e ∧ e.attribute? qualified = some whole ∧
          IsLocalPart name qualified ∧ ∀ part ∈ value, op.holds part whole = true) := by
  obtain ⟨e, he⟩ := Option.isSome_iff_exists.mp hx
  have hmet (test : TypeTest) :
      Compound.MetBy (engine.context doc scope) { typeTest := some test } x ↔
        test.MetBy (engine.context doc scope) x e := by
    have he : (engine.context doc scope).document.element? x = some e := he
    simp [Compound.metBy_iff, he]
  have htype (test : TypeTest) (st : QueryState) :
      engine.matchesAlone doc scope { typeTest := some test } x st = .ok true ↔
        test.MetBy (engine.context doc scope) x e :=
    (matchesAlone_iff hscope hx (Compound.asksNode_of_nil rfl) st).trans (hmet test)
  refine ⟨fun name st st' => ⟨?_, fun ns h => ?_, fun p h => ?_⟩,
    fun name op value st st' => ⟨?_, fun p h => ?_, fun hname h => ?_, ?_⟩⟩
  · refine matchesAlone_congr hscope hx (Compound.asksNode_of_nil rfl)
      (Compound.asksNode_of_nil rfl) ?_ st st'
    rw [hmet, hmet]
    simp [TypeTest.MetBy, NamespaceTest.MetBy]
  · rw [htype] at h ⊢
    exact ⟨h.1, fun ns hns => absurd hns (Option.not_mem_none ns)⟩
  · obtain ⟨h, hp⟩ := h
    rw [htype] at h hp
    obtain ⟨uri, -, huri⟩ := hp.2 _ rfl
    have hnone : e.nsUri = none := h.2 _ rfl
    cases hnone.symm.trans huri
  · exact matchesAlone_congr hscope hx (Compound.asksNode_of_nil rfl)
      (Compound.asksNode_of_nil rfl) Iff.rfl st st'
  · rw [matchesAlone_attribute_iff hscope hx] at h ⊢
    obtain ⟨uri, -, hmatches⟩ := h
    exact localAttributeMatches_of_attributeInMatches hmatches
  · rw [matchesAlone_attribute_iff hscope hx] at h ⊢
    exact localAttributeMatches_of_attributeMatches hname h
  · rw [matchesAlone_attribute_iff hscope hx]
    exact localAttributeMatches_iff

end Engine

/-- The document of an element `p:a` in an element `r` that declares the prefix `q`. -/
def prefixedElements : Document :=
  let r : Element := ⟨"r", none, none, .ofList [("xmlns:q", "v")]⟩
  let a : Element := ⟨"a", some "p", some "u", .ofList [("k", ""), ("q:n:m", "b c")]⟩
  ⟨#[{ kind := .document, children := [1] },
    { kind := .element r, parent := some 0, children := [2] },
    { kind := .element a, parent := some 1 }]⟩

theorem prefixedElements_forms : prefixedElements.contains 0 = true ∧
    prefixedElements.isElement 2 = true ∧ ':' ∉ "k".toList ∧
    (∀ st, ({} : Engine).matchesAlone prefixedElements 0
      { typeTest := some ⟨none, some "A"⟩ } 2 st = .ok true) ∧
    (∀ st, ({} : Engine).matchesAlone prefixedElements 0
      { typeTest := some ⟨some .without, some "A"⟩ } 2 st ≠ .ok true) ∧
    (∀ st, ({} : Engine).matchesAlone prefixedElements 0
      { attributes := [⟨some .any, "n:m", .containsWithSpace, some "c"⟩] } 2 st = .ok true) ∧
    (∀ st, ({} : Engine).matchesAlone prefixedElements 0
      { attributes := [⟨some .any, "k", .exactly, none⟩] } 2 st = .ok true) := by
  have hbound : ({} : Engine).matchesAlone prefixedElements 0
      { typeTest := some ⟨some (.bound "p"), some "A"⟩ } 2 {} = .ok true := by decide +kernel
  have hlocal : ({} : Engine).matchesAlone prefixedElements 0
      { attributes := [⟨some (.bound "q"), "n:m", .containsWithSpace, some "c"⟩] } 2 {} =
        .ok true := by decide +kernel
  have hplain : ({} : Engine).matchesAlone prefixedElements 0
      { attributes := [⟨none, "k", .exactly, none⟩] } 2 {} = .ok true := by decide +kernel
  have hcolon : ':' ∉ "k".toList := by decide
  obtain ⟨htypes, hattributes⟩ := @Engine.namespace_forms_agree prefixedElements 0 2 {} rfl rfl
  refine ⟨rfl, rfl, hcolon, fun st => ?_, fun st h => ?_, fun st => ?_, fun st => ?_⟩
  · exact (htypes _ {} st).2.1 _ hbound
  · exact (htypes _ st {}).2.2 "p" ⟨h, hbound⟩
  · exact (hattributes _ _ _ {} st).2.1 "q" hlocal
  · exact (hattributes _ _ _ {} st).2.2.1 hcolon hplain

end DocumentQuery
