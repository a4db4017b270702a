import DocumentQuery.Proofs.LinkAgreement
import DocumentQuery.Proofs.LoneCompounds
import DocumentQuery.Proofs.PositionTests

namespace DocumentQuery

open Document Query

/-- The pseudo-classes that ask for the position of a node among its siblings. -/
def PseudoClassName.positionNames : List PseudoClassName :=
  [.even, .odd, .nthChild, .nth, .eq, .nthLastChild, .nthOfType, .nthLastOfType, .firstOfType,
    .lastOfType, .onlyOfType, .lt, .gt, .first, .firstChild, .last, .lastChild, .onlyChild]

theorem NthRule.admits_first_iff {position : Nat} (h : 0 < position) :
    NthRule.admits ⟨0, 1⟩ position = true ↔ position = 1 := by
  have hone : (1 : Int64).toInt = 1 := rfl
  rw [NthRule.admits_place_iff h, hone]
  omega

namespace Document

variable {doc : Document} {x p : NodeId} {rule : NthRule} {fromEnd sameType : Bool}

theorem hasNthPosition_of_single (h : doc.parent? x = none) :
    doc.hasNthPosition x rule fromEnd sameType = false := by
  rw [hasNthPosition, h]
  rfl

/-- No sibling counts on one side exactly if the position from there is the first. -/
theorem isOutermostOfType_eq (doc : Document) (x : NodeId) (fromEnd : Bool) :
    doc.isOutermostOfType x fromEnd = doc.hasNthPosition x ⟨0, 1⟩ fromEnd true := by
  have hpos : 0 < doc.siblingPosition x fromEnd true := by
    rw [siblingPosition]
    omega
  have hfirst := NthRule.admits_first_iff hpos
  rw [isOutermostOfType, hasNthPosition]
  congr 1
  rw [Bool.eq_iff_iff, hfirst, Bool.not_eq_true', List.any_eq_false, ← List.countP_eq_zero,
    siblingPosition]
  omega

namespace Linked

theorem siblingPosition_eq_ordinal (h : doc.Linked) (hx : doc.isElement x = true)
    (hp : doc.parent? x = some p) (fromEnd : Bool) :
    doc.siblingPosition x fromEnd false = ordinal (doc.elementChildren p) fromEnd x := by
  obtain ⟨e, he⟩ := Option.isSome_iff_exists.mp hx
  exact h.siblingPosition_eq he hp fromEnd false

theorem hasNthPosition_eq_ordinal (h : doc.Linked) (hx : doc.isElement x = true)
    (hp : doc.parent? x = some p) : doc.hasNthPosition x rule fromEnd false =
      rule.admits (ordinal (doc.elementChildren p) fromEnd x) := by
  rw [hasNthPosition, hp, h.siblingPosition_eq_ordinal hx hp]
  rfl

/-- Of the children of a node only a lone element comes first from either end. -/
theorem hasFirstPosition_iff (h : doc.Linked) (hx : doc.isElement x = true) :
    (doc.hasNthPosition x ⟨0, 1⟩ false false = true ∧
      doc.hasNthPosition x ⟨0, 1⟩ true false = true) ↔
    ∃ p, doc.parent? x = some p ∧
      ∀ y, doc.parent? y = some p → doc.isElement y = true → y = x := by
  cases hp : doc.parent? x with
  | none => simp [hasNthPosition_of_single hp]
  | some p =>
    have hplace (fromEnd : Bool) : doc.hasNthPosition x ⟨0, 1⟩ fromEnd false = true ↔
        ordinal (doc.elementChildren p) fromEnd x = 1 := by
      rw [h.hasNthPosition_eq_ordinal hx hp]
      exact NthRule.admits_first_iff (Nat.succ_pos _)
    have hnodup : (doc.elementChildren p).Nodup := h.nodup_childrenTagged p none
    have hmem : x ∈ doc.elementChildren p := List.mem_filter.mpr ⟨h.mem_children.mpr hp, hx⟩
    rw [hplace, hplace, ordinal_eq_one_iff hnodup hmem]
    simp [elementChildren, h.mem_children]

end Linked

end Document

theorem Query.both_pure (a b : Bool) : both (pure a) (pure b) = pure (a && b) := by
  cases a <;> rfl

theorem Query.answer_pure {α : Type} (a : α) (st : QueryState) :
    (pure a : Query α).answer st = a :=
  rfl

namespace PseudoClass

variable {ctx : QueryContext} {x p : NodeId} {name : PseudoClassName} {v : Int64}

theorem holds_position (hname : name ∈ PseudoClassName.positionNames) (argument : Argument) :
    PseudoClass.holds ctx ⟨name, argument⟩ x =
      pure (name.fits argument ctx.document ctx.scope x) := by
  have hasks : ∀ name ∈ PseudoClassName.positionNames, name.asksNode = true := by decide
  exact holds_of_asksNode (hasks name hname) argument

/-- Without a parent a node has no position. -/
theorem fits_position_of_single {doc : Document} (hname : name ∈ PseudoClassName.positionNames)
    (argument : Argument) (scope : NodeId) (h : doc.parent? x = none) :
    name.fits argument doc scope x = false := by
  have hnth (rule : NthRule) (fromEnd sameType : Bool) :
      doc.hasNthPosition x rule fromEnd sameType = false := hasNthPosition_of_single h
  have houtermost (fromEnd : Bool) : doc.isOutermostOfType x fromEnd = false := by
    rw [isOutermostOfType_eq, hnth]
  cases name
  all_goals first
    | exact absurd hname (by decide)
    | simp only [PseudoClassName.fits, hnth, houtermost, h, Option.isSome_none, Bool.false_and]

theorem decides_position_of_single (hname : name ∈ PseudoClassName.positionNames)
    (argument : Argument) (h : ctx.document.parent? x = none) :
    (PseudoClass.holds ctx ⟨name, argument⟩ x).Decides False := by
  rw [holds_position hname, fits_position_of_single hname argument ctx.scope h]
  exact decides_pure (by simp)

theorem holds_outermostOfType (argument : Argument) :
    PseudoClass.holds ctx ⟨.firstOfType, argument⟩ x =
      PseudoClass.holds ctx ⟨.nthOfType, .nth ⟨0, 1⟩⟩ x ∧
    PseudoClass.holds ctx ⟨.lastOfType, argument⟩ x =
      PseudoClass.holds ctx ⟨.nthLastOfType, .nth ⟨0, 1⟩⟩ x := by
  have houtermost (fromEnd : Bool) := congrArg (pure : Bool → Query Bool)
    (isOutermostOfType_eq ctx.document x fromEnd)
  exact ⟨houtermost false, houtermost true⟩

theorem decides_onlyChild (h : ctx.document.Linked) (hx : ctx.document.isElement x = true)
    (argument : Argument) : (PseudoClass.holds ctx ⟨.onlyChild, argument⟩ x).Decides
      (∃ p, ctx.document.parent? x = some p ∧
        ∀ y, ctx.document.parent? y = some p → ctx.document.isElement y = true → y = x) := by
  rw [holds_position (by decide), PseudoClassName.fits]
  exact decides_pure (by rw [Bool.and_eq_true, h.hasFirstPosition_iff hx])

section Bounds

variable (h : ctx.document.Linked) (hx : ctx.document.isElement x = true)
  (hp : ctx.document.parent? x = some p) (v : Int64)

include h hx hp

theorem decides_lt : (PseudoClass.holds ctx ⟨.lt, .index v⟩ x).Decides
    ((ordinal (ctx.document.elementChildren p) false x : Int) ≤ v.toInt) := by
  rw [holds_position (by decide), PseudoClassName.fits, h.hasNthPosition_eq_ordinal hx hp]
  exact decides_pure (NthRule.admits_upTo_iff (Nat.succ_pos _))

theorem decides_gt : (PseudoClass.holds ctx ⟨.gt, .index v⟩ x).Decides
    (v.toInt < ordinal (ctx.document.elementChildren p) false x) := by
  rw [holds_position (by decide), PseudoClassName.fits, hp, h.siblingPosition_eq_ordinal hx hp]
  exact decides_pure decide_eq_true_iff

theorem decides_eq : (PseudoClass.holds ctx ⟨.eq, .nth ⟨0, v⟩⟩ x).Decides
    (v.toInt = ordinal (ctx.document.elementChildren p) false x) := by
  rw [holds_position (by decide), PseudoClassName.fits, h.hasNthPosition_eq_ordinal hx hp]
  exact decides_pure (NthRule.admits_place_iff (Nat.succ_pos _))

end Bounds

theorem toInt_sub_one (hv : 1 ≤ v.toInt) : (v - 1).toInt = v.toInt - 1 := by
  have hone : (1 : Int64).toInt = 1 := rfl
  have hlow := Int64.le_toInt v
  have hhigh := Int64.toInt_lt v
  rw [Int64.toInt_sub, hone, Int.bmod_eq_of_le]
  · omega
  · omega

/-- A position is a number exactly if it goes up to the number and beyond the one before. -/
theorem holds_eq_of_bounds (h : ctx.document.Linked) (hx : ctx.document.isElement x = true)
    (hv : 1 ≤ v.toInt) : PseudoClass.holds ctx ⟨.eq, .nth ⟨0, v⟩⟩ x =
      both (PseudoClass.holds ctx ⟨.lt, .index v⟩ x)
        (PseudoClass.holds ctx ⟨.gt, .index (v - 1)⟩ x) := by
  rw [holds_position (by decide), holds_position (by decide), holds_position (by decide), both_pure]
  congr 1
  cases hp : ctx.document.parent? x with
  | none =>
    rw [fits_position_of_single (by decide) _ _ hp, fits_position_of_single (by decide) _ _ hp]
    rfl
  | some p =>
    have hbefore := toInt_sub_one hv
    have heq := decides_eq h hx hp v {}
    have hlt := decides_lt h hx hp v {}
    have hgt := decides_gt h hx hp (v - 1) {}
    rw [holds_position (by decide), answer_pure] at heq hlt hgt
    rw [Bool.eq_iff_iff, Bool.and_eq_true, heq, hlt, hgt]
    omega

/-- The tests that are shorthands for a position agree with those that name it. An element alone
among the children of its parent is the first and the last child; up to a number and beyond it are
the two halves of all positions; and without a parent a node has no position, so that none of the
tests passes. -/
theorem shorthands_agree (built : ctx.document.Built) (hx : ctx.document.isElement x = true)
    (v : Int64) :
    (∀ a b, PseudoClass.holds ctx ⟨.firstOfType, a⟩ x =
        PseudoClass.holds ctx ⟨.nthOfType, .nth ⟨0, 1⟩⟩ x ∧
      PseudoClass.holds ctx ⟨.lastOfType, a⟩ x =
        PseudoClass.holds ctx ⟨.nthLastOfType, .nth ⟨0, 1⟩⟩ x ∧
      PseudoClass.holds ctx ⟨.onlyOfType, a⟩ x = both (PseudoClass.holds ctx ⟨.firstOfType, b⟩ x)
        (PseudoClass.holds ctx ⟨.lastOfType, b⟩ x) ∧
      PseudoClass.holds ctx ⟨.onlyChild, a⟩ x = both (PseudoClass.holds ctx ⟨.firstChild, b⟩ x)
        (PseudoClass.holds ctx ⟨.lastChild, b⟩ x) ∧
      (PseudoClass.holds ctx ⟨.onlyChild, a⟩ x).Decides (∃ p, ctx.document.parent? x = some p ∧
        ∀ y, ctx.document.parent? y = some p → ctx.document.isElement y = true → y = x)) ∧
    (∀ p, ctx.document.parent? x = some p →
      (PseudoClass.holds ctx ⟨.lt, .index v⟩ x).Decides
        ((ordinal (ctx.document.elementChildren p) false x : Int) ≤ v.toInt) ∧
      (PseudoClass.holds ctx ⟨.gt, .index v⟩ x).Decides
        ¬(ordinal (ctx.document.elementChildren p) false x : Int) ≤ v.toInt) ∧
    (1 ≤ v.toInt → PseudoClass.holds ctx ⟨.eq, .nth ⟨0, v⟩⟩ x =
      both (PseudoClass.holds ctx ⟨.lt, .index v⟩ x)
        (PseudoClass.holds ctx ⟨.gt, .index (v - 1)⟩ x)) ∧
    (ctx.document.parent? x = none → ∀ name ∈ PseudoClassName.positionNames, ∀ a,
      (PseudoClass.holds ctx ⟨name, a⟩ x).Decides False) := by
  have hlinked := built.linked
  refine ⟨fun a b => ?_, fun p hp => ?_, holds_eq_of_bounds hlinked hx, fun hp name hname a => ?_⟩
  · obtain ⟨hfirst, hlast⟩ := @holds_outermostOfType ctx x a
    refine ⟨hfirst, hlast, ?_, ?_, decides_onlyChild hlinked hx a⟩
    · exact (both_pure _ _).symm
    · exact (both_pure _ _).symm
  · refine ⟨decides_lt hlinked hx hp v, (decides_gt hlinked hx hp v).congr ?_⟩
    exact Int.not_le.symm
  · exact decides_position_of_single hname a hp

end PseudoClass

/-- The element `LI` is the second of four elements. An element apart from the document has no
position. -/
theorem shorthands_mixedChildren : mixedChildren.Built ∧ mixedChildren.isElement 4 = true ∧
    mixedChildren.parent? 4 = some 1 ∧ 1 ≤ (2 : Int64).toInt ∧
    (PseudoClass.holds (({} : Engine).context mixedChildren 0) ⟨.lt, .index 2⟩ 4).Decides True ∧
    (PseudoClass.holds (({} : Engine).context mixedChildren 0) ⟨.gt, .index 2⟩ 4).Decides False ∧
    PseudoClass.holds (({} : Engine).context mixedChildren 0) ⟨.eq, .nth ⟨0, 2⟩⟩ 4 =
      both (PseudoClass.holds (({} : Engine).context mixedChildren 0) ⟨.lt, .index 2⟩ 4)
        (PseudoClass.holds (({} : Engine).context mixedChildren 0) ⟨.gt, .index (2 - 1)⟩ 4) ∧
    (looseElements 1).Built ∧ (looseElements 1).isElement 1 = true ∧
    (looseElements 1).parent? 1 = none ∧
    (PseudoClass.holds (({} : Engine).context (looseElements 1) 0)
      ⟨.lastOfType, .none⟩ 1).Decides False := by
  have hplace : ordinal (mixedChildren.elementChildren 1) false 4 = 2 := rfl
  have htwo : 1 ≤ (2 : Int64).toInt := by decide
  obtain ⟨-, hbounds, hsame, -⟩ := @PseudoClass.shorthands_agree
    (({} : Engine).context mixedChildren 0) 4 built_mixedChildren rfl 2
  obtain ⟨-, -, -, hsingle⟩ := @PseudoClass.shorthands_agree
    (({} : Engine).context (looseElements 1) 0) 1 (built_looseElements 1) rfl 0
  obtain ⟨hlt, hgt⟩ := hbounds 1 rfl
  refine ⟨built_mixedChildren, rfl, rfl, htwo, hlt.congr ?_, hgt.congr ?_, hsame htwo,
    built_looseElements 1, rfl, rfl, hsingle rfl .lastOfType (by decide) .none⟩
  · exact iff_true_intro (by decide)
  · exact iff_false_intro (by decide)

end DocumentQuery
