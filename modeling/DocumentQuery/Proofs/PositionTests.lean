import DocumentQuery.Engine
import DocumentQuery.Proofs.QueryAnswers
import DocumentQuery.Proofs.RuleSolutions
import DocumentQuery.Proofs.SiblingPlaces

namespace DocumentQuery

open Document Query

/-- The pseudo-class that asks for the position of a node, counted from the start or from the
end, among all siblings or those of its type. -/
def PseudoClassName.nthName : (fromEnd sameType : Bool) → PseudoClassName
  | false, false => .nthChild
  | true, false => .nthLastChild
  | false, true => .nthOfType
  | true, true => .nthLastOfType

namespace PseudoClass

variable {ctx : QueryContext} {x p : NodeId} {e : Element} {tag : Option String}

theorem holds_nth (ctx : QueryContext) (rule : NthRule) (fromEnd sameType : Bool) (x : NodeId) :
    PseudoClass.holds ctx ⟨.nthName fromEnd sameType, .nth rule⟩ x =
      pure (ctx.document.hasNthPosition x rule fromEnd sameType) := by
  cases fromEnd <;> cases sameType <;> rfl

theorem decides_nth (h : ctx.document.Linked) (he : ctx.document.element? x = some e)
    (rule : NthRule) (fromEnd sameType : Bool) :
    (PseudoClass.holds ctx ⟨.nthName fromEnd sameType, .nth rule⟩ x).Decides
      (∃ p, ctx.document.parent? x = some p ∧ rule.admits
        (ordinal (ctx.document.childrenTagged p (e.countedTag sameType)) fromEnd x) = true) := by
  rw [holds_nth]
  refine decides_pure ?_
  rw [hasNthPosition, Bool.and_eq_true, Option.isSome_iff_exists, ← exists_and_right]
  refine exists_congr fun p => and_congr_right fun hp => ?_
  rw [h.siblingPosition_eq he hp]

/-- The tests for a position pass at an element exactly if it has a parent and its position
among the siblings that count is the offset of the rule and some steps. A rule with a positive
step and a larger offset never passes. In a tree whose nodes are counted in sixty-four bits,
nothing on the way to the answer leaves one hundred and twenty-eight, nor is anything divided
by zero. -/
theorem decides_nth_solution (built : ctx.document.Built)
    (he : ctx.document.element? x = some e) (rule : NthRule) (fromEnd sameType : Bool) :
    (PseudoClass.holds ctx ⟨.nthName fromEnd sameType, .nth rule⟩ x).Decides
      (∃ p, ctx.document.parent? x = some p ∧
        ¬(0 < rule.step.toInt ∧ rule.step.toInt < rule.offset.toInt) ∧
        ∃ n : Nat,
          (ordinal (ctx.document.childrenTagged p (e.countedTag sameType)) fromEnd x : Int) =
            rule.step.toInt * n + rule.offset.toInt) ∧
    (ctx.document.size ≤ 2 ^ 64 →
      rule.admitsWide? (ctx.document.siblingPosition x fromEnd sameType) =
        some (rule.admits (ctx.document.siblingPosition x fromEnd sameType))) := by
  have hlinked := built.linked
  refine ⟨(decides_nth hlinked he rule fromEnd sameType).congr ?_, fun hsize => ?_⟩
  · exact exists_congr fun p => and_congr_right fun _ => NthRule.admits_iff (Nat.succ_pos _)
  · have hposition := hlinked.siblingPosition_le_size x fromEnd sameType
    exact rule.admitsWide?_eq (Nat.le_trans hposition hsize)

theorem decides_place (h : ctx.document.Linked) (hx : x ∈ ctx.document.childrenTagged p tag)
    (fromEnd : Bool) (place : Int64) :
    (PseudoClass.holds ctx ⟨.nthName fromEnd tag.isSome, .nth ⟨0, place⟩⟩ x).Decides
      (place.toInt = ordinal (ctx.document.childrenTagged p tag) fromEnd x) := by
  obtain ⟨hp, e, he, hsame⟩ := h.of_mem_childrenTagged hx
  refine (decides_nth h he _ fromEnd tag.isSome).congr ?_
  simp only [hp, Option.some.injEq, exists_eq_left', hsame]
  exact NthRule.admits_place_iff (Nat.succ_pos _)

/-- Among the element children of a node, or those with a tag, the tests for a single position
number the members in order, from either end: each passes at the member of that number alone,
and none passes beyond the last. -/
theorem positions_number_children (built : ctx.document.Built) (p : NodeId)
    (tag : Option String) :
    (∀ i (hi : i < (ctx.document.childrenTagged p tag).length) (front back : Int64),
      front.toInt = i + 1 → back.toInt = (ctx.document.childrenTagged p tag).length - i →
      ∀ x ∈ ctx.document.childrenTagged p tag,
        (PseudoClass.holds ctx ⟨.nthName false tag.isSome, .nth ⟨0, front⟩⟩ x).Decides
          (x = (ctx.document.childrenTagged p tag)[i]) ∧
        (PseudoClass.holds ctx ⟨.nthName true tag.isSome, .nth ⟨0, back⟩⟩ x).Decides
          (x = (ctx.document.childrenTagged p tag)[i])) ∧
    ∀ beyond : Int64, (ctx.document.childrenTagged p tag).length < beyond.toInt →
      ∀ x ∈ ctx.document.childrenTagged p tag, ∀ fromEnd,
        (PseudoClass.holds ctx ⟨.nthName fromEnd tag.isSome, .nth ⟨0, beyond⟩⟩ x).Decides
          False := by
  have hlinked := built.linked
  have hnodup := hlinked.nodup_childrenTagged p tag
  refine ⟨fun i hi front back hfront hback x hx => ⟨?_, ?_⟩, fun beyond hbeyond x hx fromEnd => ?_⟩
  · refine (decides_place hlinked hx false front).congr ?_
    rw [← ordinal_start_eq_iff hnodup hi hx]
    omega
  · refine (decides_place hlinked hx true back).congr ?_
    rw [← ordinal_end_eq_iff hnodup hi hx]
    omega
  · refine (decides_place hlinked hx fromEnd beyond).congr ?_
    have hplace := ordinal_le_length fromEnd hx
    rw [iff_false]
    omega

end PseudoClass

/-- The document of an element `ul` that holds `li`, a text, `LI`, `p` and `li`. -/
def mixedChildren : Document :=
  let element (tag : String) (previous next : Option NodeId) : Node :=
    { kind := .element ⟨tag, none, none, .empty⟩, parent := some 1, previous, next }
  ⟨#[{ kind := .document, children := [1] },
    { kind := .element ⟨"ul", none, none, .empty⟩, parent := some 0, children := [2, 3, 4, 5, 6] },
    element "li" none (some 3),
    { kind := .text "x", parent := some 1, previous := some 2, next := some 4 },
    element "LI" (some 3) (some 5), element "p" (some 4) (some 6), element "li" (some 5) none]⟩

theorem built_mixedChildren : mixedChildren.Built := by
  have hul := @Built.grow _ _ 0 .blank (.element ⟨"ul", none, none, .empty⟩) (by decide) rfl
  have hfirst := @Built.grow _ _ 1 hul (.element ⟨"li", none, none, .empty⟩) (by decide) rfl
  have htext := @Built.grow _ _ 1 hfirst (.text "x") (by decide) rfl
  have hsecond := @Built.grow _ _ 1 htext (.element ⟨"LI", none, none, .empty⟩) (by decide) rfl
  have hother := @Built.grow _ _ 1 hsecond (.element ⟨"p", none, none, .empty⟩) (by decide) rfl
  exact @Built.grow _ _ 1 hother (.element ⟨"li", none, none, .empty⟩) (by decide) rfl

/-- The element `LI` is the second `li` from the end, the greatest offset less so many steps. -/
theorem nth_mixedChildren : mixedChildren.Built ∧
    mixedChildren.element? 4 = some ⟨"LI", none, none, .empty⟩ ∧ mixedChildren.size ≤ 2 ^ 64 ∧
    (PseudoClass.holds (({} : Engine).context mixedChildren 0)
      ⟨.nthLastOfType, .nth ⟨-1, Int64.maxValue⟩⟩ 4).answer {} = true ∧
    NthRule.admitsWide? ⟨-1, Int64.maxValue⟩ 2 = some true := by
  have hli : mixedChildren.element? 4 = some ⟨"LI", none, none, .empty⟩ := rfl
  obtain ⟨hdecides, hwide⟩ := @PseudoClass.decides_nth_solution
    (({} : Engine).context mixedChildren 0) 4 _ built_mixedChildren hli ⟨-1, Int64.maxValue⟩ true true
  have hsize : mixedChildren.size ≤ 2 ^ 64 := by decide
  have hsolution : (2 : Int) = (-1 : Int64).toInt * 9223372036854775805 + Int64.maxValue.toInt := by
    decide
  refine ⟨built_mixedChildren, hli, hsize, ?_, hwide hsize⟩
  exact (hdecides {}).mpr ⟨1, rfl, by decide, 9223372036854775805, hsolution⟩

theorem positions_mixedChildren : mixedChildren.Built ∧
    mixedChildren.childrenTagged 1 (some "Li") = [2, 4, 6] ∧
    (PseudoClass.holds (({} : Engine).context mixedChildren 0)
      ⟨.nthOfType, .nth ⟨0, 3⟩⟩ 6).Decides True ∧
    (PseudoClass.holds (({} : Engine).context mixedChildren 0)
      ⟨.nthLastOfType, .nth ⟨0, 1⟩⟩ 6).Decides True ∧
    (PseudoClass.holds (({} : Engine).context mixedChildren 0)
      ⟨.nthOfType, .nth ⟨0, 3⟩⟩ 4).Decides False ∧
    (PseudoClass.holds (({} : Engine).context mixedChildren 0)
      ⟨.nthOfType, .nth ⟨0, 4⟩⟩ 6).Decides False := by
  have hmembers : mixedChildren.childrenTagged 1 (some "Li") = [2, 4, 6] := rfl
  obtain ⟨hplaces, hbeyond⟩ := @PseudoClass.positions_number_children
    (({} : Engine).context mixedChildren 0) built_mixedChildren 1 (some "Li")
  have hlast := hplaces 2 (by decide) 3 1 (by decide) (by decide)
  obtain ⟨hfront, hback⟩ := hlast 6 (by decide)
  refine ⟨built_mixedChildren, hmembers, hfront.congr ?_, hback.congr ?_, ?_, ?_⟩
  · exact iff_true_intro rfl
  · exact iff_true_intro rfl
  · exact (hlast 4 (by decide)).1.congr (iff_false_intro (by decide))
  · exact hbeyond 4 (by decide) 6 (by decide) false

end DocumentQuery
