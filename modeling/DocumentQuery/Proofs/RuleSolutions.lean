import Mathlib.Algebra.Ring.Int.Defs
import Mathlib.Algebra.Ring.Nat
import DocumentQuery.SiblingPosition

namespace DocumentQuery

/-- A truncated quotient without remainder that is not negative tells how many steps of a length
make up a distance. -/
theorem tmod_eq_zero_and_tdiv_nonneg_iff {distance step : Int} (h : step ≠ 0) :
    (distance.tmod step = 0 ∧ 0 ≤ distance.tdiv step) ↔ ∃ n : Nat, distance = step * n := by
  constructor
  · rintro ⟨hmod, hdiv⟩
    obtain ⟨n, hn⟩ := Int.eq_ofNat_of_zero_le hdiv
    have hparts := Int.mul_tdiv_add_tmod distance step
    rw [hmod, hn, Int.add_zero] at hparts
    exact ⟨n, hparts.symm⟩
  · rintro ⟨n, rfl⟩
    rw [Int.mul_tmod_right, Int.mul_tdiv_cancel_left _ h]
    exact ⟨rfl, Int.natCast_nonneg n⟩

namespace NthRule

variable {rule : NthRule} {position : Nat}

/-- A rule admits the positions that some steps from its offset lead to, unless the offset lies
beyond a positive step. -/
theorem admits_iff (h : 0 < position) :
    rule.admits position = true ↔
      ¬(0 < rule.step.toInt ∧ rule.step.toInt < rule.offset.toInt) ∧
        ∃ n : Nat, (position : Int) = rule.step.toInt * n + rule.offset.toInt := by
  unfold admits
  generalize rule.step.toInt = step
  generalize rule.offset.toInt = offset
  dsimp only
  split
  next hnone =>
    refine iff_of_false Bool.false_ne_true ?_
    rintro ⟨hfar, n, hn⟩
    rcases hnone with ⟨rfl, rfl⟩ | hbeyond
    · omega
    · exact hfar hbeyond
  next hsome =>
    obtain ⟨hzero, hfar⟩ := not_or.mp hsome
    rw [and_iff_right hfar]
    split
    next hstep => simp [hstep]
    next hstep =>
      rw [decide_eq_true_iff, tmod_eq_zero_and_tdiv_nonneg_iff hstep]
      split
      next hoffset =>
        -- a negative offset itself is no position, so that at least one step is taken
        constructor
        · rintro ⟨n, hn⟩
          refine ⟨n + 1, ?_⟩
          rw [Int.natCast_succ, Int.mul_add, Int.mul_one]
          omega
        · rintro ⟨_ | n, hn⟩
          · simp at hn
            omega
          · refine ⟨n, ?_⟩
            rw [Int.natCast_succ, Int.mul_add, Int.mul_one] at hn
            omega
      next =>
        refine exists_congr fun n => ?_
        omega

/-- A rule without steps admits one position. -/
theorem admits_place_iff {place : Int64} (h : 0 < position) :
    admits ⟨0, place⟩ position = true ↔ place.toInt = position := by
  rw [admits_iff h, Int64.toInt_zero]
  simp only [Int.zero_mul, Int.zero_add, Int.lt_irrefl, false_and, not_false_eq_true, true_and,
    exists_const]
  exact eq_comm

/-- A rule that goes back step by step admits the positions up to its offset. -/
theorem admits_upTo_iff {last : Int64} (h : 0 < position) :
    admits ⟨-1, last⟩ position = true ↔ (position : Int) ≤ last.toInt := by
  rw [admits_iff h]
  show ¬((0 : Int) < -1 ∧ _) ∧ (∃ n : Nat, (position : Int) = -1 * n + last.toInt) ↔ _
  constructor
  · rintro ⟨-, n, hn⟩
    omega
  · intro hle
    refine ⟨by omega, (last.toInt - position).toNat, ?_⟩
    omega

end NthRule

/-- A number, when it is one of one hundred and twenty-eight bits. -/
def wide? (n : Int) : Option Int :=
  if -2 ^ 127 ≤ n ∧ n < 2 ^ 127 then some n else none

/-- The truncated quotient and the remainder of two numbers, when the second is not zero and
both fit. -/
def wideDivision? (n d : Int) : Option (Int × Int) :=
  if d = 0 then none
  else do return (← wide? (n.tdiv d), ← wide? (n.tmod d))

/-- `NthRule.admits` computed in numbers of one hundred and twenty-eight bits. There is no answer
when one of them does not fit or a division is by zero. -/
def NthRule.admitsWide? (rule : NthRule) (position : Nat) : Option Bool :=
  let step := rule.step.toInt
  let offset := rule.offset.toInt
  if (step = 0 ∧ offset = 0) ∨ (0 < step ∧ step < offset) then some false
  else do
    let place ← wide? position
    if step = 0 then return place = offset
    else
      let first ← wide? (if offset < 0 then step + offset else offset)
      let distance ← wide? (place - first)
      let (quotient, remainder) ← wideDivision? distance step
      return remainder = 0 ∧ 0 ≤ quotient

theorem wide?_eq_some {n : Int} (h : n.natAbs < 2 ^ 127) : wide? n = some n := by
  rw [wide?, if_pos]
  omega

theorem wideDivision?_eq_some {n d : Int} (hn : n.natAbs < 2 ^ 127) (hd : d ≠ 0) :
    wideDivision? n d = some (n.tdiv d, n.tmod d) := by
  have hquotient := Int.natAbs_tdiv_le_natAbs n d
  have hremainder : (n.tmod d).natAbs ≤ n.natAbs := by
    rw [Int.natAbs_tmod]
    exact Nat.mod_le _ _
  rw [wideDivision?, if_neg hd, wide?_eq_some (by omega), wide?_eq_some (by omega)]
  rfl

theorem natAbs_toInt_le (w : Int64) : w.toInt.natAbs ≤ 2 ^ 63 := by
  have hlow := Int64.le_toInt w
  have hhigh := Int64.toInt_lt w
  omega

/-- No number on the way leaves the range and no division is by zero, for a position that counts
nodes. -/
theorem NthRule.admitsWide?_eq (rule : NthRule) {position : Nat} (h : position ≤ 2 ^ 64) :
    rule.admitsWide? position = some (rule.admits position) := by
  have hstep := natAbs_toInt_le rule.step
  have hoffset := natAbs_toInt_le rule.offset
  unfold admitsWide? admits
  generalize rule.step.toInt = step at hstep ⊢
  generalize rule.offset.toInt = offset at hoffset ⊢
  have hfirst : (if offset < 0 then step + offset else offset).natAbs ≤ 2 ^ 64 := by
    split
    all_goals omega
  dsimp only
  generalize (if offset < 0 then step + offset else offset) = first at hfirst ⊢
  have hplace : wide? position = some (position : Int) := wide?_eq_some (by omega)
  have hstart : wide? first = some first := wide?_eq_some (by omega)
  have hdistance : ((position : Int) - first).natAbs < 2 ^ 127 := by omega
  split
  next => rfl
  next =>
    simp only [hplace, Option.bind_eq_bind, Option.bind_some]
    split
    next => rfl
    next hzero =>
      simp only [hstart, wide?_eq_some hdistance, wideDivision?_eq_some hdistance hzero,
        Option.bind_some, Option.pure_def]

end DocumentQuery
