import Std.Data.TreeSet

namespace DocumentQuery

/-- The members of a list that are not in `seen`, each where it first stands. -/
def distinctBeyond (seen : Std.TreeSet Nat) : List Nat → List Nat
  | [] => []
  | x :: xs =>
    if seen.contains x then distinctBeyond seen xs
    else x :: distinctBeyond (seen.insert x) xs

/-- The members of a list, each where it first stands. -/
def distinct (xs : List Nat) : List Nat :=
  distinctBeyond ∅ xs

theorem mem_distinctBeyond {seen : Std.TreeSet Nat} {xs : List Nat} {x : Nat} :
    x ∈ distinctBeyond seen xs ↔ x ∈ xs ∧ seen.contains x = false := by
  induction xs generalizing seen with
  | nil => simp [distinctBeyond]
  | cons y ys ih =>
    rw [distinctBeyond]
    split
    next hy =>
      rw [ih, List.mem_cons]
      refine ⟨fun h => ⟨Or.inr h.1, h.2⟩, fun ⟨hm, hx⟩ => ⟨hm.resolve_left ?_, hx⟩⟩
      rintro rfl
      rw [hy] at hx
      cases hx
    next hy =>
      rw [List.mem_cons, ih, List.mem_cons, Std.TreeSet.contains_insert]
      by_cases he : x = y
      · subst he
        simp [Bool.not_eq_true _ ▸ hy]
      · simp [he, Ne.symm he]

/-- Leaving out repetitions keeps the members of a list. -/
theorem mem_distinct {xs : List Nat} {x : Nat} : x ∈ distinct xs ↔ x ∈ xs := by
  simp [distinct, mem_distinctBeyond]

theorem nodup_distinctBeyond (seen : Std.TreeSet Nat) (xs : List Nat) :
    (distinctBeyond seen xs).Nodup := by
  induction xs generalizing seen with
  | nil => exact List.nodup_nil
  | cons y ys ih =>
    rw [distinctBeyond]
    split
    next => exact ih seen
    next =>
      refine List.nodup_cons.mpr ⟨fun h => ?_, ih _⟩
      have := (mem_distinctBeyond.mp h).2
      simp at this

theorem nodup_distinct (xs : List Nat) : (distinct xs).Nodup :=
  nodup_distinctBeyond ∅ xs

end DocumentQuery
