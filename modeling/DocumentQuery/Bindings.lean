namespace DocumentQuery

/-- Names bound to texts, in the order in which the names were first bound. -/
structure Bindings where
  entries : List (String × String)
  distinct : (entries.map Prod.fst).Nodup

namespace Bindings

def empty : Bindings :=
  ⟨[], List.nodup_nil⟩

def get? (b : Bindings) (name : String) : Option String :=
  b.entries.lookup name

def contains (b : Bindings) (name : String) : Bool :=
  (b.get? name).isSome

theorem get?_eq_some_iff (b : Bindings) {name value : String} :
    b.get? name = some value ↔ (name, value) ∈ b.entries := by
  obtain ⟨entries, distinct⟩ := b
  unfold get?
  induction entries with
  | nil => simp
  | cons entry entries ih =>
    obtain ⟨n, v⟩ := entry
    obtain ⟨hn, hd⟩ := List.nodup_cons.mp distinct
    rw [List.lookup_cons, List.mem_cons]
    by_cases he : name = n
    · subst he
      have hlater : (name, value) ∉ entries := fun hm => hn (List.mem_map.mpr ⟨_, hm, rfl⟩)
      simp [hlater, eq_comm]
    · simp only [beq_eq_false_iff_ne.mpr he, ih hd, Prod.mk.injEq, he, false_and, false_or]

/-- The entries with `value` at every place of `name`. -/
def replace (name value : String) (entries : List (String × String)) : List (String × String) :=
  entries.map fun entry => if entry.1 = name then (name, value) else entry

theorem map_fst_replace (name value : String) (entries : List (String × String)) :
    (replace name value entries).map Prod.fst = entries.map Prod.fst := by
  rw [replace, List.map_map]
  apply List.map_congr_left
  intro entry _
  simp only [Function.comp_apply]
  split
  next he => exact he.symm
  next => rfl

theorem replace_cons (name value n v : String) (entries : List (String × String)) :
    replace name value ((n, v) :: entries) =
      (if n = name then (name, value) else (n, v)) :: replace name value entries :=
  rfl

theorem lookup_replace_self {name : String} {entries : List (String × String)} (value : String)
    (h : name ∈ entries.map Prod.fst) : (replace name value entries).lookup name = some value := by
  induction entries with
  | nil => cases h
  | cons entry entries ih =>
    obtain ⟨n, v⟩ := entry
    rw [replace_cons]
    by_cases he : n = name
    · rw [if_pos he, List.lookup_cons_self]
    · have hm : name ∈ entries.map Prod.fst := (List.mem_cons.mp h).resolve_left (Ne.symm he)
      rw [if_neg he, List.lookup_cons, beq_eq_false_iff_ne.mpr (Ne.symm he)]
      exact ih hm

theorem lookup_replace_of_ne {name other : String} (entries : List (String × String))
    (value : String) (h : other ≠ name) :
    (replace name value entries).lookup other = entries.lookup other := by
  induction entries with
  | nil => rfl
  | cons entry entries ih =>
    obtain ⟨n, v⟩ := entry
    rw [replace_cons]
    by_cases he : n = name
    · subst he
      rw [if_pos rfl, List.lookup_cons, List.lookup_cons, beq_eq_false_iff_ne.mpr h]
      exact ih
    · rw [if_neg he, List.lookup_cons, List.lookup_cons, ih]

/-- Binds `name` to `value`; an earlier value of the name is replaced in its place. -/
def set (b : Bindings) (name value : String) : Bindings :=
  if h : name ∈ b.entries.map Prod.fst then
    ⟨replace name value b.entries, by rw [map_fst_replace]; exact b.distinct⟩
  else
    ⟨b.entries ++ [(name, value)], by
      rw [List.map_append, List.nodup_append]
      refine ⟨b.distinct, by simp, ?_⟩
      intro x hx y hy he
      simp only [List.map_cons, List.map_nil, List.mem_singleton] at hy
      exact h (hy ▸ he ▸ hx)⟩

theorem get?_set_self (b : Bindings) (name value : String) :
    (b.set name value).get? name = some value := by
  unfold set get?
  split
  next h => exact lookup_replace_self value h
  next h =>
    have hn : b.entries.lookup name = none := by
      rw [List.lookup_eq_none_iff]
      intro entry hm
      refine bne_iff_ne.mpr ?_
      rintro rfl
      exact h (List.mem_map_of_mem hm)
    simp [List.lookup_append, hn]

theorem get?_set_of_ne (b : Bindings) {name other : String} (value : String) (h : other ≠ name) :
    (b.set name value).get? other = b.get? other := by
  unfold set get?
  split
  next => exact lookup_replace_of_ne b.entries value h
  next => simp [List.lookup_append, List.lookup_cons, beq_eq_false_iff_ne.mpr h]

/-- The bindings set one after another, so that the last value of a name holds. -/
def ofList (entries : List (String × String)) : Bindings :=
  entries.foldl (fun b entry => b.set entry.1 entry.2) empty

/-- The entries in ascending order of their names, by code points. -/
def sorted (b : Bindings) : List (String × String) :=
  b.entries.mergeSort fun x y => decide (x.1 ≤ y.1)

end Bindings

end DocumentQuery
