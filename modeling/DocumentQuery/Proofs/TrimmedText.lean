import Mathlib.Data.List.DropRight
import DocumentQuery.BlankText

namespace DocumentQuery

theorem trim_eq_rdropWhile (cs : List Char) : trim cs = (trimStart cs).rdropWhile isWhiteSpace :=
  rfl

/-- Trimming cuts white space off the two ends. -/
theorem trim_parts (cs : List Char) :
    ∃ front back, cs = front ++ trim cs ++ back ∧ front.all isWhiteSpace = true ∧
      back.all isWhiteSpace = true := by
  refine ⟨cs.takeWhile isWhiteSpace, (trimStart cs).rtakeWhile isWhiteSpace, ?_, ?_, ?_⟩
  · rw [List.append_assoc, trim_eq_rdropWhile, List.rdropWhile_append_rtakeWhile]
    exact List.takeWhile_append_dropWhile.symm
  · exact List.all_takeWhile
  · rw [List.rtakeWhile, List.all_reverse]
    exact List.all_takeWhile

theorem trim_eq_self_iff {cs : List Char} :
    trim cs = cs ↔ (∀ c ∈ cs.head?, isWhiteSpace c = false) ∧
      ∀ c ∈ cs.getLast?, isWhiteSpace c = false := by
  have hlast : cs.rdropWhile isWhiteSpace = cs ↔ ∀ c ∈ cs.getLast?, isWhiteSpace c = false := by
    rw [List.rdropWhile_eq_self_iff]
    cases cs using List.reverseRecOn with
    | nil => simp
    | append_singleton cs c => simp
  have hfirst : trimStart cs = cs ↔ ∀ c ∈ cs.head?, isWhiteSpace c = false := by
    cases cs with
    | nil => simp [trimStart]
    | cons c cs =>
      cases hc : isWhiteSpace c with
      | false => simp [trimStart, hc]
      | true =>
        have hl := (List.dropWhile_sublist isWhiteSpace (l := cs)).length_le
        have hne : trimStart (c :: cs) ≠ c :: cs := by
          intro he
          have hn := congrArg List.length he
          simp only [trimStart, List.dropWhile_cons, hc, if_true, List.length_cons] at hn
          omega
        simp [hne, hc]
  constructor
  · intro h
    have hs : trimStart cs = cs := by
      have ht : (trimStart cs).length ≤ cs.length := (List.dropWhile_sublist _).length_le
      have hr : (trim cs).length ≤ (trimStart cs).length :=
        (List.rdropWhile_prefix isWhiteSpace (trimStart cs)).length_le
      rw [h] at hr
      exact (List.dropWhile_sublist _).eq_of_length (Nat.le_antisymm ht hr)
    rw [trim_eq_rdropWhile, hs] at h
    exact ⟨hfirst.mp hs, hlast.mp h⟩
  · rintro ⟨hf, hl⟩
    rw [trim_eq_rdropWhile, hfirst.mpr hf, hlast.mpr hl]

theorem trim_of_forall {cs : List Char} (h : ∀ c ∈ cs, isWhiteSpace c = false) : trim cs = cs :=
  trim_eq_self_iff.mpr
    ⟨fun c hc => h c (List.mem_of_mem_head? hc), fun c hc => h c (List.mem_of_getLast? hc)⟩

theorem isWhiteSpace_of_trimStart_eq_cons {cs rest : List Char} {c : Char}
    (h : trimStart cs = c :: rest) : isWhiteSpace c = false := by
  change cs.dropWhile isWhiteSpace = c :: rest at h
  have hn : cs.dropWhile isWhiteSpace ≠ [] := by simp [h]
  have := List.head_dropWhile_not isWhiteSpace hn
  simpa only [h, List.head_cons] using this

theorem trim_trim (cs : List Char) : trim (trim cs) = trim cs := by
  rw [trim_eq_self_iff]
  have hs : ∀ c ∈ (trim cs).getLast?, isWhiteSpace c = false := by
    have h := List.rdropWhile_idempotent isWhiteSpace (trimStart cs)
    rw [List.rdropWhile_eq_self_iff] at h
    intro c hc
    obtain ⟨hne, rfl⟩ := List.mem_getLast?_eq_getLast hc
    exact Bool.eq_false_iff.mpr (h hne)
  refine ⟨fun c hc => ?_, hs⟩
  -- the first character left is the first one left by trimming the start only
  obtain ⟨back, hb⟩ := List.rdropWhile_prefix isWhiteSpace (trimStart cs)
  rw [← trim_eq_rdropWhile] at hb
  cases ht : trim cs with
  | nil => simp [ht] at hc
  | cons d ds =>
    rw [ht] at hc hb
    cases hc
    exact isWhiteSpace_of_trimStart_eq_cons hb.symm

theorem trimmed_trimmed (text : String) : trimmed (trimmed text) = trimmed text := by
  simp only [trimmed, String.toList_ofList, trim_trim]

theorem toList_trimmed (text : String) : (trimmed text).toList = trim text.toList := by
  rw [trimmed, String.toList_ofList]

theorem trimmed_eq_self_iff {text : String} :
    trimmed text = text ↔ trim text.toList = text.toList := by
  rw [← String.toList_inj, toList_trimmed]

theorem trimmed_eq_empty_iff {text : String} : trimmed text = "" ↔ trim text.toList = [] := by
  rw [← String.toList_inj, toList_trimmed]
  simp

/-- Cutting characters off the end of an append reaches the first part only when nothing is left
of the second. -/
theorem rdropWhile_append (p : Char → Bool) (cs ds : List Char) :
    (cs ++ ds).rdropWhile p =
      if ds.rdropWhile p = [] then cs.rdropWhile p else cs ++ ds.rdropWhile p := by
  induction ds using List.reverseRecOn with
  | nil => simp
  | append_singleton ds d ih =>
    rw [← List.append_assoc]
    cases hd : p d with
    | true =>
      rw [List.rdropWhile_concat_pos p _ d hd, List.rdropWhile_concat_pos p _ d hd, ih]
    | false =>
      have hn : ¬p d = true := by simp [hd]
      rw [List.rdropWhile_concat_neg p _ d hn, List.rdropWhile_concat_neg p _ d hn, if_neg (by simp)]
      simp

end DocumentQuery
