import Mathlib.Data.List.TakeWhile
import DocumentQuery.AttributeValue

namespace DocumentQuery

/-- Whether `part` is one of the parts into which separators divide a text: it holds none of them,
and on either side of it stands one of them or the end of the text. -/
def StandsBetween (separators part whole : List Char) : Prop :=
  ∃ before after, whole = before ++ part ++ after ∧ (∀ c ∈ part, c ∉ separators) ∧
    (∀ c ∈ before.getLast?, c ∈ separators) ∧ ∀ c ∈ after.head?, c ∈ separators

/-- What an operator asks of the value `whole` of an attribute and the text `part` of a test. -/
def AttributeOperator.Relates (op : AttributeOperator) (part whole : String) : Prop :=
  match op with
  | .exactly => part = whole
  | .containsWithSpace =>
    part ≠ "" ∧ StandsBetween ['\t', '\n', '\x0c', '\r', ' '] part.toList whole.toList
  | .containsWithHyphen => StandsBetween ['-'] part.toList whole.toList
  | .containsSubstring => ∃ before after, whole = before ++ part ++ after
  | .beginsWith => ∃ after, whole = part ++ after
  | .endsWith => ∃ before, whole = before ++ part

section Pieces

variable {separates : Char → Bool} {part cs : List Char}

theorem eq_takeWhile_iff {p : Char → Bool} :
    part = cs.takeWhile p ↔
      ∃ after, cs = part ++ after ∧ (∀ c ∈ part, p c = true) ∧ ∀ c ∈ after.head?, p c = false := by
  constructor
  · rintro rfl
    refine ⟨cs.dropWhile p, List.takeWhile_append_dropWhile.symm, fun c hc => ?_, fun c hc => ?_⟩
    · exact List.mem_takeWhile_imp hc
    · have hstop := List.head?_dropWhile_not p cs
      rw [Option.mem_def.mp hc] at hstop
      simpa using hstop
  · rintro ⟨after, rfl, hpart, hafter⟩
    have hnone : after.takeWhile p = [] := by
      cases after with
      | nil => rfl
      | cons c after => rw [List.takeWhile_cons, hafter c rfl]; rfl
    rw [List.takeWhile_append_of_pos hpart, hnone, List.append_nil]

/-- The first piece goes up to the first separator, and each later one begins behind a separator
and goes up to the next. -/
theorem pieces_eq (separates : Char → Bool) (cs : List Char) :
    ∃ later, pieces separates cs = cs.takeWhile (fun c => !separates c) :: later ∧
      ∀ part, part ∈ later ↔ ∃ before c rest, cs = before ++ c :: rest ∧ separates c = true ∧
        part = rest.takeWhile fun c => !separates c := by
  induction cs with
  | nil => exact ⟨[], rfl, by simp⟩
  | cons c cs ih =>
    obtain ⟨later, heq, hlater⟩ := ih
    rw [pieces, heq]
    by_cases hc : separates c = true
    -- behind a separator the first piece of the rest is a later one
    · rw [if_pos hc]
      refine ⟨_, by rw [List.takeWhile_cons, hc]; rfl, fun part => ?_⟩
      rw [List.mem_cons, hlater]
      constructor
      · rintro (hfirst | ⟨before, d, rest, rfl, hd, hpart⟩)
        · exact ⟨[], c, cs, rfl, hc, hfirst⟩
        · exact ⟨c :: before, d, rest, rfl, hd, hpart⟩
      · rintro ⟨before, d, rest, hcs, hd, hpart⟩
        cases before with
        | nil =>
          cases hcs
          exact .inl hpart
        | cons b before =>
          cases hcs
          exact .inr ⟨before, d, rest, rfl, hd, hpart⟩
    · rw [if_neg hc]
      refine ⟨later, by rw [List.takeWhile_cons]; simp [hc], fun part => ?_⟩
      rw [hlater]
      constructor
      · rintro ⟨before, d, rest, rfl, hd, hpart⟩
        exact ⟨c :: before, d, rest, rfl, hd, hpart⟩
      · rintro ⟨before, d, rest, hcs, hd, hpart⟩
        cases before with
        | nil =>
          cases hcs
          exact absurd hd hc
        | cons b before =>
          cases hcs
          exact ⟨before, d, rest, rfl, hd, hpart⟩

theorem mem_pieces_iff : part ∈ pieces separates cs ↔ ∃ before rest, cs = before ++ rest ∧
    (∀ c ∈ before.getLast?, separates c = true) ∧
    part = rest.takeWhile fun c => !separates c := by
  obtain ⟨later, heq, hlater⟩ := pieces_eq separates cs
  rw [heq, List.mem_cons, hlater]
  constructor
  · rintro (hfirst | ⟨before, c, rest, rfl, hc, hpart⟩)
    · exact ⟨[], cs, rfl, by simp, hfirst⟩
    · exact ⟨before ++ [c], rest, by simp, by simpa using hc, hpart⟩
  · rintro ⟨before, rest, rfl, hbefore, hpart⟩
    rcases before.eq_nil_or_concat with rfl | ⟨front, c, rfl⟩
    · exact .inl hpart
    · rw [List.concat_eq_append] at hbefore ⊢
      exact .inr ⟨front, c, rest, by simp, hbefore c (by simp), hpart⟩

theorem mem_pieces {separators : List Char} (h : ∀ c, separates c = true ↔ c ∈ separators) :
    part ∈ pieces separates cs ↔ StandsBetween separators part cs := by
  have hnot (c : Char) : (!separates c) = true ↔ c ∉ separators := by
    rw [← h, Bool.not_eq_true', Bool.not_eq_true]
  simp only [mem_pieces_iff, eq_takeWhile_iff, hnot, Bool.not_eq_false', h]
  constructor
  · rintro ⟨before, rest, rfl, hbefore, after, rfl, hpart, hafter⟩
    exact ⟨before, after, (List.append_assoc ..).symm, hpart, hbefore, hafter⟩
  · rintro ⟨before, after, rfl, hpart, hbefore, hafter⟩
    exact ⟨before, part ++ after, List.append_assoc .., hbefore, after, rfl, hpart, hafter⟩

theorem mem_words : part ∈ words cs ↔
    part ≠ [] ∧ StandsBetween ['\t', '\n', '\x0c', '\r', ' '] part cs := by
  have hblank (c : Char) : isBlank c = true ↔ c ∈ ['\t', '\n', '\x0c', '\r', ' '] := by
    simp [isBlank, or_assoc]
  rw [words, List.mem_filter, mem_pieces hblank, and_comm]
  simp

theorem mem_hyphenParts : part ∈ hyphenParts cs ↔ StandsBetween ['-'] part cs :=
  mem_pieces fun c => by simp

end Pieces

namespace AttributeOperator

variable {op : AttributeOperator} {part whole : String}

theorem infix_iff : part.toList <:+: whole.toList ↔
    ∃ before after, whole = before ++ part ++ after := by
  constructor
  · rintro ⟨before, after, h⟩
    refine ⟨String.ofList before, String.ofList after, String.toList_inj.mp ?_⟩
    simp [← h]
  · rintro ⟨before, after, rfl⟩
    exact ⟨before.toList, after.toList, by simp⟩

theorem prefix_iff : part.toList <+: whole.toList ↔ ∃ after, whole = part ++ after := by
  constructor
  · rintro ⟨after, h⟩
    refine ⟨String.ofList after, String.toList_inj.mp ?_⟩
    simp [← h]
  · rintro ⟨after, rfl⟩
    exact ⟨after.toList, by simp⟩

theorem suffix_iff : part.toList <:+ whole.toList ↔ ∃ before, whole = before ++ part := by
  constructor
  · rintro ⟨before, h⟩
    refine ⟨String.ofList before, String.toList_inj.mp ?_⟩
    simp [← h]
  · rintro ⟨before, rfl⟩
    exact ⟨before.toList, by simp⟩

/-- Whatever an operator asks, a value that has it holds the text of the test. -/
theorem Relates.substring (h : op.Relates part whole) :
    containsSubstring.Relates part whole := by
  have hbetween {separators : List Char}
      (hs : StandsBetween separators part.toList whole.toList) :
      containsSubstring.Relates part whole := by
    obtain ⟨before, after, he, -⟩ := hs
    exact infix_iff.mp ⟨before, after, he.symm⟩
  cases op with
  | exactly => exact ⟨"", "", by simpa using h.symm⟩
  | containsWithSpace => exact hbetween h.2
  | containsWithHyphen => exact hbetween h
  | containsSubstring => exact h
  | beginsWith =>
    obtain ⟨after, he⟩ := h
    exact ⟨"", after, by simpa using he⟩
  | endsWith =>
    obtain ⟨before, he⟩ := h
    exact ⟨before, "", by simpa using he⟩

/-- A value that has what an operator asks has no fewer bytes than the text of the test. -/
theorem Relates.utf8ByteSize_le (h : op.Relates part whole) :
    part.utf8ByteSize ≤ whole.utf8ByteSize := by
  obtain ⟨before, after, rfl⟩ := h.substring
  rw [String.utf8ByteSize_append, String.utf8ByteSize_append]
  omega

theorem holds_iff_relates : op.holds part whole = true ↔ op.Relates part whole := by
  unfold holds
  split
  next hlt =>
    refine iff_of_false Bool.false_ne_true fun h => ?_
    have hle := h.utf8ByteSize_le
    omega
  next =>
    cases op with
    | exactly => exact beq_iff_eq
    | containsWithSpace =>
      rw [List.contains_iff_mem, mem_words]
      exact and_congr_left' (not_congr String.toList_eq_nil_iff)
    | containsWithHyphen => exact List.contains_iff_mem.trans mem_hyphenParts
    | containsSubstring => exact occursIn_eq_true_iff.trans infix_iff
    | beginsWith => exact List.isPrefixOf_iff_prefix.trans prefix_iff
    | endsWith => exact List.isSuffixOf_iff_suffix.trans suffix_iff

/-- A test without a value passes wherever there is an attribute. -/
theorem accepts_iff {value actual : Option String} : op.accepts value actual = true ↔
    ∃ whole, actual = some whole ∧ ∀ part ∈ value, op.holds part whole = true := by
  cases actual with
  | none => simp [accepts]
  | some whole => cases value <;> simp [accepts]

theorem accepts_exactly_iff {actual : Option String} :
    exactly.accepts (some part) actual = true ↔ actual = some part := by
  rw [accepts_iff]
  constructor
  · rintro ⟨whole, rfl, hholds⟩
    exact congrArg some (holds_iff_relates.mp (hholds part rfl)).symm
  · rintro rfl
    refine ⟨part, rfl, fun other hother => ?_⟩
    exact holds_iff_relates.mpr (Option.some.inj hother).symm

/-- The comparison of a value is what the operator asks, to which the look at the lengths adds
nothing. Equal texts begin and end alike, and every other comparison asks for a value that holds
the text of the test. -/
theorem holds_relates (op : AttributeOperator) (part whole : String) :
    (op.holds part whole = true ↔ op.Relates part whole) ∧
    (op.Relates part whole → ¬whole.utf8ByteSize < part.utf8ByteSize) ∧
    (exactly.holds part whole = true →
      beginsWith.holds part whole = true ∧ endsWith.holds part whole = true) ∧
    (op.holds part whole = true → containsSubstring.holds part whole = true) := by
  refine ⟨holds_iff_relates, fun h => Nat.not_lt.mpr h.utf8ByteSize_le, fun h => ?_, fun h => ?_⟩
  · obtain rfl := holds_iff_relates.mp h
    exact ⟨holds_iff_relates.mpr ⟨"", by simp⟩, holds_iff_relates.mpr ⟨"", by simp⟩⟩
  · exact holds_iff_relates.mpr (holds_iff_relates.mp h).substring

/-- There is an empty part between two hyphens, and `ß` has two bytes. -/
theorem holds_betweenHyphens :
    StandsBetween ['-'] [] ['é', '-', '-', 'ß'] ∧ containsSubstring.holds "" "é--ß" = true ∧
    beginsWith.holds "ß" "ß" = true ∧ ¬containsSubstring.Relates "ßßß" "ß--" := by
  have hempty : containsWithHyphen.holds "" "é--ß" = true := by decide +kernel
  have hsame : exactly.holds "ß" "ß" = true := by decide +kernel
  have hlong : "ß--".utf8ByteSize < "ßßß".utf8ByteSize := by decide +kernel
  obtain ⟨hparts, -, -, hsubstring⟩ := holds_relates .containsWithHyphen "" "é--ß"
  obtain ⟨-, -, hends, -⟩ := holds_relates .exactly "ß" "ß"
  obtain ⟨-, hlength, -, -⟩ := holds_relates .containsSubstring "ßßß" "ß--"
  exact ⟨hparts.mp hempty, hsubstring hempty, (hends hsame).1, fun h => hlength h hlong⟩

end AttributeOperator

end DocumentQuery
