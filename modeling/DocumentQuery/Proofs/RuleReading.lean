import DocumentQuery.Proofs.NumberReading

namespace DocumentQuery

namespace NthRule

/-- The texts of rules, in small letters and without white space around them. -/
inductive Written : List Char → NthRule → Prop where
  | even : Written "even".toList ⟨2, 0⟩
  | odd : Written "odd".toList ⟨2, 1⟩
  | place {number : List Char} {offset : Int64} (h : NumberText number offset.toInt) :
      Written number ⟨0, offset⟩
  | stepped {coefficient rest : List Char} {negative : Bool} {step number offset : Int64}
      (hc : CoefficientText coefficient step) (ho : OffsetText rest negative number)
      (value : offset.toInt = signed negative number.toInt) :
      Written (coefficient ++ 'n' :: rest) ⟨step, offset⟩

/-- The rule that a text writes. -/
def read? (cs : List Char) : Option NthRule :=
  if cs = "even".toList then some ⟨2, 0⟩
  else if cs = "odd".toList then some ⟨2, 1⟩
  else ((readWord cs).map fun offset => ⟨0, offset⟩).or (readStepped cs)

theorem read_eq (text : String) :
    NthRule.read text = (read? (asciiLower (trim text.toList))).getD ⟨0, 0⟩ := by
  unfold read read?
  dsimp only
  generalize asciiLower (trim text.toList) = cs
  split
  next => rfl
  next =>
    split
    next => rfl
    next => cases readWord cs <;> rfl

section Readers

variable {cs coefficient rest : List Char} {step offset : Int64} {rule : NthRule}

theorem readStepped_eq_some_iff : readStepped cs = some rule ↔
    ∃ coefficient rest, splitFirst 'n' cs = some (coefficient, rest) ∧
      readCoefficient coefficient = some rule.step ∧ readOffset rest = some rule.offset := by
  simp only [readStepped, Option.bind_eq_bind, Option.bind_eq_some_iff, Option.pure_def]
  constructor
  · rintro ⟨⟨coefficient, rest⟩, hs, step, hc, offset, ho, he⟩
    cases he
    exact ⟨coefficient, rest, hs, hc, ho⟩
  · rintro ⟨coefficient, rest, hs, hc, ho⟩
    exact ⟨(coefficient, rest), hs, rule.step, hc, rule.offset, ho, rfl⟩

theorem readStepped_of_texts (hc : CoefficientText coefficient step)
    (ho : readOffset rest = some offset) :
    readStepped (coefficient ++ 'n' :: rest) = some ⟨step, offset⟩ := by
  have hn : 'n' ∉ coefficient := by
    intro hn
    rcases hc.mem hn with hd | hd | hd
    all_goals exact absurd hd (by decide)
  exact readStepped_eq_some_iff.mpr
    ⟨coefficient, rest, splitFirst_eq_some_iff.mpr ⟨hn, rfl⟩, readCoefficient_eq_some_iff.mpr hc, ho⟩

/-- What has an `n` is not read as a number. -/
theorem readWord_append (coefficient rest : List Char) :
    readWord (coefficient ++ 'n' :: rest) = none := by
  cases h : readWord (coefficient ++ 'n' :: rest) with
  | none => rfl
  | some offset =>
    have hn : 'n' ∈ coefficient ++ 'n' :: rest := List.mem_append_right _ List.mem_cons_self
    rcases (readWord_eq_some_iff.mp h).mem hn with hd | hd | hd
    all_goals exact absurd hd (by decide)

/-- The two words are no other rules. -/
theorem read?_eq_some_of_or
    (h : ((readWord cs).map fun offset => ⟨0, offset⟩).or (readStepped cs) = some rule) :
    read? cs = some rule := by
  have hne : ∀ ds, readWord ds = none → readStepped ds = none → cs ≠ ds := by
    rintro ds hw hs rfl
    rw [hw, hs] at h
    cases h
  rw [read?, if_neg (hne _ (by decide) (by decide)), if_neg (hne _ (by decide) (by decide)), h]

theorem Written.of_readStepped (h : readStepped cs = some rule) : Written cs rule := by
  obtain ⟨coefficient, rest, hs, hc, ho⟩ := readStepped_eq_some_iff.mp h
  obtain ⟨negative, number, ho, value⟩ := readOffset_eq_some_iff.mp ho
  rw [(splitFirst_eq_some_iff.mp hs).2]
  exact .stepped (readCoefficient_eq_some_iff.mp hc) ho value

theorem read?_eq_some_iff : read? cs = some rule ↔ Written cs rule := by
  constructor
  · intro h
    unfold read? at h
    split at h
    next he =>
      cases h
      exact he ▸ .even
    next =>
      split at h
      next ho =>
        cases h
        exact ho ▸ .odd
      next =>
        rw [Option.or_eq_some_iff, Option.map_eq_some_iff] at h
        rcases h with ⟨offset, hoffset, rfl⟩ | ⟨-, hstepped⟩
        · exact .place (readWord_eq_some_iff.mp hoffset)
        · exact .of_readStepped hstepped
  · intro h
    cases h with
    | even => decide
    | odd => decide
    | place h =>
      refine read?_eq_some_of_or ?_
      rw [readWord_eq_some_iff.mpr h]
      rfl
    | stepped hc ho value =>
      have hoffset := readOffset_eq_some_iff.mpr ⟨_, _, ho, value⟩
      refine read?_eq_some_of_or ?_
      rw [readWord_append, readStepped_of_texts hc hoffset]
      rfl

/-- The least offset has no counterpart of the other sign, so that none is written behind an
`n`. -/
theorem Written.fits (h : Written cs rule) :
    ¬(rule.step ≠ 0 ∧ rule.offset = Int64.minValue) := by
  rintro ⟨hstep, hoffset⟩
  cases h with
  | even => exact absurd hoffset (by decide)
  | odd => exact absurd hoffset (by decide)
  | place => exact hstep rfl
  | @stepped _ _ _ _ number _ _ ho value =>
    subst hoffset
    have hsize := congrArg Int.natAbs value
    rw [natAbs_signed, Int64.toInt_minValue] at hsize
    have hnumber := ho.nonneg
    have hlt := Int64.toInt_lt number
    omega

end Readers

/-- No text gives a rule whose written form would not read back. -/
theorem read_fits (text : String) :
    ¬((NthRule.read text).step ≠ 0 ∧ (NthRule.read text).offset = Int64.minValue) := by
  rw [read_eq]
  cases h : read? (asciiLower (trim text.toList)) with
  | none => decide
  | some rule => exact (read?_eq_some_iff.mp h).fits

/-- A rule is read exactly from the texts that write it, and the rule with no positions from all
others. The sign of an offset never makes its number leave the sixty-four bit range. -/
theorem read_eq_iff_written (text : String) (rule : NthRule) :
    (NthRule.read text = rule ↔
      Written (asciiLower (trim text.toList)) rule ∨
        rule = ⟨0, 0⟩ ∧ ∀ other, ¬Written (asciiLower (trim text.toList)) other) ∧
    ∀ cs negative number, offsetParts cs = some (negative, number) →
      readOffset cs = some (if negative then -number else number) ∧
        (-number).toInt = -number.toInt := by
  refine ⟨?_, fun cs negative number h => ⟨?_, ?_⟩⟩
  · simp only [read_eq, ← read?_eq_some_iff]
    cases read? (asciiLower (trim text.toList)) with
    | none => simp [eq_comm]
    | some written => simp
  · rw [readOffset_eq, h]
    rfl
  · exact toInt_neg_of_nonneg (offsetParts_eq_some_iff.mp h).nonneg

theorem read_spacedRule :
    NthRule.read " -3N - 07\n" = ⟨-3, -7⟩ ∧
      offsetParts " - 07".toList = some (true, 7) ∧
      readOffset " - 07".toList = some (-7) ∧ (-7 : Int64).toInt = -(7 : Int64).toInt := by
  have hwritten : Written (asciiLower (trim " -3N - 07\n".toList)) ⟨-3, -7⟩ :=
    read?_eq_some_iff.mp (by decide)
  have hparts : offsetParts " - 07".toList = some (true, 7) := by decide
  have hread := read_eq_iff_written " -3N - 07\n" ⟨-3, -7⟩
  exact ⟨hread.1.mpr (.inl hwritten), hparts, hread.2 _ _ _ hparts⟩

end NthRule

end DocumentQuery
