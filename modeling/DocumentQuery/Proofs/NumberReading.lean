import DocumentQuery.NthRule
import DocumentQuery.Proofs.TrimmedText

namespace DocumentQuery

/-- A sign or nothing, and whether it is a minus sign. -/
inductive SignText : List Char → Bool → Prop where
  | absent : SignText [] false
  | plus : SignText ['+'] false
  | minus : SignText ['-'] true

/-- The number that a text of digits denotes. -/
def digitsValue (digits : List Char) : Nat :=
  Nat.ofDigitChars 10 digits 0

def signed (negative : Bool) (n : Int) : Int :=
  if negative then -n else n

/-- A number with at least one digit. -/
inductive NumberText : List Char → Int → Prop where
  | mk {sign digits : List Char} {negative : Bool} {n : Int} (hs : SignText sign negative)
      (hn : digits ≠ []) (hd : digits.all Char.isDigit = true)
      (value : n = signed negative (digitsValue digits)) : NumberText (sign ++ digits) n

/-- The coefficient before an `n`. A missing number is one. -/
inductive CoefficientText : List Char → Int64 → Prop where
  | mk {sign digits : List Char} {negative : Bool} {step : Int64} (hs : SignText sign negative)
      (hd : digits.all Char.isDigit = true)
      (value : step.toInt = signed negative (if digits = [] then 1 else digitsValue digits)) :
      CoefficientText (sign ++ digits) step

/-- The offset behind an `n`, with the number that stands behind its sign. White space may stand
around the sign, and a missing number is zero. -/
inductive OffsetText : List Char → Bool → Int64 → Prop where
  | mk {gap sign inner digits : List Char} {negative : Bool} {number : Int64}
      (hg : gap.all isWhiteSpace = true) (hs : SignText sign negative)
      (hi : inner.all isWhiteSpace = true) (hd : digits.all Char.isDigit = true)
      (value : number.toInt = digitsValue digits) :
      OffsetText (gap ++ (sign ++ (inner ++ digits))) negative number

section Digits

variable {c : Char} {digits : List Char}

theorem isWhiteSpace_of_isDigit (h : c.isDigit = true) : isWhiteSpace c = false := by
  simp only [Char.isDigit, Bool.and_eq_true, decide_eq_true_eq, ge_iff_le,
    UInt32.le_iff_toNat_le] at h
  have hl : 48 ≤ c.val.toNat := h.1
  have hu : c.val.toNat ≤ 57 := h.2
  have he : c.toNat = c.val.toNat := rfl
  simp only [isWhiteSpace, Bool.or_eq_false_iff, Bool.and_eq_false_iff, decide_eq_false_iff_not,
    beq_eq_false_iff_ne]
  omega

theorem ne_sign_of_isDigit (h : c.isDigit = true) : c ≠ '-' ∧ c ≠ '+' := by
  constructor
  all_goals
    rintro rfl
    exact absurd h (by decide)

theorem trimStart_digits (h : digits.all Char.isDigit = true) : trimStart digits = digits := by
  cases digits with
  | nil => rfl
  | cons d ds =>
    have hd := List.all_eq_true.mp h d List.mem_cons_self
    rw [trimStart, List.dropWhile_cons, isWhiteSpace_of_isDigit hd]
    rfl

end Digits

section TrimStart

variable {gap cs : List Char}

theorem trimStart_trimStart (cs : List Char) : trimStart (trimStart cs) = trimStart cs :=
  List.dropWhile_idempotent _ cs

theorem trimStart_append (h : gap.all isWhiteSpace = true) (cs : List Char) :
    trimStart (gap ++ cs) = trimStart cs :=
  List.dropWhile_append_of_pos (List.all_eq_true.mp h)

theorem exists_trimStart (cs : List Char) :
    ∃ gap, gap.all isWhiteSpace = true ∧ cs = gap ++ trimStart cs :=
  ⟨cs.takeWhile isWhiteSpace, List.all_takeWhile, List.takeWhile_append_dropWhile.symm⟩

end TrimStart

section Sign

variable {cs sign digits : List Char} {negative : Bool}

/-- A text without the sign in front of it, and whether that is a minus sign. -/
def splitSign : List Char → Bool × List Char
  | '-' :: cs => (true, cs)
  | '+' :: cs => (false, cs)
  | cs => (false, cs)

theorem natAbs_signed (negative : Bool) (n : Int) : (signed negative n).natAbs = n.natAbs := by
  cases negative with
  | false => rfl
  | true => exact Int.natAbs_neg n

theorem exists_splitSign (cs : List Char) :
    ∃ sign, SignText sign (splitSign cs).1 ∧ cs = sign ++ (splitSign cs).2 := by
  unfold splitSign
  split
  next => exact ⟨_, .minus, rfl⟩
  next => exact ⟨_, .plus, rfl⟩
  next => exact ⟨_, .absent, rfl⟩

theorem splitSign_of_ne (hminus : ∀ ds, cs ≠ '-' :: ds) (hplus : ∀ ds, cs ≠ '+' :: ds) :
    splitSign cs = (false, cs) := by
  unfold splitSign
  split
  next ds => exact absurd rfl (hminus ds)
  next ds => exact absurd rfl (hplus ds)
  next => rfl

theorem splitSign_digits (hs : SignText sign negative) (hd : digits.all Char.isDigit = true) :
    splitSign (sign ++ digits) = (negative, digits) := by
  have hhead : ∀ {d ds}, digits = d :: ds → d ≠ '-' ∧ d ≠ '+' := by
    rintro d ds rfl
    exact ne_sign_of_isDigit (List.all_eq_true.mp hd d List.mem_cons_self)
  cases hs with
  | plus => rfl
  | minus => rfl
  | absent =>
    exact splitSign_of_ne (fun _ h => (hhead h).1 rfl) (fun _ h => (hhead h).2 rfl)

theorem mem_sign_digits (hs : SignText sign negative) (hd : digits.all Char.isDigit = true)
    {c : Char} (hc : c ∈ sign ++ digits) : c.isDigit ∨ c = '-' ∨ c = '+' := by
  rcases List.mem_append.mp hc with hc | hc
  · cases hs with
    | absent => cases hc
    | plus => exact .inr (.inr (List.mem_singleton.mp hc))
    | minus => exact .inr (.inl (List.mem_singleton.mp hc))
  · exact .inl (List.all_eq_true.mp hd c hc)

end Sign

section Numbers

variable {cs : List Char} {n : Int} {w : Int64}

theorem NumberText.mem (h : NumberText cs n) {c : Char} (hc : c ∈ cs) :
    c.isDigit ∨ c = '-' ∨ c = '+' := by
  obtain ⟨hs, -, hd, -⟩ := h
  exact mem_sign_digits hs hd hc

theorem NumberText.ne_nil (h : NumberText cs n) : cs ≠ [] := by
  obtain ⟨-, hn, -, -⟩ := h
  exact List.append_ne_nil_of_right_ne_nil _ hn

theorem readInteger_eq (cs : List Char) : readInteger cs =
    if (splitSign cs).2.isEmpty || !(splitSign cs).2.all Char.isDigit then none
    else some (signed (splitSign cs).1 (digitsValue (splitSign cs).2)) :=
  rfl

theorem readInteger_eq_some_iff : readInteger cs = some n ↔ NumberText cs n := by
  rw [readInteger_eq]
  constructor
  · intro h
    obtain ⟨sign, hs, hcs⟩ := exists_splitSign cs
    split at h
    next => cases h
    next hd =>
      rw [Bool.not_eq_true, Bool.or_eq_false_iff, Bool.not_eq_false',
        List.isEmpty_eq_false_iff] at hd
      have hwritten := NumberText.mk hs hd.1 hd.2 (Option.some.inj h).symm
      rwa [← hcs] at hwritten
  · rintro ⟨hs, hn, hd, rfl⟩
    rw [splitSign_digits hs hd, if_neg]
    simp [hn, hd]

theorem word?_eq_some_iff : word? n = some w ↔ w.toInt = n := by
  refine ⟨toInt_word?, ?_⟩
  rintro rfl
  exact word?_toInt w

theorem readWord_eq_some_iff : readWord cs = some w ↔ NumberText cs w.toInt := by
  simp only [readWord, Option.bind_eq_some_iff, word?_eq_some_iff, exists_eq_right',
    readInteger_eq_some_iff]

end Numbers

section Coefficients

variable {cs : List Char} {step : Int64}

theorem CoefficientText.mem (h : CoefficientText cs step) {c : Char} (hc : c ∈ cs) :
    c.isDigit ∨ c = '-' ∨ c = '+' := by
  obtain ⟨hs, hd, -⟩ := h
  exact mem_sign_digits hs hd hc

theorem CoefficientText.of_sign {sign : List Char} {negative : Bool} (hs : SignText sign negative)
    (value : step.toInt = signed negative 1) : CoefficientText sign step := by
  have h := CoefficientText.mk hs List.all_nil value
  rwa [List.append_nil] at h

theorem readCoefficient_of_readWord (h : readWord cs = some step) :
    readCoefficient cs = some step := by
  have hne : ∀ ds, readWord ds = none → cs ≠ ds := by
    rintro ds hnone rfl
    cases hnone.symm.trans h
  have hnil := hne [] (by decide)
  have hplus := hne ['+'] (by decide)
  have hminus := hne ['-'] (by decide)
  rw [readCoefficient, if_neg (not_or.mpr ⟨hnil, hplus⟩), if_neg hminus, h]

theorem readCoefficient_eq_some_iff : readCoefficient cs = some step ↔ CoefficientText cs step := by
  constructor
  · intro h
    unfold readCoefficient at h
    split at h
    next hone =>
      cases h
      rcases hone with rfl | rfl
      · exact .of_sign .absent (by decide)
      · exact .of_sign .plus (by decide)
    next =>
      split at h
      next hminus =>
        cases h
        exact hminus ▸ .of_sign .minus (by decide)
      next =>
        cases readWord_eq_some_iff.mp h with
        | mk hs hn hd value => exact .mk hs hd (by rw [value, if_neg hn])
  · rintro @⟨sign, digits, negative, _, hs, hd, value⟩
    by_cases hn : digits = []
    · subst hn
      rw [if_pos rfl] at value
      cases hs with
      | absent | plus =>
        have hone : step = 1 := Int64.toInt_inj.mp value
        simp [readCoefficient, hone]
      | minus =>
        have hone : step = -1 := Int64.toInt_inj.mp value
        simp [readCoefficient, hone]
    · rw [if_neg hn] at value
      exact readCoefficient_of_readWord (readWord_eq_some_iff.mpr (.mk hs hn hd value))

end Coefficients

section Offsets

variable {cs : List Char} {negative : Bool} {number offset : Int64}

/-- The number that stands behind the sign of an offset, and whether that is a minus sign. -/
def offsetParts (cs : List Char) : Option (Bool × Int64) :=
  let (negative, rest) := splitSign (trimStart cs)
  let digits := trimStart rest
  if digits.all Char.isDigit then (word? (digitsValue digits)).map (negative, ·) else none

theorem readOffset_eq (cs : List Char) : readOffset cs =
    (offsetParts cs).map fun (negative, number) => if negative then -number else number := by
  have hidem := trimStart_trimStart cs
  unfold readOffset offsetParts
  generalize trimStart cs = text at hidem ⊢
  have hparts : ∀ negative digits, (if digits.all Char.isDigit then
      (word? (digitsValue digits)).map fun n => if negative = true then -n else n else none) =
      (if digits.all Char.isDigit then (word? (digitsValue digits)).map (negative, ·) else none).map
        fun (negative, number) => if negative then -number else number := by
    intro negative digits
    split
    next => rw [Option.map_map]; rfl
    next => rfl
  dsimp only
  split
  next digits => exact hparts true (trimStart digits)
  next digits => exact hparts false (trimStart digits)
  -- without a sign, the number is trimmed a second time by `offsetParts` only
  next hminus hplus =>
    rw [splitSign_of_ne hminus hplus, hidem]
    exact hparts false text

theorem offsetParts_eq_some_iff :
    offsetParts cs = some (negative, number) ↔ OffsetText cs negative number := by
  constructor
  · intro h
    obtain ⟨gap, hg, hcs⟩ := exists_trimStart cs
    obtain ⟨sign, hs, htext⟩ := exists_splitSign (trimStart cs)
    obtain ⟨inner, hi, hrest⟩ := exists_trimStart (splitSign (trimStart cs)).2
    have hall : cs = gap ++ (sign ++ (inner ++ trimStart (splitSign (trimStart cs)).2)) :=
      hcs.trans (congrArg (gap ++ ·) (htext.trans (congrArg (sign ++ ·) hrest)))
    unfold offsetParts at h
    dsimp only at h
    split at h
    next hd =>
      obtain ⟨n, hn, he⟩ := Option.map_eq_some_iff.mp h
      cases he
      have hwritten := OffsetText.mk hg hs hi hd (word?_eq_some_iff.mp hn)
      rwa [← hall] at hwritten
    next => cases h
  · rintro @⟨gap, sign, inner, digits, _, _, hg, hs, hi, hd, value⟩
    have hinner : trimStart (inner ++ digits) = digits := by
      rw [trimStart_append hi, trimStart_digits hd]
    have hsplit : trimStart (splitSign (trimStart (sign ++ (inner ++ digits)))).2 = digits ∧
        (splitSign (trimStart (sign ++ (inner ++ digits)))).1 = negative := by
      cases hs with
      | absent =>
        have hsign := splitSign_digits .absent hd
        rw [List.nil_append] at hsign
        rw [List.nil_append, hinner, hsign]
        exact ⟨trimStart_digits hd, rfl⟩
      | plus | minus => exact ⟨hinner, rfl⟩
    unfold offsetParts
    dsimp only
    rw [trimStart_append hg, hsplit.1, hsplit.2, if_pos hd, word?_eq_some_iff.mpr value]
    rfl

theorem OffsetText.nonneg (h : OffsetText cs negative number) : 0 ≤ number.toInt := by
  obtain ⟨-, -, -, -, value⟩ := h
  omega

theorem toInt_neg_of_ne_minValue {w : Int64} (h : w ≠ Int64.minValue) :
    (-w).toInt = -w.toInt := by
  have hmin : Int64.minValue.toInt = -9223372036854775808 := by decide
  have hne : w.toInt ≠ Int64.minValue.toInt := fun he => h (Int64.toInt_inj.mp he)
  have hl := Int64.minValue_le_toInt w
  have hu := Int64.toInt_lt w
  rw [Int64.toInt_neg, Int.bmod_eq_of_le]
  all_goals omega

theorem toInt_neg_of_nonneg {w : Int64} (h : 0 ≤ w.toInt) : (-w).toInt = -w.toInt := by
  refine toInt_neg_of_ne_minValue ?_
  rintro rfl
  exact absurd h (by decide)

theorem readOffset_eq_some_iff : readOffset cs = some offset ↔
    ∃ negative number, OffsetText cs negative number ∧
      offset.toInt = signed negative number.toInt := by
  have hsigned : ∀ {negative number}, OffsetText cs negative number →
      ((if negative then -number else number) = offset ↔
        offset.toInt = signed negative number.toInt) := by
    intro negative number h
    rw [← Int64.toInt_inj, eq_comm]
    cases negative with
    | false => rfl
    | true => rw [if_pos rfl, toInt_neg_of_nonneg h.nonneg]; rfl
  rw [readOffset_eq, Option.map_eq_some_iff]
  constructor
  · rintro ⟨⟨negative, number⟩, hparts, he⟩
    have hwritten := offsetParts_eq_some_iff.mp hparts
    exact ⟨negative, number, hwritten, (hsigned hwritten).mp he⟩
  · rintro ⟨negative, number, hwritten, hv⟩
    exact ⟨(negative, number), offsetParts_eq_some_iff.mpr hwritten, (hsigned hwritten).mpr hv⟩

end Offsets

end DocumentQuery
