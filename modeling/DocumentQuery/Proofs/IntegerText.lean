import DocumentQuery.Proofs.RuleReading

namespace DocumentQuery

theorem isDigit_of_mem_toDigits {n : Nat} {c : Char} (h : c ∈ Nat.toDigits 10 n) :
    c.isDigit = true :=
  Nat.isDigit_of_mem_toDigits (by decide) (by decide) h

theorem all_isDigit_toDigits (n : Nat) : (Nat.toDigits 10 n).all Char.isDigit = true :=
  List.all_eq_true.mpr fun _ h => isDigit_of_mem_toDigits h

theorem digitsValue_toDigits (n : Nat) : digitsValue (Nat.toDigits 10 n) = n :=
  Nat.ofDigitChars_ten_toDigits

theorem toDigits_ne_nil (n : Nat) : Nat.toDigits 10 n ≠ [] := by
  intro h
  have hn := digitsValue_toDigits n
  rw [h, digitsValue, Nat.ofDigitChars_nil] at hn
  subst hn
  simp at h

theorem numberText_integerText (z : Int) : NumberText (integerText z) z := by
  have hdigits : ∀ {sign negative}, SignText sign negative → ∀ n : Nat,
      z = signed negative n → NumberText (sign ++ Nat.toDigits 10 n) z := fun hs n hz =>
    .mk hs (toDigits_ne_nil n) (all_isDigit_toDigits n) (by rw [digitsValue_toDigits, hz])
  cases z with
  | ofNat n => exact hdigits .absent n rfl
  | negSucc n => exact hdigits .minus (n + 1) rfl

theorem readWord_integerText (w : Int64) : readWord (integerText w.toInt) = some w :=
  readWord_eq_some_iff.mpr (numberText_integerText w.toInt)

theorem integerText_of_nonneg {z : Int} (h : 0 ≤ z) : integerText z = Nat.toDigits 10 z.toNat := by
  cases z with
  | ofNat n => rfl
  | negSucc n => exact absurd h (by omega)

theorem integerText_of_neg {z : Int} (h : z < 0) :
    integerText z = '-' :: Nat.toDigits 10 (-z).toNat := by
  cases z with
  | ofNat n => exact absurd h (by simp)
  | negSucc n => rfl

/-- Digits and a minus sign. -/
theorem mem_integerText {z : Int} {c : Char} (h : c ∈ integerText z) : c.isDigit ∨ c = '-' := by
  cases z with
  | ofNat n => exact .inl (isDigit_of_mem_toDigits h)
  | negSucc n =>
    rcases List.mem_cons.mp h with rfl | h
    · exact .inr rfl
    · exact .inl (isDigit_of_mem_toDigits h)

theorem integerText_ne_nil (z : Int) : integerText z ≠ [] :=
  (numberText_integerText z).ne_nil

/-- The coefficient of a rule with its `n`. -/
def coefficientText (step : Int64) : List Char :=
  if step = 1 then [] else if step = -1 then ['-'] else integerText step.toInt

/-- The offset of a rule behind its `n`. -/
def offsetText (offset : Int64) : List Char :=
  if offset = 0 then []
  else if 0 < offset then '+' :: integerText offset.toInt
  else integerText offset.toInt

theorem chars_of_step_ne_zero {rule : NthRule} (h : rule.step ≠ 0) :
    rule.chars = coefficientText rule.step ++ 'n' :: offsetText rule.offset := by
  rw [NthRule.chars, if_neg h, coefficientText, offsetText]
  split
  · rfl
  · split
    · rfl
    · simp

theorem coefficientText_written (step : Int64) : CoefficientText (coefficientText step) step := by
  unfold coefficientText
  split
  next h => exact .of_sign .absent (by rw [h]; decide)
  next =>
    split
    next h => exact .of_sign .minus (by rw [h]; decide)
    next =>
      exact readCoefficient_eq_some_iff.mp (readCoefficient_of_readWord (readWord_integerText step))

theorem offsetText_of_sign {sign : List Char} {negative : Bool} (hs : SignText sign negative)
    {number : Int64} (h : 0 ≤ number.toInt) :
    OffsetText (sign ++ Nat.toDigits 10 number.toInt.toNat) negative number := by
  have value : number.toInt = digitsValue (Nat.toDigits 10 number.toInt.toNat) := by
    rw [digitsValue_toDigits, Int.toNat_of_nonneg h]
  have hwritten := OffsetText.mk List.all_nil hs List.all_nil (all_isDigit_toDigits _) value
  rwa [List.nil_append, List.nil_append] at hwritten

/-- All offsets but the least one have a number behind their sign. -/
theorem offsetText_written {offset : Int64} (h : offset ≠ Int64.minValue) :
    ∃ negative number, OffsetText (offsetText offset) negative number ∧
      offset.toInt = signed negative number.toInt := by
  unfold offsetText
  split
  next hz => exact ⟨false, 0, offsetParts_eq_some_iff.mp (by decide), by rw [hz]; rfl⟩
  next hz =>
    split
    next hp =>
      have hn : 0 ≤ offset.toInt := Int.le_of_lt (Int64.lt_iff_toInt_lt.mp hp)
      rw [integerText_of_nonneg hn]
      exact ⟨false, offset, offsetText_of_sign .plus hn, rfl⟩
    next hp =>
      have hne : offset.toInt ≠ (0 : Int64).toInt := fun he => hz (Int64.toInt_inj.mp he)
      have hlt : offset.toInt < 0 := by
        rw [Int64.lt_iff_toInt_lt] at hp
        exact Int.lt_iff_le_and_ne.mpr ⟨Int.not_lt.mp hp, hne⟩
      have hneg := toInt_neg_of_ne_minValue h
      have hnumber : 0 ≤ (-offset).toInt := by omega
      have hwritten := offsetText_of_sign .minus hnumber
      rw [hneg] at hwritten
      rw [integerText_of_neg hlt]
      exact ⟨true, -offset, hwritten, by rw [hneg]; exact (Int.neg_neg _).symm⟩

theorem mem_coefficientText {step : Int64} {c : Char} (h : c ∈ coefficientText step) :
    c.isDigit ∨ c = '-' := by
  unfold coefficientText at h
  split at h
  next => cases h
  next =>
    split at h
    next => exact .inr (List.mem_singleton.mp h)
    next => exact mem_integerText h

theorem mem_offsetText {offset : Int64} {c : Char} (h : c ∈ offsetText offset) :
    c.isDigit ∨ c = '-' ∨ c = '+' := by
  unfold offsetText at h
  split at h
  next => cases h
  next =>
    split at h
    next =>
      rcases List.mem_cons.mp h with rfl | h
      · exact .inr (.inr rfl)
      · exact (mem_integerText h).imp_right .inl
    next => exact (mem_integerText h).imp_right .inl

/-- What the characters of written numbers and rules have in common. -/
theorem isWhiteSpace_of_sign {c : Char} (h : c.isDigit ∨ c = '-' ∨ c = '+' ∨ c = 'n') :
    isWhiteSpace c = false := by
  rcases h with h | rfl | rfl | rfl
  · exact isWhiteSpace_of_isDigit h
  all_goals decide

theorem trim_integerText (z : Int) : trim (integerText z) = integerText z :=
  trim_of_forall fun _ h => isWhiteSpace_of_sign ((mem_integerText h).imp_right .inl)

theorem toLower_of_isDigit {c : Char} (h : c.isDigit = true) : c.toLower = c := by
  simp only [Char.isDigit, Bool.and_eq_true, decide_eq_true_eq, ge_iff_le,
    UInt32.le_iff_toNat_le] at h
  have hu : c.val.toNat ≤ 57 := h.2
  unfold Char.toLower
  rw [dif_neg]
  simp only [ge_iff_le, UInt32.le_iff_toNat_le]
  intro hc
  have hl : 65 ≤ c.val.toNat := hc.1
  omega

namespace NthRule

variable {rule : NthRule}

/-- A rule is written with digits, signs and the letter `n`. -/
theorem mem_chars {c : Char} (h : c ∈ rule.chars) : c.isDigit ∨ c = '-' ∨ c = '+' ∨ c = 'n' := by
  by_cases hs : rule.step = 0
  · rw [chars, if_pos hs] at h
    exact (mem_integerText h).imp_right .inl
  · rw [chars_of_step_ne_zero hs] at h
    rcases List.mem_append.mp h with h | h
    · exact (mem_coefficientText h).imp_right .inl
    · rcases List.mem_cons.mp h with rfl | h
      · exact .inr (.inr (.inr rfl))
      · exact (mem_offsetText h).imp_right (Or.imp_right .inl)

theorem chars_ne_nil (rule : NthRule) : rule.chars ≠ [] := by
  by_cases hs : rule.step = 0
  · rw [chars, if_pos hs]
    exact integerText_ne_nil _
  · simp [chars_of_step_ne_zero hs]

theorem trim_chars (rule : NthRule) : trim rule.chars = rule.chars :=
  trim_of_forall fun _ h => isWhiteSpace_of_sign (mem_chars h)

theorem asciiLower_chars (rule : NthRule) : asciiLower rule.chars = rule.chars := by
  have h : ∀ c ∈ rule.chars, c.toLower = c := by
    intro c hc
    rcases mem_chars hc with hd | rfl | rfl | rfl
    · exact toLower_of_isDigit hd
    all_goals decide
  exact (List.map_congr_left h).trans (List.map_id _)

theorem written_chars (h : ¬(rule.step ≠ 0 ∧ rule.offset = Int64.minValue)) :
    Written rule.chars rule := by
  obtain ⟨step, offset⟩ := rule
  by_cases hs : step = 0
  · subst hs
    exact .place (numberText_integerText offset.toInt)
  · obtain ⟨negative, number, ho, value⟩ := offsetText_written fun hm => h ⟨hs, hm⟩
    rw [chars_of_step_ne_zero hs]
    exact .stepped (coefficientText_written step) ho value

/-- A written rule reads back, unless it counts down from the least offset. -/
theorem read_text (h : ¬(rule.step ≠ 0 ∧ rule.offset = Int64.minValue)) :
    NthRule.read rule.text = rule := by
  rw [read_eq, text, String.toList_ofList, trim_chars, asciiLower_chars,
    read?_eq_some_iff.mpr (written_chars h), Option.getD_some]

/-- Writing and reading rules undo each other, up to the rules that no text gives. -/
theorem read_text_eq_self_iff :
    (∀ rule : NthRule, NthRule.read rule.text = rule ↔
      ¬(rule.step ≠ 0 ∧ rule.offset = Int64.minValue)) ∧
    (∀ text, ¬((NthRule.read text).step ≠ 0 ∧ (NthRule.read text).offset = Int64.minValue)) ∧
    ∀ text, NthRule.read (NthRule.read text).text = NthRule.read text := by
  refine ⟨fun rule => ⟨fun h => ?_, read_text⟩, read_fits, fun text => read_text (read_fits text)⟩
  have hfits := read_fits rule.text
  rwa [h] at hfits

end NthRule

end DocumentQuery
