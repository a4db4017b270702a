import DocumentQuery.EscapedNames

namespace DocumentQuery

/-- The character that the written form of a character reads back as. No code escape stands for
the null character. -/
def mended (c : Char) : Char :=
  if c = '\x00' then '\ufffd' else c

/-- Ways to write a character of a name that no following text can change. -/
inductive SpellsChar : Char → List Char → Prop where
  | plain {c : Char} (h : isNameChar c = true) : SpellsChar c [c]
  | code {c : Char} (h : c.toNat < 128) : SpellsChar c (codeEscape c)
  | escaped {c : Char} (h : isNameChar c = false) (hb : ¬c.toNat < 0x20) : SpellsChar c ['\\', c]

/-- The written forms of the characters of a name, one after another. -/
inductive Spells : List Char → List Char → Prop where
  | nil : Spells [] []
  | cons {c : Char} {cs z zs : List Char} (h : SpellsChar c z) (hs : Spells cs zs) :
      Spells (c :: cs) (z ++ zs)

theorem spellsChar_nameCharText (c : Char) : SpellsChar c (nameCharText c) := by
  unfold nameCharText
  split
  next h => exact .plain h
  next h =>
    split
    next hc => exact .code (by omega)
    next hc => exact .escaped (Bool.eq_false_iff.mpr h) (fun hb => hc (Or.inl hb))

theorem toNat_lt_of_isDigit {c : Char} (h : c.isDigit = true) : c.toNat < 128 := by
  simp only [Char.isDigit, Bool.and_eq_true, decide_eq_true_eq, ge_iff_le,
    UInt32.le_iff_toNat_le] at h
  have hc : c.val.toNat ≤ 57 := h.2
  have he : c.toNat = c.val.toNat := rfl
  omega

theorem spellsChar_leading (c : Char) :
    SpellsChar c (if c.isDigit then codeEscape c else nameCharText c) := by
  split
  next h => exact .code (toNat_lt_of_isDigit h)
  next => exact spellsChar_nameCharText c

theorem spells_nameText (name : List Char) : Spells name (nameText name) := by
  induction name with
  | nil => exact .nil
  | cons c cs ih => exact .cons (spellsChar_nameCharText c) ih

theorem spells_identifierText (name : List Char) : Spells name (identifierText name) := by
  unfold identifierText
  split
  next d cs =>
    exact .cons (z := ['-']) (.plain (by decide)) (.cons (spellsChar_leading d) (spells_nameText cs))
  next c cs _ => exact .cons (spellsChar_leading c) (spells_nameText cs)
  next => exact .nil

/-- The text of a name ends with the text of its last character. -/
theorem Spells.of_append_singleton {m text : List Char} {c : Char} (h : Spells (m ++ [c]) text) :
    ∃ s z, text = s ++ z ∧ Spells m s ∧ SpellsChar c z := by
  induction m generalizing text with
  | nil =>
    obtain _ | ⟨hz, hs⟩ := h
    cases hs
    exact ⟨[], _, by simp, .nil, hz⟩
  | cons d m ih =>
    obtain _ | ⟨hd, hs⟩ := h
    rename_i z zs
    obtain ⟨s, y, rfl, hm, hy⟩ := ih hs
    exact ⟨z ++ s, y, by simp, .cons hd hm, hy⟩

theorem hexDigits_of_ascii : ∀ n < 128, (Nat.toDigits 16 n).all isHexDigit = true ∧
    (Nat.toDigits 16 n).length ≤ 2 ∧ Nat.toDigits 16 n ≠ [] ∧
    charOfCode (hexValue (Nat.toDigits 16 n)) = mended (Char.ofNat n) := by
  decide +kernel

/-- The digits of a code escape end at the first character that is no digit. -/
theorem readEscape_digits {c : Char} (hc : c.toNat < 128) {ys : List Char}
    (hy : ∀ y ∈ ys.head?, isHexDigit y = false) :
    readEscape (Nat.toDigits 16 c.toNat ++ ys) = (mended c, dropBlank ys) := by
  obtain ⟨hall, hlen, hne, hval⟩ := hexDigits_of_ascii c.toNat hc
  rw [Char.ofNat_toNat] at hval
  generalize Nat.toDigits 16 c.toNat = digits at *
  obtain ⟨d, ds, rfl⟩ := List.exists_cons_of_ne_nil hne
  have hd : isHexDigit d = true := by
    simp only [List.all_cons, Bool.and_eq_true] at hall
    exact hall.1
  have htake : (((d :: ds) ++ ys).take 6).takeWhile isHexDigit = d :: ds := by
    rw [List.take_append, List.take_of_length_le (by omega),
      List.takeWhile_append_of_pos (by simpa using hall)]
    cases ys with
    | nil => simp
    | cons y ys =>
      obtain ⟨n, hn⟩ : ∃ n, 6 - (d :: ds).length = n + 1 := ⟨5 - (d :: ds).length, by omega⟩
      rw [hn, List.take_succ_cons, List.takeWhile_cons, hy y rfl]
      simp
  rw [List.cons_append] at htake ⊢
  rw [readEscape, if_pos hd]
  simp only [htake, hval]
  rw [← List.cons_append, List.drop_left]

theorem isNameChar_backslash : isNameChar '\\' = false := by
  decide

theorem toDigits_head_ne_newline {c : Char} (hc : c.toNat < 128) (ys : List Char) :
    (Nat.toDigits 16 c.toNat ++ ys).head? ≠ some '\n' := by
  obtain ⟨hall, -, hne, -⟩ := hexDigits_of_ascii c.toNat hc
  obtain ⟨d, ds, he⟩ := List.exists_cons_of_ne_nil hne
  rw [he] at hall ⊢
  simp only [List.all_cons, Bool.and_eq_true] at hall
  rintro h
  cases h
  exact absurd hall.1 (by decide)

theorem readName_escape {cs : List Char} (h : cs.head? ≠ some '\n') :
    readName ('\\' :: cs) =
      ((readEscape cs).1 :: (readName (readEscape cs).2).1, (readName (readEscape cs).2).2) := by
  rw [readName, if_neg (by simp [isNameChar_backslash]), if_pos (by simpa [startsEscape] using h)]

theorem isNameChar_of_isHexDigit {c : Char} (h : isHexDigit c = true) : isNameChar c = true := by
  have hletter (ha : c.isUpper = true ∨ c.isLower = true) : c.isAlpha = true :=
    (Bool.or_eq_true _ _).mpr ha
  have hname (ha : c.isAlpha = true ∨ c.isDigit = true) : isNameChar c = true := by
    have halnum : c.isAlphanum = true := (Bool.or_eq_true _ _).mpr ha
    simp [isNameChar, halnum]
  simp only [isHexDigit, Bool.or_eq_true, Bool.and_eq_true, decide_eq_true_eq] at h
  rcases h with (h | ⟨ha, hf⟩) | ⟨ha, hf⟩
  · exact hname (.inr h)
  · have hz : c.val ≤ 'z'.val := UInt32.le_trans hf (by decide)
    have hlower : c.isLower = true :=
      Bool.and_eq_true_iff.mpr ⟨decide_eq_true ha, decide_eq_true hz⟩
    exact hname (.inl (hletter (.inr hlower)))
  · have hz : c.val ≤ 'Z'.val := UInt32.le_trans hf (by decide)
    have hupper : c.isUpper = true := decide_eq_true ⟨ha, hz⟩
    exact hname (.inl (hletter (.inl hupper)))

theorem readEscape_of_not_hex {c : Char} (h : isHexDigit c = false) (cs : List Char) :
    readEscape (c :: cs) = (c, cs) := by
  rw [readEscape, if_neg (by simp [h])]

theorem readName_spelledChar {c : Char} {z : List Char} (h : SpellsChar c z) (ys : List Char) :
    readName (z ++ ys) = (mended c :: (readName ys).1, (readName ys).2) := by
  cases h with
  | plain h =>
    have hm : mended c = c := by
      unfold mended
      split
      next he => subst he; exact absurd h (by decide)
      next => rfl
    rw [List.singleton_append, readName, if_pos h, hm]
  | code h =>
    have hd : readEscape (Nat.toDigits 16 c.toNat ++ ' ' :: ys) = (mended c, ys) :=
      readEscape_digits h (by simp; decide)
    rw [codeEscape, List.append_assoc, List.singleton_append, List.cons_append,
      readName_escape (toDigits_head_ne_newline h _), hd]
  | escaped h hb =>
    have hx : isHexDigit c = false := by
      cases hx : isHexDigit c with
      | false => rfl
      | true => simp [isNameChar_of_isHexDigit hx] at h
    have hn : c ≠ '\n' := by
      rintro rfl
      exact hb (by decide)
    have hm : mended c = c := by
      unfold mended
      split
      next he => subst he; exact absurd (by decide) hb
      next => rfl
    rw [List.cons_append, List.singleton_append, readName_escape (by simpa using hn),
      readEscape_of_not_hex hx, hm]

/-- A written name reads back, and the reading goes on after it. -/
theorem readName_spelled {name text : List Char} (h : Spells name text) (ys : List Char) :
    readName (text ++ ys) = (name.map mended ++ (readName ys).1, (readName ys).2) := by
  induction h with
  | nil => rfl
  | cons hc _ ih =>
    rw [List.append_assoc, readName_spelledChar hc, ih]
    rfl

theorem readQuoted_char (c : Char) (cs : List Char) :
    readQuoted '"' ((if c = '"' ∨ c = '\\' then ['\\', c] else [c]) ++ cs) =
      (readQuoted '"' cs).map fun (value, rest) => (c :: value, rest) := by
  split
  next h =>
    have hx : isHexDigit c = false := by rcases h with rfl | rfl <;> decide
    have hn : c ≠ '\n' := by rcases h with rfl | rfl <;> decide
    rw [List.cons_append, List.singleton_append, readQuoted, if_neg (by decide), if_pos rfl,
      if_neg (by simpa using hn), readEscape_of_not_hex hx]
  next h =>
    obtain ⟨hq, hb⟩ := not_or.mp h
    rw [List.singleton_append, readQuoted, if_neg hq, if_neg hb]

theorem readQuoted_quotedBody (value rest : List Char) :
    readQuoted '"' (quotedBody value ++ rest) = some (value, rest) := by
  unfold quotedBody
  induction value with
  | nil => simp [readQuoted]
  | cons c cs ih =>
    rw [List.flatMap_cons, List.append_assoc, List.append_assoc, readQuoted_char,
      ← List.append_assoc, ih]
    rfl

end DocumentQuery
