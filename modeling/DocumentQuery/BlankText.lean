namespace DocumentQuery

/-- The five blanks of the selector grammar: tab, line feed, form feed,
carriage return and space. -/
def isBlank (c : Char) : Bool :=
  c == '\t' || c == '\n' || c == '\x0c' || c == '\r' || c == ' '

/-- The twenty-five characters with the Unicode property White_Space. -/
def isWhiteSpace (c : Char) : Bool :=
  (0x9 ≤ c.toNat && c.toNat ≤ 0xd) || c.toNat == 0x20 || c.toNat == 0x85 || c.toNat == 0xa0
    || c.toNat == 0x1680 || (0x2000 ≤ c.toNat && c.toNat ≤ 0x200a) || c.toNat == 0x2028
    || c.toNat == 0x2029 || c.toNat == 0x202f || c.toNat == 0x205f || c.toNat == 0x3000

theorem isWhiteSpace_of_isBlank {c : Char} (h : isBlank c = true) : isWhiteSpace c = true := by
  simp only [isBlank, Bool.or_eq_true, beq_iff_eq] at h
  rcases h with (((rfl | rfl) | rfl) | rfl) | rfl <;> decide

/-- The text from its first character that is no blank. -/
def skipBlanks (cs : List Char) : List Char :=
  cs.dropWhile isBlank

theorem skipBlanks_suffix (cs : List Char) : skipBlanks cs <:+ cs :=
  List.dropWhile_suffix isBlank

theorem isBlank_of_skipBlanks_eq_cons {cs rest : List Char} {c : Char}
    (h : skipBlanks cs = c :: rest) : isBlank c = false := by
  change cs.dropWhile isBlank = c :: rest at h
  have hn : cs.dropWhile isBlank ≠ [] := by simp [h]
  have := List.head_dropWhile_not isBlank hn
  simpa only [h, List.head_cons] using this

def trimStart (cs : List Char) : List Char :=
  cs.dropWhile isWhiteSpace

/-- The text without the white space at its two ends. -/
def trim (cs : List Char) : List Char :=
  (trimStart (trimStart cs).reverse).reverse

/-- The text between the white space at the two ends of a string. -/
def trimmed (text : String) : String :=
  String.ofList (trim text.toList)

end DocumentQuery
