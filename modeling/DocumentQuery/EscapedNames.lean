import DocumentQuery.BlankText

namespace DocumentQuery

/-- A character that may stand in a name as it is. -/
def isNameChar (c : Char) : Bool :=
  c.isAlphanum || c == '_' || c == '-' || 128 ≤ c.toNat

def isHexDigit (c : Char) : Bool :=
  c.isDigit || ('a' ≤ c && c ≤ 'f') || ('A' ≤ c && c ≤ 'F')

def hexDigitValue (c : Char) : Nat :=
  if c.isDigit then c.toNat - 48
  else if 'a' ≤ c then c.toNat - 87
  else c.toNat - 55

def hexValue (digits : List Char) : Nat :=
  digits.foldl (fun value c => 16 * value + hexDigitValue c) 0

/-- The character of a code point; zero, a surrogate and a number beyond the last code point
give the replacement character. -/
def charOfCode (n : Nat) : Char :=
  if n ≠ 0 ∧ n.isValidChar then Char.ofNat n else '\ufffd'

/-- The text without a first blank. -/
def dropBlank : List Char → List Char
  | [] => []
  | c :: cs => if isBlank c then cs else c :: cs

/-- Reads what follows a backslash: one to six hexadecimal digits and at most one blank, or any
single character. The end of the text counts as the replacement character. -/
def readEscape : List Char → Char × List Char
  | [] => ('\ufffd', [])
  | c :: cs =>
    if isHexDigit c then
      let digits := ((c :: cs).take 6).takeWhile isHexDigit
      (charOfCode (hexValue digits), dropBlank ((c :: cs).drop digits.length))
    else (c, cs)

theorem dropBlank_suffix (cs : List Char) : dropBlank cs <:+ cs := by
  cases cs with
  | nil => exact List.suffix_rfl
  | cons c cs =>
    rw [dropBlank]
    split
    · exact List.suffix_cons c cs
    · exact List.suffix_rfl

/-- What an escape leaves over is an end of the text. -/
theorem readEscape_suffix (cs : List Char) : (readEscape cs).2 <:+ cs := by
  cases cs with
  | nil => exact List.suffix_rfl
  | cons c cs =>
    rw [readEscape]
    split
    · exact (dropBlank_suffix _).trans (List.drop_suffix _ _)
    · exact List.suffix_cons c cs

/-- Whether a character and the text after it begin an escape. -/
def startsEscape (c : Char) (cs : List Char) : Bool :=
  c == '\\' && cs.head? != some '\n'

/-- Reads the longest run of name characters and escapes. -/
def readName : List Char → List Char × List Char
  | [] => ([], [])
  | c :: cs =>
    if isNameChar c then
      let (name, rest) := readName cs
      (c :: name, rest)
    else if startsEscape c cs then
      let (name, rest) := readName (readEscape cs).2
      ((readEscape cs).1 :: name, rest)
    else ([], c :: cs)
termination_by cs => cs.length
decreasing_by
  · exact Nat.lt_succ_self _
  · exact Nat.lt_succ_of_le (readEscape_suffix cs).length_le

/-- Reads an unquoted attribute value, up to a blank or a closing bracket. -/
def readValue : List Char → List Char × List Char
  | [] => ([], [])
  | c :: cs =>
    if isBlank c || c == ']' then ([], c :: cs)
    else if startsEscape c cs then
      let (value, rest) := readValue (readEscape cs).2
      ((readEscape cs).1 :: value, rest)
    else
      let (value, rest) := readValue cs
      (c :: value, rest)
termination_by cs => cs.length
decreasing_by
  · exact Nat.lt_succ_of_le (readEscape_suffix cs).length_le
  · exact Nat.lt_succ_self _

/-- Reads the rest of a string up to its closing quote; a backslash before a line feed joins
the two lines. -/
def readQuoted (quote : Char) : List Char → Option (List Char × List Char)
  | [] => none
  | c :: cs =>
    if c = quote then some ([], cs)
    else if c = '\\' then
      if cs.head? = some '\n' then readQuoted quote cs.tail
      else (readQuoted quote (readEscape cs).2).map fun (value, rest) =>
        ((readEscape cs).1 :: value, rest)
    else (readQuoted quote cs).map fun (value, rest) => (c :: value, rest)
termination_by cs => cs.length
decreasing_by
  · exact Nat.lt_succ_of_le (List.tail_sublist cs).length_le
  · exact Nat.lt_succ_of_le (readEscape_suffix cs).length_le
  · exact Nat.lt_succ_self _

theorem readName_suffix (cs : List Char) : (readName cs).2 <:+ cs := by
  fun_induction readName cs with
  | case1 => exact List.suffix_rfl
  | case2 c cs _ name rest h ih =>
    rw [h] at ih
    exact ih.trans (List.suffix_cons c cs)
  | case3 c cs _ _ name rest h ih =>
    rw [h] at ih
    exact (ih.trans (readEscape_suffix cs)).trans (List.suffix_cons c cs)
  | case4 => exact List.suffix_rfl

/-- A name that begins at a character takes at least that character. -/
theorem readName_cons_suffix {c : Char} {cs : List Char}
    (h : isNameChar c = true ∨ startsEscape c cs = true) : (readName (c :: cs)).2 <:+ cs := by
  rw [readName]
  split
  next => exact readName_suffix cs
  next hn =>
    rw [if_pos (h.resolve_left hn)]
    exact (readName_suffix _).trans (readEscape_suffix cs)

theorem readName_ne_nil {c : Char} {cs : List Char}
    (h : (isNameChar c || startsEscape c cs) = true) : (readName (c :: cs)).1 ≠ [] := by
  rw [readName]
  split
  next => simp
  next hn =>
    rw [Bool.or_eq_true] at h
    rw [if_pos (h.resolve_left hn)]
    simp

theorem readValue_suffix (cs : List Char) : (readValue cs).2 <:+ cs := by
  fun_induction readValue cs with
  | case1 => exact List.suffix_rfl
  | case2 => exact List.suffix_rfl
  | case3 c cs _ _ value rest h ih =>
    rw [h] at ih
    exact (ih.trans (readEscape_suffix cs)).trans (List.suffix_cons c cs)
  | case4 c cs _ _ value rest h ih =>
    rw [h] at ih
    exact ih.trans (List.suffix_cons c cs)

theorem readValue_cons_suffix {c : Char} {cs : List Char}
    (hb : isBlank c = false) (hc : c ≠ ']') : (readValue (c :: cs)).2 <:+ cs := by
  rw [readValue, if_neg (by simp [hb, hc])]
  split
  next => exact (readValue_suffix _).trans (readEscape_suffix cs)
  next => exact readValue_suffix cs

theorem readValue_ne_nil {c : Char} {cs : List Char} (hb : isBlank c = false) (hc : c ≠ ']') :
    (readValue (c :: cs)).1 ≠ [] := by
  rw [readValue, if_neg (by simp [hb, hc])]
  split <;> simp

theorem readQuoted_suffix {quote : Char} {cs value rest : List Char}
    (h : readQuoted quote cs = some (value, rest)) : rest <:+ cs := by
  fun_induction readQuoted quote cs generalizing value rest with
  | case1 => cases h
  | case2 => cases h; exact List.suffix_cons _ _
  | case3 cs _ _ ih => exact ((ih h).trans (List.tail_suffix cs)).trans (List.suffix_cons _ cs)
  | case4 cs _ _ ih =>
    obtain ⟨⟨v, r⟩, hr, he⟩ := Option.map_eq_some_iff.mp h
    cases he
    exact ((ih hr).trans (readEscape_suffix cs)).trans (List.suffix_cons _ cs)
  | case5 c cs _ _ ih =>
    obtain ⟨⟨v, r⟩, hr, he⟩ := Option.map_eq_some_iff.mp h
    cases he
    exact (ih hr).trans (List.suffix_cons c cs)

/-- A character written as its code in hexadecimal digits, ended by a space. -/
def codeEscape (c : Char) : List Char :=
  '\\' :: Nat.toDigits 16 c.toNat ++ [' ']

/-- A character inside a name: as it is, as its code if it is a control character, or after a
backslash. -/
def nameCharText (c : Char) : List Char :=
  if isNameChar c then [c]
  else if c.toNat < 0x20 ∨ c.toNat = 0x7f then codeEscape c
  else ['\\', c]

/-- The written form of a name in which digits may lead. -/
def nameText (name : List Char) : List Char :=
  name.flatMap nameCharText

/-- The written form of an identifier: a leading digit, also after a hyphen, stands as its
code. -/
def identifierText : List Char → List Char
  | '-' :: d :: cs => '-' :: (if d.isDigit then codeEscape d else nameCharText d) ++ nameText cs
  | c :: cs => (if c.isDigit then codeEscape c else nameCharText c) ++ nameText cs
  | [] => []

/-- The inside of a quoted string and its closing quote. -/
def quotedBody (value : List Char) : List Char :=
  value.flatMap (fun c => if c = '"' ∨ c = '\\' then ['\\', c] else [c]) ++ ['"']

def quotedText (value : List Char) : List Char :=
  '"' :: quotedBody value

end DocumentQuery
