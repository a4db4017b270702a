import DocumentQuery.BlankText

namespace DocumentQuery

/-- The pieces between the characters that satisfy `separates`, empty ones included. -/
def pieces (separates : Char → Bool) : List Char → List (List Char)
  | [] => [[]]
  | c :: cs =>
    if separates c then [] :: pieces separates cs
    else match pieces separates cs with
      | [] => [[c]]
      | first :: others => (c :: first) :: others

/-- The longest runs of characters that are no blanks. -/
def words (cs : List Char) : List (List Char) :=
  (pieces isBlank cs).filter fun word => !word.isEmpty

/-- The pieces between the hyphens of a text. -/
def hyphenParts (cs : List Char) : List (List Char) :=
  pieces (· == '-') cs

/-- The text before and after the first `separator`. -/
def splitFirst (separator : Char) : List Char → Option (List Char × List Char)
  | [] => none
  | c :: cs =>
    if c = separator then some ([], cs)
    else (splitFirst separator cs).map fun (before, after) => (c :: before, after)

/-- Whether `needle` stands somewhere in a text. -/
def occursIn (needle : List Char) : List Char → Bool
  | [] => needle.isEmpty
  | c :: cs => needle.isPrefixOf (c :: cs) || occursIn needle cs

/-- The text without one pair of equal quotes around it. -/
def unquoted : List Char → List Char
  | [] => []
  | q :: cs =>
    if (q == '"' || q == '\'') && cs.getLast? == some q then cs.dropLast else q :: cs

/-- A text with its ASCII letters in lower case. -/
def asciiLower (cs : List Char) : List Char :=
  cs.map Char.toLower

/-- Whether two strings differ at most in the case of ASCII letters. -/
def sameName (a b : String) : Bool :=
  asciiLower a.toList == asciiLower b.toList

theorem splitFirst_eq_some_iff {separator : Char} {cs before after : List Char} :
    splitFirst separator cs = some (before, after) ↔
      separator ∉ before ∧ cs = before ++ separator :: after := by
  induction cs generalizing before with
  | nil => simp [splitFirst]
  | cons c cs ih =>
    unfold splitFirst
    split
    next hc =>
      subst hc
      cases before with
      | nil => simp
      | cons b before =>
        refine iff_of_false nofun fun ⟨hn, he⟩ => hn ?_
        exact List.mem_cons.mpr (.inl (List.cons.inj he).1)
    next hc =>
      cases before with
      | nil => simp [hc]
      | cons b before =>
        rw [Option.map_eq_some_iff]
        constructor
        · rintro ⟨⟨front, rest⟩, hs, he⟩
          cases he
          obtain ⟨hn, rfl⟩ := ih.mp hs
          exact ⟨by simp [Ne.symm hc, hn], rfl⟩
        · rintro ⟨hn, he⟩
          obtain ⟨rfl, rfl⟩ := List.cons.inj he
          exact ⟨_, ih.mpr ⟨mt (List.mem_cons_of_mem c) hn, rfl⟩, rfl⟩

theorem splitFirst_eq_none_iff {separator : Char} {cs : List Char} :
    splitFirst separator cs = none ↔ separator ∉ cs := by
  induction cs with
  | nil => simp [splitFirst]
  | cons c cs ih =>
    unfold splitFirst
    split
    next hc => simp [hc]
    next hc => simp [ih, Ne.symm hc]

theorem occursIn_eq_true_iff {needle cs : List Char} :
    occursIn needle cs = true ↔ needle <:+: cs := by
  induction cs with
  | nil => rw [occursIn, List.isEmpty_iff, List.infix_nil]
  | cons c cs ih =>
    rw [occursIn, Bool.or_eq_true, ih, List.isPrefixOf_iff_prefix, List.infix_cons_iff]

end DocumentQuery
