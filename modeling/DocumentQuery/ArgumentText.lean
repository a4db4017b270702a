namespace DocumentQuery

/-- Where the text inside a pair of parentheses stands: how many further parentheses are open,
the quote that is open, and whether the last character was a backslash that escapes the next. -/
structure Enclosure where
  depth : Nat := 0
  quote : Option Char := none
  escaped : Bool := false
deriving DecidableEq

/-- The place after one more character; none when the character closes the outermost
parenthesis. -/
def Enclosure.next (e : Enclosure) (c : Char) : Option Enclosure :=
  if e.escaped then some { e with escaped := false }
  else if c = '\\' then some { e with escaped := true }
  else match e.quote with
    | some q => some { e with quote := if c = q then none else some q }
    | none =>
      if c = '"' ∨ c = '\'' then some { e with quote := some c }
      else if c = '(' then some { e with depth := e.depth + 1 }
      else if c = ')' then
        match e.depth with
        | 0 => none
        | depth + 1 => some { e with depth }
      else some e

/-- The text up to the parenthesis that closes the outermost one, and the text after it. -/
def readArguments (e : Enclosure) : List Char → Option (List Char × List Char)
  | [] => none
  | c :: cs =>
    match e.next c with
    | none => some ([], cs)
    | some inside => (readArguments inside cs).map fun (raw, rest) => (c :: raw, rest)

theorem Enclosure.eq_of_next_eq_none {e : Enclosure} {c : Char} (h : e.next c = none) :
    c = ')' ∧ e = {} := by
  obtain ⟨depth, quote, escaped⟩ := e
  cases escaped with
  | true => simp [next] at h
  | false =>
    by_cases hb : c = '\\'
    · simp [next, hb] at h
    cases quote with
    | some q => simp [next, hb] at h
    | none =>
      by_cases hq : c = '"' ∨ c = '\''
      · simp [next, hb, hq] at h
      by_cases ho : c = '('
      · simp [next, ho] at h
      by_cases hc : c = ')'
      · cases depth with
        | zero => exact ⟨hc, rfl⟩
        | succ depth => simp [next, hc] at h
      · simp [next, hb, hq, ho, hc] at h

theorem readArguments_eq_some {e : Enclosure} {cs raw rest : List Char}
    (h : readArguments e cs = some (raw, rest)) : cs = raw ++ ')' :: rest := by
  induction cs generalizing e raw with
  | nil => cases h
  | cons c cs ih =>
    rw [readArguments] at h
    split at h
    next hn =>
      cases h
      rw [(Enclosure.eq_of_next_eq_none hn).1, List.nil_append]
    next inside _ =>
      obtain ⟨⟨r, s⟩, hr, he⟩ := Option.map_eq_some_iff.mp h
      cases he
      rw [ih hr, List.cons_append]

theorem readArguments_suffix {e : Enclosure} {cs raw rest : List Char}
    (h : readArguments e cs = some (raw, rest)) : rest <:+ cs :=
  ⟨raw ++ [')'], by simp [readArguments_eq_some h]⟩

end DocumentQuery
