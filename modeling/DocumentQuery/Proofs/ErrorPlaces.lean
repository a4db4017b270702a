import DocumentQuery.Proofs.NestingLimit
import DocumentQuery.Proofs.ReadingErrors
import DocumentQuery.Proofs.TokenPlaces
import DocumentQuery.Proofs.TrimmedText

namespace DocumentQuery

theorem infix_trim (cs : List Char) : trim cs <:+: cs := by
  obtain ⟨front, back, h, -, -⟩ := trim_parts cs
  exact ⟨front, back, h.symm⟩

theorem position_le_of_suffix {text : String} {ts rest : Cursor} (h : tokenize text = .ok ts)
    (hs : rest <:+ ts) : rest.position ≤ text.length := by
  cases rest with
  | nil => exact Nat.zero_le _
  | cons l rest =>
    have hm : l ∈ ts := hs.subset List.mem_cons_self
    have hle := (lexes_of_tokenize h).position_le l hm
    rw [String.length_toList] at hle
    exact hle

/-- A fault is one of the text that the error names, which is a part of the text read, and it is
found again with no more levels of nesting when that part is read alone. -/
theorem readNested_eq_malformed {limit levels position : Nat} {text part : String} {fault : Fault}
    (h : readNested limit levels text = .error (.malformed part position fault)) :
    part.toList <:+: text.toList ∧ position ≤ part.length ∧
      ∃ few ≤ levels, readNested limit few part = .error (.malformed part position fault) := by
  induction levels generalizing text with
  | zero => cases h
  | succ levels ih =>
    rcases readText_eq_error h with ⟨place, found, hle, he⟩ | ⟨ts, htokens, hreading⟩
    · cases he
      exact ⟨List.infix_rfl, hle, levels + 1, Nat.le_refl _, h⟩
    · cases hreading with
      | malformed hs =>
        have hle := position_le_of_suffix htokens hs
        exact ⟨List.infix_rfl, hle, levels + 1, Nat.le_refl _, h⟩
      | @nested rest raw _ hs ht he =>
        obtain ⟨hpart, hle, few, hfew, hagain⟩ := ih he
        have hmem : ∃ l ∈ ts, l.token = .arguments raw := by
          cases rest with
          | nil => cases ht
          | cons l rest => exact ⟨l, hs.subset List.mem_cons_self, ht⟩
        obtain ⟨l, hm, hl⟩ := hmem
        have hraw : raw.toList <:+: text.toList := infix_of_tokenize htokens hm hl
        rw [toList_trimmed] at hpart
        exact ⟨(hpart.trans (infix_trim _)).trans hraw, hle, few, by omega, hagain⟩

/-- A fault is found in the text or in a part of it, at a place in that part, and reading the part
alone under the same limit finds the same fault at the same place. -/
theorem parse_eq_malformed {limit position : Nat} {text part : String} {fault : Fault}
    (h : parse limit text = .error (.malformed part position fault)) :
    part.toList <:+: text.toList ∧ position ≤ part.length ∧
      parse limit part = .error (.malformed part position fault) := by
  have hlevels : readNested limit (limit + 1) text = .error (.malformed part position fault) := h
  obtain ⟨hpart, hle, few, hfew, hagain⟩ := readNested_eq_malformed hlevels
  refine ⟨hpart, hle, ?_⟩
  rcases @cutAt_readNested limit limit few (limit + 1) hfew part with hsame | hdeep
  · exact hsame.symm.trans hagain
  · rw [hagain] at hdeep
    cases hdeep

/-- The fault of a selector that is nested twice, with blanks around it. -/
theorem parse_innermostFault :
    parse 2 "a:not(b :has( c[ ))" = .error (.malformed "c[" 1 .openBrackets) ∧
    "c[".toList <:+: "a:not(b :has( c[ ))".toList ∧ 1 ≤ "c[".length ∧
    parse 2 "c[" = .error (.malformed "c[" 1 .openBrackets) := by
  have hfault : parse 2 "a:not(b :has( c[ ))" = .error (.malformed "c[" 1 .openBrackets) := by
    decide +kernel
  exact ⟨hfault, parse_eq_malformed hfault⟩

end DocumentQuery
