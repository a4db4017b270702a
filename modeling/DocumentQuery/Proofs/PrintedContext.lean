import DocumentQuery.Proofs.PrintedNesting

namespace DocumentQuery

/-- A written name is read back, and nothing of the text after it, exactly if it does not hold
the null character and no name goes on in that text. -/
theorem Spells.readName_eq_iff {name text rest : List Char} (h : Spells name text) :
    readName (text ++ rest) = (name, rest) ↔ '\x00' ∉ name ∧ readName rest = ([], rest) := by
  rw [readName_spelled h, Prod.mk.injEq, Prod.ext_iff, ← map_mended_eq_self_iff]
  constructor
  · rintro ⟨hname, hrest⟩
    have hlength := congrArg List.length hname
    rw [List.length_append, List.length_map] at hlength
    have hnil : (readName rest).1 = [] := List.length_eq_zero_iff.mp (by omega)
    rw [hnil, List.append_nil] at hname
    exact ⟨hname, hnil, hrest⟩
  · rintro ⟨hname, hnil, hrest⟩
    exact ⟨by rw [hname, hnil, List.append_nil], hrest⟩

/-- Reading undoes the escapes of names and strings whatever follows, and no escape takes up
anything of the text after them. -/
theorem names_and_strings_read_back :
    (∀ name rest : List Char, '\x00' ∉ name → EndsName rest →
      readName (identifierText name ++ rest) = (name, rest) ∧
      readName (nameText name ++ rest) = (name, rest)) ∧
    ∀ value rest : List Char, readQuoted '"' (quotedBody value ++ rest) = some (value, rest) := by
  refine ⟨fun name rest hname hrest => ?_, readQuoted_quotedBody⟩
  have hread : '\x00' ∉ name ∧ readName rest = ([], rest) := ⟨hname, hrest.reads⟩
  exact ⟨(spells_identifierText name).readName_eq_iff.mpr hread,
    (spells_nameText name).readName_eq_iff.mpr hread⟩

/-- One blank belongs to the code of the last character, the next one follows the name. -/
theorem escaped_name_reads_back :
    ('\x00' ∉ ['-', '1', '\x7f'] ∧ EndsName [' ', '2']) ∧
    readName "-\\31 \\7f  2".toList = (['-', '1', '\x7f'], [' ', '2']) ∧
    readName "-1\\7f  2".toList = (['-', '1', '\x7f'], [' ', '2']) ∧
    readQuoted '"' "\\\"\\\\\nn\"\"".toList = some (['"', '\\', '\n', 'n'], ['"']) := by
  have hname : '\x00' ∉ ['-', '1', '\x7f'] := by decide
  have hrest : EndsName [' ', '2'] := by rintro c ⟨⟩; decide
  have hidentifier : identifierText ['-', '1', '\x7f'] ++ [' ', '2'] = "-\\31 \\7f  2".toList := by
    decide +kernel
  have htext : nameText ['-', '1', '\x7f'] ++ [' ', '2'] = "-1\\7f  2".toList := by
    decide +kernel
  have hbody : quotedBody ['"', '\\', '\n', 'n'] ++ ['"'] = "\\\"\\\\\nn\"\"".toList := by
    decide +kernel
  obtain ⟨names, strings⟩ := names_and_strings_read_back
  obtain ⟨hfirst, hsecond⟩ := names _ _ hname hrest
  have hstring := strings ['"', '\\', '\n', 'n'] ['"']
  rw [hidentifier] at hfirst
  rw [htext] at hsecond
  rw [hbody] at hstring
  exact ⟨⟨hname, hrest⟩, hfirst, hsecond, hstring⟩

/-- In parentheses a printed selector ends where they close, if each text argument in it does.
What is read there of any text is all up to the parenthesis that closes, and is read again as it
is. -/
theorem readArguments_printed :
    (∀ s : Selector, s.AllClosed → ∀ rest : List Char,
      readArguments {} (s.text.toList ++ ')' :: rest) = some (s.text.toList, rest)) ∧
    ∀ cs raw rest : List Char, readArguments {} cs = some (raw, rest) ↔
      cs = raw ++ ')' :: rest ∧ readArguments {} (raw ++ [')']) = some (raw, []) := by
  refine ⟨fun s hs rest => ?_, fun cs raw rest => readArguments_eq_some_iff⟩
  rw [s.toList_text]
  exact readArguments_of_opens hs.opens rest

/-- The selector `[a=")("]:contains(')')`, with parentheses in strings only. -/
def quotedSelector : Selector :=
  .ofCompound {
    attributes := [⟨none, "a", .exactly, some ")("⟩]
    pseudoClasses := [⟨.contains, .text "')'"⟩] }

/-- A selector of two groups, the first of which has no steps. -/
def emptyGroupSelector : Selector :=
  ⟨[⟨[]⟩, ⟨[⟨.child, { pseudoClasses := [⟨.not, .selector quotedSelector⟩] }⟩]⟩]⟩

theorem allClosed_emptyGroupSelector : emptyGroupSelector.AllClosed := by
  have hquoted : quotedSelector.AllClosed := by
    refine .mk (fun text ht => ?_) fun n hn => ?_
    · cases List.mem_singleton.mp ht
      unfold ClosedArgument
      decide
    · cases List.mem_singleton.mp hn
  refine .mk (fun text ht => ?_) fun n hn => ?_
  · cases List.mem_singleton.mp ht
  · cases List.mem_singleton.mp hn
    exact hquoted

theorem readArguments_emptyGroupSelector :
    emptyGroupSelector.AllClosed ∧
    emptyGroupSelector.text = ", > :not([a=\")(\"]:contains(')'))" ∧
    readArguments {} (emptyGroupSelector.text.toList ++ ')' :: " b)".toList) =
      some (emptyGroupSelector.text.toList, " b)".toList) :=
  ⟨allClosed_emptyGroupSelector, by decide +kernel,
    readArguments_printed.1 _ allClosed_emptyGroupSelector _⟩

end DocumentQuery
