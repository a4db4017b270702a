import DocumentQuery.Proofs.PrintedReading

namespace DocumentQuery

/-- The text does not end in a backslash, which would take what follows. -/
def EndsPlain (cs : List Char) : Prop :=
  cs.getLast? ≠ some '\\'

theorem EndsPlain.suffix {cs ds : List Char} (h : EndsPlain cs) (hs : ds <:+ cs) :
    EndsPlain ds := by
  obtain ⟨front, rfl⟩ := hs
  intro he
  exact h (by rw [List.getLast?_append, he, Option.some_or])

theorem EndsPlain.of_cons {c : Char} {cs : List Char} (h : EndsPlain (c :: cs)) : EndsPlain cs :=
  h.suffix (List.suffix_cons c cs)

theorem startsEscape_append (c : Char) {cs : List Char} (h : cs ≠ []) (m : List Char) :
    startsEscape c (cs ++ m) = startsEscape c cs := by
  rw [startsEscape, List.head?_append_of_ne_nil _ h, startsEscape]

/-- Whether an escape begins is settled inside the text. -/
theorem EndsPlain.startsEscape_append {c : Char} {cs : List Char} (h : EndsPlain (c :: cs))
    (m : List Char) : startsEscape c (cs ++ m) = startsEscape c cs := by
  cases cs with
  | nil =>
    have hc : c ≠ '\\' := fun he => h (by rw [he, List.getLast?_singleton])
    rw [startsEscape, startsEscape, beq_eq_false_iff_ne.mpr hc, Bool.false_and, Bool.false_and]
  | cons d ds => rfl

theorem takeWhile_take_append {p : Char → Bool} {n : Nat} {cs m : List Char}
    (h : ((cs.take n).takeWhile p).length < cs.length ∨ ∀ c ∈ m.head?, p c = false) :
    ((cs ++ m).take n).takeWhile p = (cs.take n).takeWhile p := by
  induction cs generalizing n with
  | nil =>
    cases n with
    | zero => rfl
    | succ n =>
      cases m with
      | nil => rfl
      | cons c m =>
        have hc := h.resolve_left (by simp) c rfl
        simp [hc]
  | cons c cs ih =>
    cases n with
    | zero => rfl
    | succ n =>
      rw [List.cons_append, List.take_succ_cons, List.take_succ_cons, List.takeWhile_cons,
        List.takeWhile_cons]
      cases hc : p c with
      | false => rfl
      | true =>
        rw [List.take_succ_cons, List.takeWhile_cons, hc] at h
        have := ih (h.imp_left fun hl => by simpa using hl)
        simp [this]

theorem dropBlank_append {cs : List Char} (h : cs ≠ []) (m : List Char) :
    dropBlank (cs ++ m) = dropBlank cs ++ m := by
  obtain ⟨c, cs, rfl⟩ := List.exists_cons_of_ne_nil h
  rw [List.cons_append, dropBlank, dropBlank]
  split <;> rfl

/-- An escape by code takes the same digits when no digit goes on at the end of the text. -/
theorem readEscape_code_append {c : Char} {cs m : List Char} (hc : isHexDigit c = true)
    (h : (((c :: cs).take 6).takeWhile isHexDigit).length < (c :: cs).length ∨
      ∀ y ∈ m.head?, isHexDigit y = false) :
    readEscape (c :: cs ++ m) = ((readEscape (c :: cs)).1,
      dropBlank ((c :: cs).drop (((c :: cs).take 6).takeWhile isHexDigit).length ++ m)) := by
  have hlen : (((c :: cs).take 6).takeWhile isHexDigit).length ≤ (c :: cs).length :=
    ((List.takeWhile_sublist _).trans (List.take_sublist _ _)).length_le
  have hdigits := takeWhile_take_append h
  rw [← List.drop_append_of_le_length hlen]
  rw [List.cons_append] at hdigits ⊢
  rw [readEscape, readEscape, if_pos hc, if_pos hc]
  simp only [hdigits]

/-- An escape that stops inside the text stops there whatever follows. -/
theorem readEscape_append {cs : List Char} (h : (readEscape cs).2 ≠ []) (m : List Char) :
    readEscape (cs ++ m) = ((readEscape cs).1, (readEscape cs).2 ++ m) := by
  cases cs with
  | nil => exact absurd rfl h
  | cons c cs =>
    cases hc : isHexDigit c with
    | false => simp [readEscape_of_not_hex hc]
    | true =>
      rw [readEscape, if_pos hc] at h
      have hdrop : (c :: cs).drop (((c :: cs).take 6).takeWhile isHexDigit).length ≠ [] :=
        fun he => h (by simp only [he, dropBlank])
      have hlt := List.drop_eq_nil_iff.not.mp hdrop
      rw [readEscape_code_append hc (.inl (Nat.lt_of_not_le hlt)), dropBlank_append hdrop, readEscape,
        if_pos hc]

theorem readValue_append {cs : List Char} (h : (readValue cs).2 ≠ []) (m : List Char) :
    readValue (cs ++ m) = ((readValue cs).1, (readValue cs).2 ++ m) := by
  fun_induction readValue cs with
  | case1 => exact absurd rfl h
  | case2 c cs hc => rw [List.cons_append, readValue, if_pos hc]
  | case3 c cs hc he value rest hr ih =>
    have hne : (readEscape cs).2 ≠ [] := by
      intro hnil
      rw [hnil, readValue] at hr
      cases hr
      exact h rfl
    have hcs : cs ≠ [] := fun hnil => hne (by rw [hnil, readEscape])
    rw [hr] at ih
    rw [List.cons_append, readValue, if_neg hc, startsEscape_append c hcs, if_pos he,
      readEscape_append hne, ih h]
  | case4 c cs hc he value rest hr ih =>
    have hcs : cs ≠ [] := by
      rintro rfl
      rw [readValue] at hr
      cases hr
      exact h rfl
    rw [hr] at ih
    rw [List.cons_append, readValue, if_neg hc, startsEscape_append c hcs, if_neg he, ih h]

theorem readQuoted_append {quote : Char} {cs value rest : List Char}
    (h : readQuoted quote cs = some (value, rest)) (m : List Char) :
    readQuoted quote (cs ++ m) = some (value, rest ++ m) := by
  fun_induction readQuoted quote cs generalizing value rest with
  | case1 => cases h
  | case2 =>
    cases h
    rw [List.cons_append, readQuoted, if_pos rfl]
  | case3 cs hn hq ih =>
    have hcs : cs ≠ [] := fun hnil => by simp [hnil] at hn
    rw [List.cons_append, readQuoted, if_neg hq, if_pos rfl, List.head?_append_of_ne_nil _ hcs,
      if_pos hn, List.tail_append_of_ne_nil hcs, ih h]
  | case4 cs hn hq ih =>
    obtain ⟨⟨v, r⟩, hr, he⟩ := Option.map_eq_some_iff.mp h
    cases he
    have hne : (readEscape cs).2 ≠ [] := by
      intro hnil
      rw [hnil, readQuoted] at hr
      cases hr
    have hcs : cs ≠ [] := fun hnil => hne (by rw [hnil, readEscape])
    rw [List.cons_append, readQuoted, if_neg hq, if_pos rfl, List.head?_append_of_ne_nil _ hcs,
      if_neg hn, readEscape_append hne, ih hr]
    rfl
  | case5 c cs hq hb ih =>
    obtain ⟨⟨v, r⟩, hr, he⟩ := Option.map_eq_some_iff.mp h
    cases he
    rw [List.cons_append, readQuoted, if_neg hq, if_neg hb, ih hr]
    rfl

theorem readArguments_append_rest {e : Enclosure} {cs raw rest : List Char}
    (h : readArguments e cs = some (raw, rest)) (m : List Char) :
    readArguments e (cs ++ m) = some (raw, rest ++ m) := by
  rw [readArguments_eq_some h, List.append_assoc, readArguments_append (after_of_readArguments h)]
  simp [readArguments, Enclosure.next]

theorem skipBlanks_dropBlank (cs : List Char) : skipBlanks (dropBlank cs) = skipBlanks cs := by
  cases cs with
  | nil => rfl
  | cons c cs =>
    rw [dropBlank]
    split
    next hc => rw [skipBlanks, skipBlanks, List.dropWhile_cons_of_pos hc]
    next => rfl

/-- A text that begins with a sign between compounds, with blanks in front or none. -/
structure SignLeads (d : Char) (ds m : List Char) : Prop where
  skipped : skipBlanks m = d :: ds
  sign : Scan.goesOn (d :: ds) = false

theorem Scan.goesOn_cons_eq_false {d : Char} {ds : List Char} :
    goesOn (d :: ds) = false ↔ d = '>' ∨ d = '+' ∨ d = '~' ∨ d = ',' := by
  simp [goesOn, or_iff_not_imp_left]

section

variable {d : Char} {ds m : List Char} (hm : SignLeads d ds m)

include hm

theorem skipBlanks_joined (cs : List Char) :
    ∃ m', SignLeads d ds m' ∧ skipBlanks (cs ++ m) = skipBlanks cs ++ m' ∧
      (skipBlanks cs = [] → m' = d :: ds) := by
  unfold skipBlanks
  rw [List.dropWhile_append]
  cases hs : cs.dropWhile isBlank with
  | nil =>
    have hskip : skipBlanks (d :: ds) = d :: ds := by
      rw [← hm.skipped]
      exact List.dropWhile_idempotent isBlank m
    exact ⟨d :: ds, ⟨hskip, hm.sign⟩, hm.skipped, fun _ => rfl⟩
  | cons c rest => exact ⟨m, hm, rfl, by simp⟩

theorem SignLeads.head {c : Char} (hc : c ∈ m.head?) :
    isBlank c = true ∨ c = '>' ∨ c = '+' ∨ c = '~' ∨ c = ',' := by
  obtain ⟨hm, hd⟩ := hm
  obtain ⟨m, rfl⟩ := List.head?_eq_some_iff.mp hc
  cases hb : isBlank c with
  | true => exact .inl rfl
  | false =>
    rw [skipBlanks, List.dropWhile_cons_of_neg (by simp [hb])] at hm
    obtain rfl := (List.cons.inj hm).1
    exact .inr (Scan.goesOn_cons_eq_false.mp hd)

theorem SignLeads.breaks : Breaks m ∧ m.head? ≠ some ':' := by
  have hbreaks : ∀ c ∈ m.head?, (isNameChar c = false ∧ c ≠ '\\') ∧ c ≠ '(' ∧ c ≠ ':' := by
    intro c hc
    rcases hm.head hc with hb | rfl | rfl | rfl | rfl
    · simp only [isBlank, Bool.or_eq_true, beq_iff_eq] at hb
      rcases hb with (((rfl | rfl) | rfl) | rfl) | rfl <;> decide
    all_goals decide
  exact ⟨⟨fun c hc => (hbreaks c hc).1, fun hc => (hbreaks _ hc).2.1 rfl⟩,
    fun hc => (hbreaks _ hc).2.2 rfl⟩

/-- An escape by code at the end of a text takes a blank from the text that follows. -/
theorem readEscape_joined {cs : List Char} (hcs : cs ≠ []) :
    ∃ m', SignLeads d ds m' ∧
      readEscape (cs ++ m) = ((readEscape cs).1, (readEscape cs).2 ++ m') := by
  obtain ⟨c, cs, rfl⟩ := List.exists_cons_of_ne_nil hcs
  cases hc : isHexDigit c with
  | false => exact ⟨m, hm, by simp [readEscape_of_not_hex hc]⟩
  | true =>
    have hy : ∀ y ∈ m.head?, isHexDigit y = false := by
      intro y hy
      have hname := (hm.breaks.1.1 y hy).1
      exact Bool.eq_false_iff.mpr fun hh => by simp [isNameChar_of_isHexDigit hh] at hname
    rw [readEscape_code_append hc (.inr hy), readEscape, if_pos hc]
    dsimp only
    by_cases hdrop : (c :: cs).drop (((c :: cs).take 6).takeWhile isHexDigit).length = []
    · exact ⟨dropBlank m, ⟨(skipBlanks_dropBlank m).trans hm.skipped, hm.sign⟩, by rw [hdrop]; rfl⟩
    · exact ⟨m, hm, by rw [dropBlank_append hdrop]⟩

theorem readName_joined {cs : List Char} (h : EndsPlain cs) :
    ∃ m', SignLeads d ds m' ∧
      readName (cs ++ m) = ((readName cs).1, (readName cs).2 ++ m') := by
  fun_induction readName cs generalizing m with
  | case1 => exact ⟨m, hm, hm.breaks.1.1.reads⟩
  | case2 c cs hc name rest hr ih =>
    obtain ⟨m', hm', he⟩ := ih hm h.of_cons
    exact ⟨m', hm', by rw [List.cons_append, readName, if_pos hc, he, hr]⟩
  | case3 c cs hc hs name rest hr ih =>
    have hcs : cs ≠ [] := by
      rintro rfl
      exact h (by rw [eq_backslash_of_startsEscape hs, List.getLast?_singleton])
    obtain ⟨m₁, hm₁, he₁⟩ := readEscape_joined hm hcs
    obtain ⟨m', hm', he⟩ := ih hm₁ (h.of_cons.suffix (readEscape_suffix cs))
    refine ⟨m', hm', ?_⟩
    rw [List.cons_append, readName, if_neg hc, h.startsEscape_append, if_pos hs, he₁, he, hr]
  | case4 c cs hc hs =>
    refine ⟨m, hm, ?_⟩
    rw [List.cons_append, readName, if_neg hc, h.startsEscape_append, if_neg hs]

end

end DocumentQuery
