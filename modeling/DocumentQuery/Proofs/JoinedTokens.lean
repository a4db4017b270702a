import DocumentQuery.Proofs.JoinedText
import DocumentQuery.Proofs.TokenShape

namespace DocumentQuery

theorem Scan.operator?_append (c : Char) {cs : List Char} (h : cs ≠ []) (m : List Char) :
    operator? c (cs ++ m) = operator? c cs := by
  unfold operator?
  rw [List.head?_append_of_ne_nil _ h]

theorem Scan.pseudo_of_head?_ne {cs : List Char} (h : cs.head? ≠ some ':') :
    pseudo cs = named .missingPseudo .pseudoClass cs := by
  unfold pseudo
  split
  next => exact absurd rfl h
  next => rfl

theorem LexerMode.front_append {mode : LexerMode} {c : Char} {cs rest : List Char}
    (hf : mode.front cs = c :: rest) (m : List Char) :
    mode.front (cs ++ m) = c :: (rest ++ m) := by
  cases mode with
  | outside | arguments =>
    obtain rfl : cs = c :: rest := hf
    rfl
  | brackets opened =>
    change cs.dropWhile isBlank = c :: rest at hf
    change (cs ++ m).dropWhile isBlank = _
    rw [List.dropWhile_append, hf]
    rfl

section

variable {d : Char} {ds m : List Char} (hm : SignLeads d ds m)

include hm

namespace Scan

/-- A scan of a text that goes on further. -/
def extend (s : Scan) (m : List Char) : Scan :=
  match s with
  | .token t rest => .token t (rest ++ m)
  | .blanks rest => .blanks (rest ++ m)
  | .fault f rest => .fault f (rest ++ m)

theorem named_joined (missing : Fault) (make : String → Token) {cs : List Char}
    (h : EndsPlain cs) :
    ∃ m', SignLeads d ds m' ∧
      named missing make (cs ++ m) = (named missing make cs).extend m' := by
  obtain ⟨m', hm', he⟩ := readName_joined hm h
  refine ⟨m', hm', ?_⟩
  unfold named
  rw [he]
  rcases readName cs with ⟨_ | ⟨c, name⟩, rest⟩ <;> rfl

theorem ident_joined {c : Char} {cs : List Char} (h : EndsPlain (c :: cs)) :
    ∃ m', SignLeads d ds m' ∧ ident c (cs ++ m) = (ident c cs).extend m' := by
  obtain ⟨m', hm', he⟩ := readName_joined hm h
  rw [List.cons_append] at he
  exact ⟨m', hm', by simp only [ident, he, extend]⟩

theorem gap_joined (p : Option Token) (cs : List Char) :
    ∃ m', SignLeads d ds m' ∧
      gap p (skipBlanks (cs ++ m)) = (gap p (skipBlanks cs)).extend m' := by
  obtain ⟨m', hm', he, hnil⟩ := skipBlanks_joined hm cs
  have hg : goesOn (skipBlanks cs ++ m') = goesOn (skipBlanks cs) := by
    cases hs : skipBlanks cs with
    | nil => rw [hnil hs, List.nil_append, hm.sign, goesOn]
    | cons c cs => rfl
  refine ⟨m', hm', ?_⟩
  rw [he, gap, gap, hg]
  split <;> rfl

theorem pseudo_joined {cs : List Char} (h : EndsPlain cs) :
    ∃ m', SignLeads d ds m' ∧ pseudo (cs ++ m) = (pseudo cs).extend m' := by
  by_cases hc : cs.head? = some ':'
  · obtain ⟨cs, rfl⟩ := List.head?_eq_some_iff.mp hc
    exact named_joined hm _ _ h.of_cons
  · have hcm : (cs ++ m).head? ≠ some ':' := by
      cases cs with
      | nil => exact hm.breaks.2
      | cons c cs => exact hc
    rw [pseudo_of_head?_ne hc, pseudo_of_head?_ne hcm]
    exact named_joined hm _ _ h

theorem sign_joined {c : Char} {cs : List Char} (h : EndsPlain cs) :
    ∃ m', SignLeads d ds m' ∧ sign c (cs ++ m) = (sign c cs).extend m' := by
  obtain ⟨m', hm', he, -⟩ := skipBlanks_joined hm cs
  unfold sign
  split
  case h_7 | h_8 => exact named_joined hm _ _ h
  case h_9 => exact pseudo_joined hm h
  case h_1 | h_2 | h_3 | h_4 => exact ⟨m', hm', by rw [he]; rfl⟩
  all_goals exact ⟨m, hm, rfl⟩

theorem outside_joined (p : Option Token) {c : Char} {cs : List Char} (h : EndsPlain (c :: cs)) :
    ∃ m', SignLeads d ds m' ∧ outside p c (cs ++ m) = (outside p c cs).extend m' := by
  unfold outside
  rw [h.startsEscape_append]
  split
  · exact gap_joined hm p cs
  · split
    · exact ident_joined hm h
    · exact sign_joined hm h.of_cons

theorem valueOrName_joined {p : Option Token} {c : Char} {cs after : List Char} {t : Token}
    (h : EndsPlain (c :: cs)) (hs : valueOrName p c cs = .token t after) (ha : after ≠ []) :
    ∃ m', SignLeads d ds m' ∧ valueOrName p c (cs ++ m) = .token t (after ++ m') := by
  unfold valueOrName at hs ⊢
  split at hs
  next op =>
    cases hs
    exact ⟨m, hm, by rw [← List.cons_append, readValue_append ha]⟩
  next =>
    split at hs
    next hn =>
      obtain ⟨m', hm', he⟩ := ident_joined hm h
      refine ⟨m', hm', ?_⟩
      rw [h.startsEscape_append, if_pos hn, he, hs, extend]
    next => cases hs

/-- A token inside brackets that stops inside the text stops there whatever follows. -/
theorem inside_joined {p : Option Token} {c : Char} {cs after : List Char} {t : Token}
    (h : EndsPlain (c :: cs)) (hb : isBlank c = false) (hs : inside p c cs = .token t after)
    (ha : c ≠ ']' → after ≠ []) :
    ∃ m', SignLeads d ds m' ∧ inside p c (cs ++ m) = .token t (after ++ m') := by
  have hsuffix : (inside p c cs).rest <:+ cs := inside_rest_suffix p hb
  rw [hs, Scan.rest] at hsuffix
  unfold inside at hs ⊢
  by_cases hc : c = ']'
  · rw [if_pos hc] at hs ⊢
    cases hs
    exact ⟨m, hm, rfl⟩
  have hcs : cs ≠ [] := by
    rintro rfl
    exact ha hc (List.suffix_nil.mp hsuffix)
  rw [if_neg hc] at hs ⊢
  by_cases hq : c = '"' ∨ c = '\''
  · rw [if_pos hq, quoted] at hs ⊢
    split at hs
    next value rest hr =>
      cases hs
      exact ⟨m, hm, by rw [readQuoted_append hr]⟩
    next => cases hs
  rw [if_neg hq] at hs ⊢
  by_cases he : c = '='
  · rw [if_pos he] at hs ⊢
    cases hs
    exact ⟨m, hm, rfl⟩
  rw [if_neg he] at hs ⊢
  rw [operator?_append c hcs]
  cases ho : operator? c cs with
  | some op =>
    rw [ho] at hs
    cases hs
    exact ⟨m, hm, by rw [List.tail_append_of_ne_nil hcs]⟩
  | none =>
    rw [ho] at hs
    dsimp only at hs ⊢
    by_cases hbar : c = '|'
    · rw [if_pos hbar] at hs ⊢
      cases hs
      exact ⟨m, hm, rfl⟩
    rw [if_neg hbar] at hs ⊢
    by_cases hstar : c = '*'
    · rw [if_pos hstar] at hs ⊢
      cases hs
      exact ⟨m, hm, rfl⟩
    rw [if_neg hstar] at hs ⊢
    exact valueOrName_joined hm h hs (ha hc)

theorem arguments_joined {cs after : List Char} {t : Token}
    (hs : arguments cs = .token t after) :
    ∃ m', SignLeads d ds m' ∧ arguments (cs ++ m) = .token t (after ++ m') := by
  rcases arguments_cases cs with ⟨raw, rest, ha, hr⟩ | ha
  · obtain ⟨rfl, rfl⟩ := Scan.token.inj (hs.symm.trans ha)
    exact ⟨m, hm, by rw [arguments, readArguments_append_rest hr]⟩
  · cases hs.symm.trans ha

end Scan

theorem LexerMode.after_joined (mode : LexerMode) (t : Token) (start : Nat) (after : List Char) :
    mode.after t start (after ++ m) = mode.after t start after := by
  cases t with
  | pseudoClass name =>
    cases after with
    | nil => simp [LexerMode.after, hm.breaks.1.2]
    | cons c after => rfl
  | _ => rfl

/-- A token after which the text goes on is read alike in front of a sign. -/
theorem LexerMode.scan_joined {mode : LexerMode} {p : Option Token} {c : Char}
    {cs rest after : List Char} {t : Token} (hf : mode.front cs = c :: rest) (h : EndsPlain cs)
    (hs : mode.scan p c rest = .token t after)
    (ha : ∀ opened, mode.after t 0 after = .brackets opened → after ≠ []) :
    ∃ m', SignLeads d ds m' ∧ mode.scan p c (rest ++ m) = .token t (after ++ m') := by
  have hplain : EndsPlain (c :: rest) := h.suffix (hf ▸ mode.front_suffix cs)
  cases mode with
  | outside =>
    obtain ⟨m', hm', he⟩ := Scan.outside_joined hm p hplain
    refine ⟨m', hm', ?_⟩
    rw [LexerMode.scan] at hs ⊢
    rw [he, hs, Scan.extend]
  | arguments => exact Scan.arguments_joined hm hs
  | brackets opened =>
    have hb := isBlank_of_skipBlanks_eq_cons hf
    refine Scan.inside_joined hm hplain hb hs fun hc => ha opened ?_
    obtain ⟨hread, rfl | ht⟩ := Scan.inside_token hb hs
    · exact absurd hread.begins hc
    · cases t <;> first | rfl | cases ht

omit hm in
/-- A sign between compounds is one token, and blanks after it have no meaning. -/
theorem tokensFrom_sign {t : Token} (hd : Scan.goesOn (d :: ds) = false)
    (ht : Scan.sign d ds = .token t (skipBlanks ds)) (p : Option Token) :
    tokensFrom .outside p (d :: ds) = (outsideTokens false (skipBlanks ds)).map (t :: ·) := by
  have hf : LexerMode.outside.front (d :: ds) = d :: ds := rfl
  rcases Scan.goesOn_cons_eq_false.mp hd with rfl | rfl | rfl | rfl
  all_goals
    have hs : LexerMode.outside.scan p _ ds = .token t (skipBlanks ds) :=
      (Scan.outside_sign (by decide) (by decide) (by decide) p ds).trans ht
    cases ht
    rw [tokensFrom_of_token hf hs]
    exact congrArg _ (tokensFrom_outside _ _)

theorem tokensFrom_blanks_sign {t : Token} (ht : Scan.sign d ds = .token t (skipBlanks ds))
    (p : Option Token) :
    tokensFrom .outside p m = (outsideTokens false (skipBlanks ds)).map (t :: ·) := by
  obtain ⟨hm, hd⟩ := hm
  rw [← tokensFrom_sign hd ht p]
  cases m with
  | nil => cases hm
  | cons c m =>
    cases hb : isBlank c with
    | false =>
      rw [skipBlanks, List.dropWhile_cons_of_neg (by simp [hb])] at hm
      rw [hm]
    | true =>
      rw [skipBlanks, List.dropWhile_cons_of_pos hb] at hm
      have hf : LexerMode.outside.front (c :: m) = c :: m := rfl
      have hs : LexerMode.outside.scan p c m = .blanks (d :: ds) := by
        rw [LexerMode.scan, Scan.outside, if_pos hb, Scan.gap, skipBlanks, hm, hd, Bool.and_false]
        rfl
      exact tokensFrom_of_blanks hf hs

/-- The tokens of a text that ends outside of brackets stand in front of those of a sign and of
the text after the sign. -/
theorem tokensFrom_joined {mode : LexerMode} {p : Option Token} {cs : List Char}
    {us : List Token} {t : Token} (ht : Scan.sign d ds = .token t (skipBlanks ds))
    (h : EndsPlain cs) (hmode : mode = .arguments → cs ≠ [])
    (hts : tokensFrom mode p cs = some (us ++ [.finish])) :
    tokensFrom mode p (cs ++ m) = (outsideTokens false (skipBlanks ds)).map (us ++ t :: ·) := by
  generalize hus : us ++ [.finish] = ts at hts
  -- Along the reading `m` may lose a blank to the last escape, so the induction is for all `m`.
  fun_induction tokensFrom mode p cs generalizing us ts m with
  | case1 => cases hts
  | case2 mode p cs hf _ hb =>
    obtain rfl := Option.some.inj hts
    obtain rfl : us = [] := by simpa using hus
    cases mode with
    | brackets opened => exact (hb opened hf rfl HEq.rfl).elim
    | outside =>
      obtain rfl : cs = [] := hf
      exact tokensFrom_blanks_sign hm ht p
    | arguments => exact absurd hf (hmode rfl)
  | case3 mode p cs c rest hf u after hs ih =>
    obtain ⟨vs, hvs, rfl⟩ := Option.map_eq_some_iff.mp hts
    obtain ⟨us, rfl, rfl⟩ : ∃ us', us = u :: us' ∧ us' ++ [.finish] = vs := by
      cases us with
      | nil => exact absurd (List.cons.inj hus).1.symm (LexerMode.token_scan_ne_finish hf hs)
      | cons v us => exact ⟨us, by rw [(List.cons.inj hus).1], (List.cons.inj hus).2⟩
    have hopen : ∀ opened, mode.after u 0 after = .brackets opened → after ≠ [] := by
      rintro opened ha rfl
      rw [ha, tokensFrom_brackets_of_end rfl] at hvs
      cases hvs
    have hargument : mode.after u 0 after = .arguments → after ≠ [] := by
      rintro ha rfl
      simpa using (LexerMode.Fits.token hs 0 ha).2
    have hafter : after <:+ cs := by simpa [hs, Scan.rest] using LexerMode.rest_scan_suffix hf p
    obtain ⟨m', hm', he⟩ := LexerMode.scan_joined hm hf h hs hopen
    rw [tokensFrom_of_token (LexerMode.front_append hf m) he, LexerMode.after_joined hm',
      ih hm' (h.suffix hafter) hargument _ rfl hvs, Option.map_map]
    rfl
  | case4 mode p cs c rest hf after hs ih =>
    obtain rfl := LexerMode.scan_blanks hs
    have hafter : after <:+ cs := by simpa [hs, Scan.rest] using LexerMode.rest_scan_suffix hf p
    obtain rfl : cs = c :: rest := hf
    obtain ⟨m', hm', he⟩ := Scan.outside_joined hm p h
    change Scan.outside p c rest = .blanks after at hs
    rw [hs, Scan.extend] at he
    rw [← ih hm' (h.suffix hafter) (by simp) _ hus hts]
    exact tokensFrom_of_blanks rfl he
  | case5 => cases hts

end

end DocumentQuery
