import DocumentQuery.Proofs.TokenScans

namespace DocumentQuery

/-- The tokens that a text has from some place on, without their positions. There are none when
the reading ends in a fault. -/
def tokensFrom (mode : LexerMode) (p : Option Token) (cs : List Char) : Option (List Token) :=
  match _hf : mode.front cs with
  | [] =>
    match mode with
    | .brackets _ => none
    | _ => some [.finish]
  | c :: rest =>
    match _hs : mode.scan p c rest with
    | .token t after => (tokensFrom (mode.after t 0 after) (some t) after).map (t :: ·)
    | .blanks after => tokensFrom mode p after
    | .fault _ _ => none
termination_by cs.length
decreasing_by
  · simpa only [_hs, Scan.rest] using LexerMode.length_rest_scan_lt _hf p
  · simpa only [_hs, Scan.rest] using LexerMode.length_rest_scan_lt _hf p

theorem tokensFrom_of_end {mode : LexerMode} {p : Option Token} {cs : List Char}
    (hf : mode.front cs = []) (hm : ∀ opened, mode ≠ .brackets opened) :
    tokensFrom mode p cs = some [.finish] := by
  rw [tokensFrom]
  split
  next =>
    cases mode with
    | brackets opened => exact absurd rfl (hm opened)
    | outside => rfl
    | arguments => rfl
  next hc => simp [hf] at hc

theorem tokensFrom_brackets_of_end {opened : Nat} {p : Option Token} {cs : List Char}
    (hf : skipBlanks cs = []) : tokensFrom (.brackets opened) p cs = none := by
  rw [tokensFrom]
  split
  next => rfl
  next hc => simp [LexerMode.front, hf] at hc

theorem tokensFrom_of_token {mode : LexerMode} {p : Option Token} {c : Char}
    {cs rest after : List Char} {t : Token} (hf : mode.front cs = c :: rest)
    (hs : mode.scan p c rest = .token t after) :
    tokensFrom mode p cs = (tokensFrom (mode.after t 0 after) (some t) after).map (t :: ·) := by
  rw [tokensFrom]
  split
  next hc => simp [hf] at hc
  next hc =>
    obtain ⟨rfl, rfl⟩ := List.cons.inj (hf.symm.trans hc)
    split
    next ht => obtain ⟨rfl, rfl⟩ := Scan.token.inj (hs.symm.trans ht); rfl
    next ht => cases hs.symm.trans ht
    next ht => cases hs.symm.trans ht

theorem tokensFrom_of_blanks {mode : LexerMode} {p : Option Token} {c : Char}
    {cs rest after : List Char} (hf : mode.front cs = c :: rest)
    (hs : mode.scan p c rest = .blanks after) : tokensFrom mode p cs = tokensFrom mode p after := by
  rw [tokensFrom]
  split
  next hc => simp [hf] at hc
  next hc =>
    obtain ⟨rfl, rfl⟩ := List.cons.inj (hf.symm.trans hc)
    split
    next ht => cases hs.symm.trans ht
    next ht => obtain rfl := Scan.blanks.inj (hs.symm.trans ht); rfl
    next ht => cases hs.symm.trans ht

theorem tokensFrom_of_fault {mode : LexerMode} {p : Option Token} {c : Char}
    {cs rest after : List Char} {f : Fault} (hf : mode.front cs = c :: rest)
    (hs : mode.scan p c rest = .fault f after) : tokensFrom mode p cs = none := by
  rw [tokensFrom]
  split
  next hc => simp [hf] at hc
  next hc =>
    obtain ⟨rfl, rfl⟩ := List.cons.inj (hf.symm.trans hc)
    split
    next ht => cases hs.symm.trans ht
    next ht => cases hs.symm.trans ht
    next ht => rfl

/-- Only the last token is the end mark, and what holds of each token that is scanned holds of
the others. -/
theorem forall_mem_of_tokensFrom {P : Token → Prop} {mode : LexerMode} {p : Option Token}
    {cs : List Char} {ts : List Token}
    (hP : ∀ (mode : LexerMode) (p : Option Token) (front : List Char) (c : Char)
      (rest : List Char) (t : Token) (after : List Char), mode.front front = c :: rest →
      mode.scan p c rest = .token t after → P t)
    (h : tokensFrom mode p cs = some ts) : ∃ us, ts = us ++ [.finish] ∧ ∀ t ∈ us, P t := by
  fun_induction tokensFrom mode p cs generalizing ts with
  | case1 => cases h
  | case2 => cases h; exact ⟨[], rfl, by simp⟩
  | case3 mode p cs c rest hf t after hs ih =>
    obtain ⟨us, hu, rfl⟩ := Option.map_eq_some_iff.mp h
    obtain ⟨vs, rfl, hvs⟩ := ih hu
    exact ⟨t :: vs, rfl, List.forall_mem_cons.mpr ⟨hP mode p cs c rest t after hf hs, hvs⟩⟩
  | case4 mode p cs c rest hf after hs ih => exact ih h
  | case5 => cases h

theorem exists_append_finish {mode : LexerMode} {p : Option Token} {cs : List Char}
    {ts : List Token} (h : tokensFrom mode p cs = some ts) :
    ∃ us, ts = us ++ [.finish] ∧ .finish ∉ us := by
  obtain ⟨us, he, hus⟩ := forall_mem_of_tokensFrom
    (fun _ _ _ _ _ _ _ hf hs => LexerMode.token_scan_ne_finish hf hs) h
  exact ⟨us, he, fun hm => hus .finish hm rfl⟩

/-- The place of the open bracket counts for error messages only. -/
theorem tokensFrom_brackets (a b : Nat) (p : Option Token) (cs : List Char) :
    tokensFrom (.brackets a) p cs = tokensFrom (.brackets b) p cs := by
  cases hf : skipBlanks cs with
  | nil => rw [tokensFrom_brackets_of_end hf, tokensFrom_brackets_of_end hf]
  | cons c rest =>
    have ha : (LexerMode.brackets a).front cs = c :: rest := hf
    have hb : (LexerMode.brackets b).front cs = c :: rest := hf
    have hl : (Scan.inside p c rest).rest.length < cs.length :=
      LexerMode.length_rest_scan_lt ha p
    cases hs : Scan.inside p c rest with
    | fault f after => rw [tokensFrom_of_fault ha hs, tokensFrom_of_fault hb hs]
    | blanks after =>
      rw [hs] at hl
      have hl' : after.length < cs.length := hl
      rw [tokensFrom_of_blanks ha hs, tokensFrom_of_blanks hb hs]
      exact tokensFrom_brackets a b p after
    | token t after =>
      rw [hs] at hl
      have hl' : after.length < cs.length := hl
      have ih := tokensFrom_brackets a b (some t) after
      rw [tokensFrom_of_token ha hs, tokensFrom_of_token hb hs]
      cases t <;> first | rfl | exact congrArg _ ih
termination_by cs.length

theorem tokensFrom_after (mode : LexerMode) (t : Token) (start : Nat) (p : Option Token)
    (cs rest : List Char) :
    tokensFrom (mode.after t start rest) p cs = tokensFrom (mode.after t 0 rest) p cs := by
  cases t <;> first | rfl | exact tokensFrom_brackets start 0 p cs

namespace Lexer

/-- A step that goes on has read a token, or blanks without a meaning. -/
theorem of_step_eq_again {l next : Lexer} (h : l.step = .again next) :
    ∃ c cs, l.mode.front l.rest = c :: cs ∧
      ((∃ t after, l.mode.scan l.previous c cs = .token t after ∧
          next = l.push t (l.place (c :: cs)) after) ∨
        ∃ after, l.mode.scan l.previous c cs = .blanks after ∧ next = { l with rest := after }) := by
  unfold step at h
  split at h
  next => cases h
  next =>
    split at h
    next =>
      unfold atEnd at h
      split at h <;> cases h
    next c cs hf =>
      refine ⟨c, cs, hf, ?_⟩
      cases hs : l.mode.scan l.previous c cs with
      | token t after =>
        rw [hs] at h
        cases h
        exact .inl ⟨t, after, rfl, rfl⟩
      | blanks after =>
        rw [hs] at h
        cases h
        exact .inr ⟨after, rfl, rfl⟩
      | fault fault after =>
        rw [hs] at h
        cases h

theorem source_of_step_eq_again {l next : Lexer} (h : l.step = .again next) :
    next.source = l.source := by
  obtain ⟨c, cs, -, ⟨t, after, -, rfl⟩ | ⟨after, -, rfl⟩⟩ := of_step_eq_again h <;> rfl

/-- How a step can be the last one: the end mark has been read before or is read now, brackets
are still open at the end of the text, or what stands in front is a fault. -/
inductive Stops (l : Lexer) : Except SelectorError Unit → Lexer → Prop where
  | finished (hl : l.finished = true) : l.Stops (.ok ()) l
  | atEnd (hf : l.mode.front l.rest = []) (hm : ∀ opened, l.mode ≠ .brackets opened) :
      l.Stops (.ok ()) (l.push .finish (l.place []) [])
  | openBrackets {opened : Nat} (hn : l.finished = false) (hf : l.mode.front l.rest = [])
      (hm : l.mode = .brackets opened) :
      l.Stops (.error (.malformed l.source opened .openBrackets)) { l with rest := [] }
  | fault {c : Char} {cs after : List Char} {f : Fault} (hn : l.finished = false)
      (hf : l.mode.front l.rest = c :: cs) (hs : l.mode.scan l.previous c cs = .fault f after) :
      l.Stops (.error (.malformed l.source (l.place (c :: cs)) f))
        { l with rest := after, mode := l.mode.afterFault }

theorem stops_of_step_eq_done {l last : Lexer} {outcome : Except SelectorError Unit}
    (h : l.step = .done outcome last) : l.Stops outcome last := by
  unfold step at h
  split at h
  next hl =>
    cases h
    exact .finished hl
  next hn =>
    rw [Bool.not_eq_true] at hn
    split at h
    next hf =>
      unfold Lexer.atEnd at h
      split at h
      next opened hm =>
        cases h
        exact .openBrackets hn hf hm
      next hm =>
        cases h
        exact .atEnd hf hm
    next c cs hf =>
      cases hs : l.mode.scan l.previous c cs with
      | token | blanks =>
        rw [hs] at h
        cases h
      | fault f after =>
        rw [hs] at h
        cases h
        exact .fault hn hf hs

/-- A step that ends without an error adds the end mark at the end of the text, unless the mark
is there. -/
theorem of_step_eq_done {l last : Lexer} (h : l.step = .done (.ok ()) last) :
    l.previous = some .finish ∨
      l.mode.front l.rest = [] ∧ (∀ opened, l.mode ≠ .brackets opened) ∧
        last = l.push .finish (l.place []) [] := by
  cases stops_of_step_eq_done h with
  | finished hl => exact .inl (by simpa [finished] using hl)
  | atEnd hf hm => exact .inr ⟨hf, hm, rfl⟩

end Lexer

/-- The tokens of a finished reading; none when it ended in an error. -/
def readingTokens : Except SelectorError Unit × Lexer → Option (List Token)
  | (.ok _, l) => some (l.tokens.map Lexeme.token)
  | (.error _, _) => none

theorem readingTokens_readTokens (l : Lexer) (hp : l.previous ≠ some .finish) :
    readingTokens l.readTokens =
      (tokensFrom l.mode l.previous l.rest).map (l.tokens.map Lexeme.token ++ ·) := by
  have hn : l.finished = false := by simpa [Lexer.finished] using hp
  cases hf : l.mode.front l.rest with
  | nil =>
    have hstep : l.step = l.atEnd := by simp [Lexer.step, hn, hf]
    cases hm : l.mode with
    | brackets opened =>
      rw [hm] at hf
      rw [Lexer.readTokens_of_step_eq_done (hstep.trans (by rw [Lexer.atEnd, hm])),
        tokensFrom_brackets_of_end hf]
      rfl
    | outside =>
      rw [Lexer.readTokens_of_step_eq_done (hstep.trans (by rw [Lexer.atEnd, hm])),
        tokensFrom_of_end (hm ▸ hf) (by simp)]
      simp [readingTokens, Lexer.tokens, Lexer.push]
    | arguments =>
      rw [Lexer.readTokens_of_step_eq_done (hstep.trans (by rw [Lexer.atEnd, hm])),
        tokensFrom_of_end (hm ▸ hf) (by simp)]
      simp [readingTokens, Lexer.tokens, Lexer.push]
  | cons c cs =>
    have hstep : l.step = l.afterScan (c :: cs) (l.mode.scan l.previous c cs) := by
      simp [Lexer.step, hn, hf]
    have hl := LexerMode.length_rest_scan_lt hf l.previous
    cases hs : l.mode.scan l.previous c cs with
    | fault f after =>
      rw [hs] at hstep
      rw [Lexer.readTokens_of_step_eq_done hstep, tokensFrom_of_fault hf hs]
      rfl
    | blanks after =>
      rw [hs] at hstep hl
      have hl' : after.length < l.rest.length := hl
      rw [Lexer.readTokens_of_step_eq_again hstep, tokensFrom_of_blanks hf hs]
      exact readingTokens_readTokens { l with rest := after } hp
    | token t after =>
      rw [hs] at hstep hl
      have hl' : (l.push t (l.place (c :: cs)) after).rest.length < l.rest.length := hl
      have ht : (l.push t (l.place (c :: cs)) after).previous ≠ some .finish := by
        simpa [Lexer.push, Lexer.previous] using LexerMode.token_scan_ne_finish hf hs
      rw [Lexer.readTokens_of_step_eq_again hstep, tokensFrom_of_token hf hs,
        readingTokens_readTokens _ ht]
      simp only [Lexer.push, Lexer.previous, Lexer.tokens, List.head?_cons, Option.map_some,
        tokensFrom_after, Option.map_map]
      congr 1
      funext ts
      simp
termination_by l.rest.length

/-- What reading a text to its end gives, up to the places of the tokens. -/
theorem tokenize_tokens (source : String) :
    (tokenize source).toOption.map (List.map Lexeme.token) =
      tokensFrom .outside none (skipBlanks source.toList) := by
  let l : Lexer := { Lexer.ofText source with rest := skipBlanks source.toList }
  have h : readingTokens (Lexer.ofText source).run =
      (tokensFrom .outside none (skipBlanks source.toList)).map ([] ++ ·) :=
    readingTokens_readTokens l (by simp [l, Lexer.previous, Lexer.ofText])
  simp only [List.nil_append, Option.map_id'] at h
  rw [← h]
  unfold tokenize readingTokens
  split <;> simp [Except.toOption, *]

end DocumentQuery
