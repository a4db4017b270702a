import DocumentQuery.Proofs.PrintedTokens

namespace DocumentQuery

/-- The tokens of a text outside of brackets, where a compound has ended in front of it or not. -/
def outsideTokens (ended : Bool) (cs : List Char) : Option (List Token) :=
  tokensFrom .outside (if ended then some .star else none) cs

/-- Outside of brackets it is all the same which token came before, if it ended a compound. -/
theorem tokensFrom_outside_congr {p q : Option Token}
    (h : (p.map Token.endsCompound).getD false = (q.map Token.endsCompound).getD false)
    (cs : List Char) : tokensFrom .outside p cs = tokensFrom .outside q cs := by
  cases cs with
  | nil => rw [tokensFrom_of_end rfl (by simp), tokensFrom_of_end rfl (by simp)]
  | cons c rest =>
    have hf : LexerMode.outside.front (c :: rest) = c :: rest := rfl
    have hpq : LexerMode.outside.scan p c rest = LexerMode.outside.scan q c rest := by
      simp only [LexerMode.scan, Scan.outside, Scan.gap, h]
    have hl := LexerMode.length_rest_scan_lt hf p
    cases hs : LexerMode.outside.scan p c rest with
    | token t after => rw [tokensFrom_of_token hf hs, tokensFrom_of_token hf (hpq ▸ hs)]
    | fault f after => rw [tokensFrom_of_fault hf hs, tokensFrom_of_fault hf (hpq ▸ hs)]
    | blanks after =>
      rw [hs] at hl
      have hl' : after.length ≤ rest.length := Nat.le_of_lt_succ hl
      rw [tokensFrom_of_blanks hf hs, tokensFrom_of_blanks hf (hpq ▸ hs)]
      exact tokensFrom_outside_congr h after
termination_by cs.length

theorem tokensFrom_outside (t : Token) (cs : List Char) :
    tokensFrom .outside (some t) cs = outsideTokens t.endsCompound cs := by
  apply tokensFrom_outside_congr
  rw [Option.map_some, Option.getD_some]
  cases t.endsCompound <;> rfl

theorem outsideTokens_nil (ended : Bool) : outsideTokens ended [] = some [.finish] :=
  tokensFrom_of_end rfl (by simp)

theorem outsideTokens_of_token {ended : Bool} {c : Char} {cs after : List Char} {t : Token}
    (hs : ∀ p, Scan.outside p c cs = .token t after)
    (hm : LexerMode.outside.after t 0 after = .outside) :
    outsideTokens ended (c :: cs) = (outsideTokens t.endsCompound after).map (t :: ·) := by
  have hf : LexerMode.outside.front (c :: cs) = c :: cs := rfl
  rw [outsideTokens, tokensFrom_of_token hf (hs _), hm, tokensFrom_outside]

/-- A text in front of which a name ends. -/
def EndsName (cs : List Char) : Prop :=
  ∀ c ∈ cs.head?, isNameChar c = false ∧ c ≠ '\\'

/-- A text in front of which any test of a compound ends. -/
def Breaks (cs : List Char) : Prop :=
  EndsName cs ∧ cs.head? ≠ some '('

theorem EndsName.reads {cs : List Char} (h : EndsName cs) : readName cs = ([], cs) := by
  cases cs with
  | nil => rw [readName]
  | cons c cs =>
    obtain ⟨hc, hb⟩ := h c rfl
    rw [readName, if_neg (by simp [hc]), if_neg (by simp [startsEscape, hb])]

theorem Spells.reads {name text more : List Char} (h : Spells name text) (hm : EndsName more) :
    readName (text ++ more) = (name.map mended, more) := by
  rw [readName_spelled h, hm.reads, List.append_nil]

/-- The written form of a name begins like a name. -/
theorem Spells.exists_cons {name text : List Char} (h : Spells name text) (hn : name ≠ []) :
    ∃ c rest, text = c :: rest ∧ ∀ more, (isNameChar c || startsEscape c (rest ++ more)) = true := by
  cases h with
  | nil => exact absurd rfl hn
  | @cons c cs z zs hz hs =>
    cases hz with
    | plain hc => exact ⟨c, zs, rfl, fun more => by simp [hc]⟩
    | code hc =>
      refine ⟨'\\', Nat.toDigits 16 c.toNat ++ [' '] ++ zs, rfl, fun more => ?_⟩
      have hd := toDigits_head_ne_newline hc ([' '] ++ (zs ++ more))
      simp only [Bool.or_eq_true, startsEscape, beq_self_eq_true, Bool.true_and, bne_iff_ne]
      exact .inr (by simpa only [List.append_assoc] using hd)
    | escaped hc hb =>
      refine ⟨'\\', c :: zs, rfl, fun more => ?_⟩
      have hd : c ≠ '\n' := by
        rintro rfl
        exact hb (by decide)
      simp [startsEscape, hd]

theorem eq_backslash_of_startsEscape {c : Char} {cs : List Char} (h : startsEscape c cs = true) :
    c = '\\' := by
  simp only [startsEscape, Bool.and_eq_true, beq_iff_eq] at h
  exact h.1

/-- A character that a name begins with is no blank and no sign. -/
theorem nameStart_ne {c : Char} {cs : List Char} (h : (isNameChar c || startsEscape c cs) = true)
    {d : Char} (hd : isNameChar d = false) (hb : d ≠ '\\') : c ≠ d := by
  rintro rfl
  rw [hd, Bool.false_or] at h
  exact hb (eq_backslash_of_startsEscape h)

theorem isBlank_of_nameStart {c : Char} {cs : List Char}
    (h : (isNameChar c || startsEscape c cs) = true) : isBlank c = false := by
  cases hb : isBlank c with
  | false => rfl
  | true =>
    simp only [isBlank, Bool.or_eq_true, beq_iff_eq] at hb
    rcases hb with (((hb | hb) | hb) | hb) | hb
    all_goals exact absurd hb (nameStart_ne h (by decide) (by decide))

/-- A text that a name is read from begins like a name. -/
theorem exists_cons_of_readName {cs name rest : List Char} (h : readName cs = (name, rest))
    (hn : name ≠ []) : ∃ c ds, cs = c :: ds ∧ (isNameChar c || startsEscape c ds) = true := by
  cases cs with
  | nil =>
    rw [readName] at h
    cases h
    exact absurd rfl hn
  | cons c ds =>
    refine ⟨c, ds, rfl, ?_⟩
    by_contra hc
    rw [Bool.not_eq_true, Bool.or_eq_false_iff] at hc
    rw [readName, if_neg (by simp [hc.1]), if_neg (by simp [hc.2])] at h
    cases h
    exact hn rfl

theorem outsideTokens_name {ended : Bool} {cs name rest : List Char}
    (h : readName cs = (name, rest)) (hn : name ≠ []) :
    outsideTokens ended cs = (outsideTokens true rest).map (.ident (String.ofList name) :: ·) := by
  obtain ⟨c, ds, rfl, hc⟩ := exists_cons_of_readName h hn
  refine outsideTokens_of_token (fun p => ?_) rfl
  rw [Scan.outside, isBlank_of_nameStart hc, if_neg (by decide), if_pos hc, Scan.ident, h]

theorem Scan.named_of_readName {cs name rest : List Char} (h : readName cs = (name, rest))
    (hn : name ≠ []) (missing : Fault) (make : String → Token) :
    Scan.named missing make cs = .token (make (String.ofList name)) rest := by
  unfold Scan.named
  rw [h]
  split
  next heq => cases heq; exact absurd rfl hn
  next heq => cases heq; rfl

/-- A sign is no name and no blank, so that it is read as a sign. -/
theorem Scan.outside_sign {c : Char} (hb : isBlank c = false) (hn : isNameChar c = false)
    (hs : c ≠ '\\') (p : Option Token) (cs : List Char) :
    Scan.outside p c cs = Scan.sign c cs := by
  rw [Scan.outside, if_neg (by simp [hb]), if_neg (by simp [hn, startsEscape, hs])]

/-- The signs that stand in front of a name, each with the token that it makes of the name. -/
inductive NameSign : Char → (String → Token) → Prop where
  | id : NameSign '#' .idTest
  | named : NameSign '.' .classTest

theorem NameSign.scan {sign : Char} {make : String → Token} (hs : NameSign sign make) :
    ∃ missing, ∀ p cs, Scan.outside p sign cs = Scan.named missing make cs := by
  cases hs with
  | id => exact ⟨.missingId, Scan.outside_sign (by decide) (by decide) (by decide)⟩
  | named => exact ⟨.missingClass, Scan.outside_sign (by decide) (by decide) (by decide)⟩

theorem outsideTokens_nameSign {ended : Bool} {sign : Char} {make : String → Token}
    (hs : NameSign sign make) {cs name rest : List Char} (h : readName cs = (name, rest))
    (hn : name ≠ []) :
    outsideTokens ended (sign :: cs) =
      (outsideTokens true rest).map (make (String.ofList name) :: ·) := by
  obtain ⟨missing, hscan⟩ := hs.scan
  have htoken : ∀ p, Scan.outside p sign cs = .token (make (String.ofList name)) rest :=
    fun p => (hscan p cs).trans (Scan.named_of_readName h hn missing make)
  cases hs with
  | id => exact outsideTokens_of_token htoken rfl
  | named => exact outsideTokens_of_token htoken rfl

/-- The signs that a qualified name may hold besides names, each with its token. -/
inductive QualifierSign : Char → Token → Prop where
  | star : QualifierSign '*' .star
  | bar : QualifierSign '|' .bar

theorem outsideTokens_qualifierSign (ended : Bool) {sign : Char} {t : Token}
    (hs : QualifierSign sign t) (more : List Char) :
    outsideTokens ended (sign :: more) =
      (outsideTokens t.endsCompound more).map (t :: ·) := by
  cases hs <;> exact outsideTokens_of_token
    (fun p => Scan.outside_sign (by decide) (by decide) (by decide) p more) rfl

theorem skipBlanks_of_head {cs : List Char} (h : ∀ c ∈ cs.head?, isBlank c = false) :
    skipBlanks cs = cs := by
  cases cs with
  | nil => rfl
  | cons c cs => rw [skipBlanks, List.dropWhile_cons, if_neg (by simp [h c rfl])]

theorem skipBlanks_space {cs : List Char} (h : ∀ c ∈ cs.head?, isBlank c = false) :
    skipBlanks (' ' :: cs) = cs := by
  have hs : skipBlanks (' ' :: cs) = skipBlanks cs := rfl
  rw [hs, skipBlanks_of_head h]

theorem outsideTokens_comma {ended : Bool} {more : List Char}
    (hm : ∀ c ∈ more.head?, isBlank c = false) :
    outsideTokens ended (',' :: ' ' :: more) = (outsideTokens false more).map (.comma :: ·) := by
  refine outsideTokens_of_token (fun p => ?_) rfl
  rw [Scan.outside_sign (by decide) (by decide) (by decide), Scan.sign, skipBlanks_space hm]

theorem scan_leading {k : Combinator} (hk : k ≠ .descendant) :
    ∃ sign, leadingText k = [sign, ' '] ∧
      ∀ p cs, Scan.outside p sign cs = .token (.combinator k) (skipBlanks cs) := by
  cases k with
  | descendant => exact absurd rfl hk
  | child => exact ⟨'>', rfl, Scan.outside_sign (by decide) (by decide) (by decide)⟩
  | adjacentSibling => exact ⟨'+', rfl, Scan.outside_sign (by decide) (by decide) (by decide)⟩
  | generalSibling => exact ⟨'~', rfl, Scan.outside_sign (by decide) (by decide) (by decide)⟩

theorem outsideTokens_leading {ended : Bool} {k : Combinator} (hk : k ≠ .descendant)
    {more : List Char} (hm : ∀ c ∈ more.head?, isBlank c = false) :
    outsideTokens ended (leadingText k ++ more) =
      (outsideTokens false more).map (.combinator k :: ·) := by
  obtain ⟨sign, htext, hscan⟩ := scan_leading hk
  have htoken : ∀ p, Scan.outside p sign (' ' :: more) = .token (.combinator k) more :=
    fun p => by rw [hscan, skipBlanks_space hm]
  rw [htext]
  exact outsideTokens_of_token htoken rfl

theorem outsideTokens_gap {more : List Char} (hm : ∀ c ∈ more.head?, isBlank c = false)
    (hg : Scan.goesOn more = true) :
    outsideTokens true (' ' :: more) =
      (outsideTokens false more).map (.combinator .descendant :: ·) := by
  have hf : LexerMode.outside.front (' ' :: more) = ' ' :: more := rfl
  have hs : LexerMode.outside.scan (some .star) ' ' more =
      .token (.combinator .descendant) more := by
    simp only [LexerMode.scan, Scan.outside, skipBlanks_of_head hm, Scan.gap, hg]
    rfl
  rw [outsideTokens, if_pos rfl, tokensFrom_of_token hf hs]
  exact congrArg _ (tokensFrom_outside (.combinator .descendant) more)

/-- A space in front of a sign has no meaning of its own. -/
theorem outsideTokens_space {ended : Bool} {more : List Char}
    (hm : ∀ c ∈ more.head?, isBlank c = false) (hg : Scan.goesOn more = false) :
    outsideTokens ended (' ' :: more) = outsideTokens ended more := by
  have hf : LexerMode.outside.front (' ' :: more) = ' ' :: more := rfl
  have hs : ∀ p, LexerMode.outside.scan p ' ' more = .blanks more := by
    intro p
    simp only [LexerMode.scan, Scan.outside, skipBlanks_of_head hm, Scan.gap, hg, Bool.and_false]
    rfl
  rw [outsideTokens, tokensFrom_of_blanks hf (hs _)]
  rfl

theorem outsideTokens_between {k : Combinator} {more : List Char}
    (hm : ∀ c ∈ more.head?, isBlank c = false) (hg : Scan.goesOn more = true) :
    outsideTokens true (betweenText k ++ more) =
      (outsideTokens false more).map (.combinator k :: ·) := by
  have hsign : ∀ k, k ≠ .descendant → betweenText k ++ more = ' ' :: (leadingText k ++ more) ∧
      (∀ c ∈ (leadingText k ++ more).head?, isBlank c = false) ∧
      Scan.goesOn (leadingText k ++ more) = false := by
    intro k hk
    cases k with
    | descendant => exact absurd rfl hk
    | child | adjacentSibling | generalSibling => exact ⟨rfl, by rintro c ⟨⟩; decide, rfl⟩
  by_cases hk : k = .descendant
  · subst hk
    exact outsideTokens_gap hm hg
  · obtain ⟨he, hb, hn⟩ := hsign k hk
    rw [he, outsideTokens_space hb hn, outsideTokens_leading hk hm]

theorem spells_of_isNameChar {name : List Char} (h : name.all isNameChar = true) :
    Spells name name := by
  induction name with
  | nil => exact .nil
  | cons c cs ih =>
    rw [List.all_cons, Bool.and_eq_true] at h
    exact .cons (.plain h.1) (ih h.2)

theorem map_mended {name : List Char} (h : '\x00' ∉ name) : name.map mended = name := by
  refine (List.map_congr_left fun c hc => ?_).trans (List.map_id name)
  have hn : c ≠ '\x00' := fun he => h (he ▸ hc)
  simp [mended, hn]

theorem not_mem_map_mended (name : List Char) : '\x00' ∉ name.map mended := by
  intro h
  obtain ⟨c, -, hc⟩ := List.mem_map.mp h
  unfold mended at hc
  split at hc
  next => exact absurd hc (by decide)
  next hne => exact hne hc

theorem map_mended_eq_self_iff {name : List Char} : name.map mended = name ↔ '\x00' ∉ name :=
  ⟨fun h => h ▸ not_mem_map_mended name, map_mended⟩

theorem map_mended_of_isNameChar {name : List Char} (h : name.all isNameChar = true) :
    name.map mended = name :=
  map_mended fun hc => absurd (List.all_eq_true.mp h _ hc) (by decide)

theorem readName_of_isNameChar {name more : List Char} (h : name.all isNameChar = true)
    (hm : EndsName more) : readName (name ++ more) = (name, more) := by
  have hr := (spells_of_isNameChar h).reads hm
  rwa [map_mended_of_isNameChar h] at hr

theorem outsideTokens_pseudoElement (ended : Bool) {name more : List Char}
    (h : name.all isNameChar = true) (hn : name ≠ []) (hm : EndsName more) :
    outsideTokens ended (':' :: ':' :: name ++ more) =
      (outsideTokens true more).map (.pseudoElement (String.ofList name) :: ·) := by
  refine outsideTokens_of_token (fun p => ?_) rfl
  rw [Scan.outside_sign (by decide) (by decide) (by decide)]
  exact Scan.named_of_readName (readName_of_isNameChar h hm) hn _ _

theorem Scan.pseudo_name {name more : List Char} (h : name.all isNameChar = true)
    (hn : name ≠ []) (hm : EndsName more) :
    Scan.pseudo (name ++ more) = .token (.pseudoClass (String.ofList name)) more := by
  unfold Scan.pseudo
  split
  next cs heq =>
    obtain ⟨c, rest, rfl⟩ := List.exists_cons_of_ne_nil hn
    cases (List.cons.inj heq).1
    simp [show isNameChar ':' = false by decide] at h
  next => exact Scan.named_of_readName (readName_of_isNameChar h hm) hn _ _

theorem outsideTokens_pseudoClass (ended : Bool) {name more : List Char}
    (h : name.all isNameChar = true) (hn : name ≠ []) (hm : Breaks more) :
    outsideTokens ended (':' :: name ++ more) =
      (outsideTokens true more).map (.pseudoClass (String.ofList name) :: ·) := by
  refine outsideTokens_of_token (fun p => ?_) (if_neg hm.2)
  rw [Scan.outside_sign (by decide) (by decide) (by decide)]
  exact Scan.pseudo_name h hn hm.1

/-- A parenthesis right after the name of a pseudo-class begins its argument. -/
theorem outsideTokens_parenthesis {ended : Bool} {name : List Char}
    (h : name.all isNameChar = true) (hn : name ≠ []) (cs : List Char) :
    outsideTokens ended (':' :: name ++ '(' :: cs) =
      (tokensFrom .arguments (some (.pseudoClass (String.ofList name))) ('(' :: cs)).map
        (.pseudoClass (String.ofList name) :: ·) := by
  have hf : LexerMode.outside.front (':' :: name ++ '(' :: cs) = ':' :: (name ++ '(' :: cs) := rfl
  have hm : EndsName ('(' :: cs) := by rintro c ⟨⟩; decide
  have hs : ∀ p, LexerMode.outside.scan p ':' (name ++ '(' :: cs) =
      .token (.pseudoClass (String.ofList name)) ('(' :: cs) := by
    intro p
    rw [LexerMode.scan, Scan.outside_sign (by decide) (by decide) (by decide)]
    exact Scan.pseudo_name h hn hm
  rw [outsideTokens, tokensFrom_of_token hf (hs _)]
  rfl

theorem outsideTokens_arguments (ended : Bool) {name raw : List Char} (more : List Char)
    (h : name.all isNameChar = true) (hn : name ≠ []) (hr : Opens 0 raw) :
    outsideTokens ended (':' :: name ++ '(' :: (raw ++ ')' :: more)) =
      (outsideTokens true more).map
        (.pseudoClass (String.ofList name) :: .arguments (String.ofList raw) :: ·) := by
  have hf : LexerMode.arguments.front ('(' :: (raw ++ ')' :: more)) =
      '(' :: (raw ++ ')' :: more) := rfl
  have hs : LexerMode.arguments.scan (some (.pseudoClass (String.ofList name))) '('
      (raw ++ ')' :: more) = .token (.arguments (String.ofList raw)) more := by
    rw [LexerMode.scan, Scan.arguments, readArguments_of_opens hr]
  rw [outsideTokens_parenthesis h hn, tokensFrom_of_token hf hs, Option.map_map]
  exact congrArg _ (tokensFrom_outside (.arguments (String.ofList raw)) more)

/-- A parenthesis that is never closed is a fault. -/
theorem outsideTokens_openArguments {ended : Bool} {name cs : List Char}
    (h : name.all isNameChar = true) (hn : name ≠ []) (hr : readArguments {} cs = none) :
    outsideTokens ended (':' :: name ++ '(' :: cs) = none := by
  have hf : LexerMode.arguments.front ('(' :: cs) = '(' :: cs := rfl
  have hs : LexerMode.arguments.scan (some (.pseudoClass (String.ofList name))) '(' cs =
      .fault .openArguments [] := by
    rw [LexerMode.scan, Scan.arguments, hr]
  rw [outsideTokens_parenthesis h hn, tokensFrom_of_fault hf hs]
  rfl

/-- The tokens of a text inside brackets, after a token. -/
def insideTokens (p : Token) (cs : List Char) : Option (List Token) :=
  tokensFrom (.brackets 0) (some p) cs

theorem outsideTokens_openBracket (ended : Bool) (cs : List Char) :
    outsideTokens ended ('[' :: cs) = (insideTokens .openBracket cs).map (.openBracket :: ·) := by
  have hf : LexerMode.outside.front ('[' :: cs) = '[' :: cs := rfl
  have hs : ∀ p, LexerMode.outside.scan p '[' cs = .token .openBracket cs := fun p =>
    Scan.outside_sign (by decide) (by decide) (by decide) p cs
  rw [outsideTokens, tokensFrom_of_token hf (hs _)]
  rfl

theorem insideTokens_of_token {p t : Token} {c : Char} {cs after : List Char}
    (hb : isBlank c = false) (hs : Scan.inside (some p) c cs = .token t after)
    (hm : (LexerMode.brackets 0).after t 0 after = .brackets 0) :
    insideTokens p (c :: cs) = (insideTokens t after).map (t :: ·) := by
  have hf : (LexerMode.brackets 0).front (c :: cs) = c :: cs :=
    skipBlanks_of_head (by rintro d ⟨⟩; exact hb)
  rw [insideTokens, tokensFrom_of_token hf hs, hm]
  rfl

theorem insideTokens_closeBracket (p : Token) (more : List Char) :
    insideTokens p (']' :: more) = (outsideTokens true more).map (.closeBracket :: ·) := by
  have hf : (LexerMode.brackets 0).front (']' :: more) = ']' :: more := rfl
  have hs : (LexerMode.brackets 0).scan (some p) ']' more = .token .closeBracket more := rfl
  rw [insideTokens, tokensFrom_of_token hf hs]
  exact congrArg _ (tokensFrom_outside .closeBracket more)

theorem insideTokens_operator (p : Token) (op : AttributeOperator) (more : List Char) :
    insideTokens p (op.sign.toList ++ more) =
      (insideTokens (.operator op) more).map (.operator op :: ·) := by
  cases op with
  | exactly => exact insideTokens_of_token (c := '=') (by decide) rfl rfl
  | containsWithSpace => exact insideTokens_of_token (c := '~') (by decide) rfl rfl
  | containsWithHyphen => exact insideTokens_of_token (c := '|') (by decide) rfl rfl
  | containsSubstring => exact insideTokens_of_token (c := '*') (by decide) rfl rfl
  | beginsWith => exact insideTokens_of_token (c := '^') (by decide) rfl rfl
  | endsWith => exact insideTokens_of_token (c := '$') (by decide) rfl rfl

theorem insideTokens_quoted (p : Token) (value : String) (more : List Char) :
    insideTokens p (quotedText value.toList ++ more) =
      (insideTokens (.quoted value) more).map (.quoted value :: ·) := by
  change insideTokens p ('"' :: (quotedBody value.toList ++ more)) = _
  refine insideTokens_of_token (by decide) ?_ rfl
  rw [Scan.inside, if_neg (by decide), if_pos (.inl rfl), Scan.quoted, readQuoted_quotedBody]
  simp

theorem Scan.operator?_of_head {c : Char} {cs : List Char} (h : cs.head? ≠ some '=') :
    Scan.operator? c cs = none :=
  if_neg h

theorem insideTokens_qualifierSign (p : Token) {sign : Char} {t : Token}
    (hs : QualifierSign sign t) {more : List Char} (h : more.head? ≠ some '=') :
    insideTokens p (sign :: more) = (insideTokens t more).map (t :: ·) := by
  cases hs
  all_goals
    refine insideTokens_of_token (by decide) ?_ rfl
    rw [Scan.inside, if_neg (by decide), if_neg (by decide), if_neg (by decide)]
    simp only [Scan.operator?_of_head h]
    rfl

theorem Scan.operator?_of_nameStart {c : Char} {cs ds : List Char}
    (h : (isNameChar c || startsEscape c cs) = true) : Scan.operator? c ds = none := by
  unfold Scan.operator?
  split
  next =>
    split
    next => exact absurd rfl (nameStart_ne h (by decide) (by decide))
    next => exact absurd rfl (nameStart_ne h (by decide) (by decide))
    next => exact absurd rfl (nameStart_ne h (by decide) (by decide))
    next => exact absurd rfl (nameStart_ne h (by decide) (by decide))
    next => exact absurd rfl (nameStart_ne h (by decide) (by decide))
    next => rfl
  next => rfl

/-- Where no value is due, a name inside brackets is read like one outside. -/
theorem Scan.inside_nameStart {c : Char} {cs : List Char} {p : Token}
    (h : (isNameChar c || startsEscape c cs) = true) (hp : ∀ op, p ≠ .operator op) :
    Scan.inside (some p) c cs = Scan.ident c cs := by
  have hne : ∀ d, isNameChar d = false → d ≠ '\\' → c ≠ d := fun d => nameStart_ne h
  have hq : ¬(c = '"' ∨ c = '\'') :=
    not_or.mpr ⟨hne _ (by decide) (by decide), hne _ (by decide) (by decide)⟩
  rw [Scan.inside, if_neg (hne _ (by decide) (by decide)), if_neg hq,
    if_neg (hne _ (by decide) (by decide))]
  simp only [Scan.operator?_of_nameStart h]
  rw [if_neg (hne _ (by decide) (by decide)), if_neg (hne _ (by decide) (by decide))]
  unfold Scan.valueOrName
  split
  next op heq => exact absurd (Option.some.inj heq) (hp op)
  next => rw [if_pos h]

theorem insideTokens_ident {p : Token} {cs name rest : List Char} (hp : ∀ op, p ≠ .operator op)
    (h : readName cs = (name, rest)) (hn : name ≠ []) :
    insideTokens p cs =
      (insideTokens (.ident (String.ofList name)) rest).map (.ident (String.ofList name) :: ·) := by
  obtain ⟨c, ds, rfl, hc⟩ := exists_cons_of_readName h hn
  refine insideTokens_of_token (isBlank_of_nameStart hc) ?_ rfl
  rw [Scan.inside_nameStart hc hp, Scan.ident, h]

end DocumentQuery
