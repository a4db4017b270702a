import DocumentQuery.Lexer

namespace DocumentQuery

namespace Token

/-- The name in a token that has one. -/
def name? : Token → Option String
  | .ident name | .idTest name | .classTest name | .pseudoClass name | .pseudoElement name =>
    some name
  | _ => none

/-- Whether a token can begin at a character of the text. -/
def Begins : Token → Char → Prop
  | .ident _, c => isBlank c = false
  | .idTest _, c => c = '#'
  | .classTest _, c => c = '.'
  | .star, c => c = '*'
  | .bar, c => c = '|'
  | .pseudoClass _, c | .pseudoElement _, c => c = ':'
  | .arguments _, c => c = '('
  | .openBracket, c => c = '['
  | .closeBracket, c => c = ']'
  | .operator op, c => op.sign.toList.head? = some c
  | .quoted _, c => c = '"' ∨ c = '\''
  | .combinator .descendant, c => isBlank c = true
  | .combinator k, c => k.sign.toList.head? = some c
  | .comma, c => c = ','
  | .finish, _ => False

/-- Whether a token may stand between brackets. -/
def standsInside : Token → Bool
  | .ident _ | .star | .bar | .operator _ | .quoted _ => true
  | _ => false

/-- Whether a token may stand outside brackets. -/
def standsOutside : Token → Bool
  | .openBracket | .closeBracket | .operator _ | .quoted _ | .finish => false
  | _ => true

/-- Whether a token separates two compounds. -/
def separates : Token → Bool
  | .comma | .combinator _ => true
  | _ => false

/-- Whether a compound may begin with this token. -/
def beginsCompound : Token → Bool
  | .ident _ | .idTest _ | .classTest _ | .star | .bar | .pseudoClass _ | .pseudoElement _
  | .openBracket => true
  | _ => false

end Token

/-- What holds of a token that is read at a character. -/
structure Token.ReadAt (t : Token) (c : Char) : Prop where
  begins : t.Begins c
  name : ∀ name ∈ t.name?, name ≠ ""

namespace Scan

theorem named_eq_token {missing : Fault} {make : String → Token} {cs rest : List Char}
    {t : Token} (h : named missing make cs = .token t rest) :
    ∃ name, name ≠ [] ∧ t = make (String.ofList name) := by
  unfold named at h
  split at h
  next => cases h
  next name _ hne _ =>
    cases h
    exact ⟨name, hne, rfl⟩

/-- A value or a name is never empty. -/
theorem valueOrName_eq_token {p : Option Token} {c : Char} {cs rest : List Char} {t : Token}
    (h : valueOrName p c cs = .token t rest) :
    (∃ op, p = some (.operator op) ∧ t = .ident (String.ofList (readValue (c :: cs)).1)) ∨
      (isNameChar c || startsEscape c cs) = true ∧
        t = .ident (String.ofList (readName (c :: cs)).1) := by
  unfold valueOrName ident at h
  split at h
  next op =>
    cases h
    exact .inl ⟨op, rfl, rfl⟩
  next =>
    split at h
    next hn =>
      cases h
      exact .inr ⟨hn, rfl⟩
    next => cases h

theorem named_readAt {missing : Fault} {make : String → Token} {c : Char} {cs rest : List Char}
    {t : Token} (h : named missing make cs = .token t rest) (hb : ∀ name, (make name).Begins c)
    (hn : ∀ name, (make name).name? = some name) : t.ReadAt c := by
  obtain ⟨name, hne, rfl⟩ := named_eq_token h
  refine ⟨hb _, fun s hs => ?_⟩
  obtain rfl := Option.some.inj ((hn _).symm.trans hs)
  exact mt String.ofList_eq_empty_iff.mp hne

theorem ident_readAt {c : Char} {name : List Char} (hb : isBlank c = false) (hn : name ≠ []) :
    (Token.ident (String.ofList name)).ReadAt c := by
  refine ⟨hb, fun s hs => ?_⟩
  obtain rfl := Option.some.inj hs
  exact mt String.ofList_eq_empty_iff.mp hn

theorem readAt_of_begins {t : Token} {c : Char} (hb : t.Begins c) (hn : t.name? = none) :
    t.ReadAt c :=
  ⟨hb, by simp [hn]⟩

theorem pseudo_token {cs rest : List Char} {t : Token} (h : pseudo cs = .token t rest) :
    t.ReadAt ':' ∧ t.beginsCompound = true := by
  unfold pseudo at h
  split at h
  all_goals
    refine ⟨named_readAt h (fun _ => rfl) (fun _ => rfl), ?_⟩
    obtain ⟨name, -, rfl⟩ := named_eq_token h
    rfl

/-- Outside brackets a token that begins at no blank separates two compounds or begins one. -/
theorem sign_token {c : Char} {cs rest : List Char} {t : Token}
    (h : sign c cs = .token t rest) :
    t.ReadAt c ∧ (t.separates = true ∨ t.beginsCompound = true) := by
  unfold sign at h
  split at h
  case h_7 | h_8 =>
    refine ⟨named_readAt h (fun _ => rfl) (fun _ => rfl), ?_⟩
    obtain ⟨name, -, rfl⟩ := named_eq_token h
    exact .inr rfl
  case h_9 => exact (pseudo_token h).imp_right .inr
  case h_11 => cases h
  all_goals
    cases h
    exact ⟨readAt_of_begins rfl rfl, by decide⟩

theorem outside_token {p : Option Token} {c : Char} {cs rest : List Char} {t : Token}
    (h : outside p c cs = .token t rest) :
    t.ReadAt c ∧ (t.separates = true ∨ t.beginsCompound = true) := by
  unfold outside at h
  split at h
  next hb =>
    unfold gap at h
    split at h
    next =>
      cases h
      exact ⟨readAt_of_begins hb rfl, .inl rfl⟩
    next => cases h
  next hb =>
    rw [Bool.not_eq_true] at hb
    split at h
    next hn =>
      cases h
      exact ⟨ident_readAt hb (readName_ne_nil hn), .inr rfl⟩
    next => exact sign_token h

/-- Descendants are read at blanks between the end of a compound and the begin of another. -/
theorem outside_descendant {p : Option Token} {c : Char} {cs rest : List Char}
    (h : outside p c cs = .token (.combinator .descendant) rest) :
    (p.map Token.endsCompound).getD false = true ∧ goesOn rest = true ∧ rest = skipBlanks cs := by
  have hb : isBlank c = true := (outside_token h).1.begins
  rw [outside, if_pos hb, gap] at h
  split at h
  next hg =>
    cases h
    exact ⟨(Bool.and_eq_true_iff.mp hg).1, (Bool.and_eq_true_iff.mp hg).2, rfl⟩
  next => cases h

theorem outside_blanks {p : Option Token} {c : Char} {cs rest : List Char}
    (h : outside p c cs = .blanks rest) : isBlank c = true := by
  unfold outside ident sign pseudo named at h
  repeat' split at h
  all_goals first
    | assumption
    | cases h

theorem operator?_begins {c : Char} {cs : List Char} {op : AttributeOperator}
    (h : operator? c cs = some op) : (Token.operator op).Begins c := by
  unfold operator? at h
  split at h
  next =>
    split at h
    all_goals first
      | cases h; rfl
      | cases h
  next => cases h

theorem inside_token {p : Option Token} {c : Char} {cs rest : List Char} {t : Token}
    (hb : isBlank c = false) (h : inside p c cs = .token t rest) :
    t.ReadAt c ∧ (t = .closeBracket ∨ t.standsInside = true) := by
  unfold inside at h
  by_cases hc : c = ']'
  · rw [if_pos hc] at h
    cases h
    exact ⟨readAt_of_begins hc rfl, .inl rfl⟩
  rw [if_neg hc] at h
  by_cases hq : c = '"' ∨ c = '\''
  · rw [if_pos hq, quoted] at h
    split at h <;> cases h
    exact ⟨readAt_of_begins hq rfl, .inr rfl⟩
  rw [if_neg hq] at h
  by_cases he : c = '='
  · rw [if_pos he] at h
    cases h
    exact ⟨readAt_of_begins (he ▸ rfl) rfl, .inr rfl⟩
  rw [if_neg he] at h
  split at h
  next op ho =>
    cases h
    exact ⟨readAt_of_begins (operator?_begins ho) rfl, .inr rfl⟩
  by_cases hbar : c = '|'
  · rw [if_pos hbar] at h
    cases h
    exact ⟨readAt_of_begins hbar rfl, .inr rfl⟩
  rw [if_neg hbar] at h
  by_cases hstar : c = '*'
  · rw [if_pos hstar] at h
    cases h
    exact ⟨readAt_of_begins hstar rfl, .inr rfl⟩
  rw [if_neg hstar] at h
  rcases valueOrName_eq_token h with ⟨_, -, rfl⟩ | ⟨hn, rfl⟩
  · exact ⟨ident_readAt hb (readValue_ne_nil hb hc), .inr rfl⟩
  · exact ⟨ident_readAt hb (readName_ne_nil hn), .inr rfl⟩

/-- What stands at an opening parenthesis right after a pseudo-class is an argument or open. -/
theorem arguments_cases (cs : List Char) :
    (∃ raw rest, arguments cs = .token (.arguments (String.ofList raw)) rest ∧
      readArguments {} cs = some (raw, rest)) ∨ arguments cs = .fault .openArguments [] := by
  unfold arguments
  split
  next raw rest h => exact .inl ⟨raw, rest, rfl, h⟩
  next => exact .inr rfl

end Scan

theorem Token.standsOutside_of_separates {t : Token}
    (h : t.separates = true ∨ t.beginsCompound = true) :
    t = .openBracket ∨ t.standsOutside = true := by
  cases t <;> simp_all [separates, beginsCompound, standsOutside]

theorem Token.goesOn_of_separates {t : Token} {c : Char} (ht : t.separates = true)
    (hc : t.Begins c) (hb : isBlank c = false) (cs : List Char) :
    Scan.goesOn (c :: cs) = false := by
  cases t with
  | comma =>
    obtain rfl : c = ',' := hc
    rfl
  | combinator k =>
    cases k with
    | descendant => exact absurd hc (by simp [Begins, hb])
    | child | adjacentSibling | generalSibling =>
      obtain rfl := Option.some.inj hc
      rfl
  | _ => cases ht

/-- Only the end of the text gives the end mark. -/
theorem LexerMode.token_scan_ne_finish {mode : LexerMode} {p : Option Token} {c : Char}
    {cs rest after : List Char} {t : Token} (hf : mode.front cs = c :: rest)
    (hs : mode.scan p c rest = .token t after) : t ≠ .finish := by
  rintro rfl
  cases mode with
  | outside => exact (Scan.outside_token hs).1.begins
  | brackets opened => exact (Scan.inside_token (isBlank_of_skipBlanks_eq_cons hf) hs).1.begins
  | arguments =>
    rcases Scan.arguments_cases rest with ⟨raw, _, ha, -⟩ | ha <;> cases hs.symm.trans ha

/-- Only outside of brackets are there blanks without a meaning. -/
theorem LexerMode.scan_blanks {mode : LexerMode} {p : Option Token} {c : Char}
    {rest after : List Char} (hs : mode.scan p c rest = .blanks after) : mode = .outside := by
  cases mode with
  | outside => rfl
  | brackets opened =>
    change Scan.inside p c rest = .blanks after at hs
    unfold Scan.inside Scan.quoted Scan.valueOrName Scan.ident at hs
    repeat' split at hs
    all_goals cases hs
  | arguments => rcases Scan.arguments_cases rest with ⟨raw, _, ha, -⟩ | ha <;> cases hs.symm.trans ha

end DocumentQuery
