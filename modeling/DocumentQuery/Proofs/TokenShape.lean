import DocumentQuery.Proofs.TokenPlaces

namespace DocumentQuery

/-- Brackets open and close in turn; the tokens between them and those outside are such as may
stand there. -/
inductive Bracketed : List Token → Prop where
  | nil : Bracketed []
  | outside {t : Token} {ts : List Token} (ht : t.standsOutside = true) (hts : Bracketed ts) :
      Bracketed (t :: ts)
  | brackets {us ts : List Token} (hus : ∀ u ∈ us, u.standsInside = true) (hts : Bracketed ts) :
      Bracketed (.openBracket :: (us ++ .closeBracket :: ts))

namespace LexerMode

theorem token_readAt {mode : LexerMode} {p : Option Token} {c : Char} {cs rest after : List Char}
    {t : Token} (hfit : mode.Fits p cs) (hf : mode.front cs = c :: rest)
    (hs : mode.scan p c rest = .token t after) : t.ReadAt c := by
  cases mode with
  | outside => exact (Scan.outside_token hs).1
  | brackets opened => exact (Scan.inside_token (isBlank_of_skipBlanks_eq_cons hf) hs).1
  | arguments =>
    have hc := (hfit rfl).2
    rw [show cs = c :: rest from hf] at hc
    rcases Scan.arguments_cases rest with ⟨raw, _, ha, -⟩ | ha <;> cases hs.symm.trans ha
    exact Scan.readAt_of_begins (Option.some.inj hc) rfl

/-- What the tokens that are read from a state on are like: open brackets are closed first. -/
def Closes (mode : LexerMode) (ts : List Token) : Prop :=
  match mode with
  | .brackets _ =>
    ∃ us vs, ts = us ++ .closeBracket :: vs ∧ (∀ u ∈ us, u.standsInside = true) ∧ Bracketed vs
  | _ => Bracketed ts

theorem Closes.cons {mode : LexerMode} {p : Option Token} {c : Char} {cs rest after : List Char}
    {t : Token} {ts : List Token} {start : Nat} (hf : mode.front cs = c :: rest)
    (hs : mode.scan p c rest = .token t after) (hts : (mode.after t start after).Closes ts) :
    mode.Closes (t :: ts) := by
  cases mode with
  | outside =>
    rcases Token.standsOutside_of_separates (Scan.outside_token hs).2 with rfl | ht
    · obtain ⟨us, vs, rfl, hus, hvs⟩ := hts
      exact .brackets hus hvs
    · refine .outside ht ?_
      cases t with
      | pseudoClass name =>
        rw [LexerMode.after] at hts
        split at hts <;> exact hts
      | openBracket | closeBracket | operator | quoted | finish => cases ht
      | _ => exact hts
  | arguments =>
    rcases Scan.arguments_cases rest with ⟨raw, _, ha, -⟩ | ha <;> cases hs.symm.trans ha
    exact .outside rfl hts
  | brackets opened =>
    rcases (Scan.inside_token (isBlank_of_skipBlanks_eq_cons hf) hs).2 with rfl | ht
    · exact ⟨[], ts, rfl, by simp, hts⟩
    · have hmode : (LexerMode.brackets opened).after t start after = .brackets opened := by
        cases t <;> first | rfl | cases ht
      rw [hmode] at hts
      obtain ⟨us, vs, rfl, hus, hvs⟩ := hts
      exact ⟨t :: us, vs, rfl, List.forall_mem_cons.mpr ⟨ht, hus⟩, hvs⟩

end LexerMode

namespace Lexes

variable {text cs : List Char} {mode : LexerMode} {p : Option Token} {ls : List Lexeme}

theorem closes (h : Lexes text mode p cs ls) :
    ∃ ts, ls.map Lexeme.token = ts ++ [.finish] ∧ mode.Closes ts := by
  induction h with
  | @finish mode p cs hf hm =>
    refine ⟨[], rfl, ?_⟩
    cases mode with
    | brackets opened => exact absurd rfl (hm opened)
    | outside | arguments => exact .nil
  | blanks _ _ _ ih => exact ih
  | token hf hs _ ih =>
    obtain ⟨ts, hls, hts⟩ := ih
    exact ⟨_ :: ts, by rw [List.map_cons, hls, List.cons_append], hts.cons hf hs⟩

/-- Where a compound is to follow, the next token begins one. -/
theorem beginsCompound_of_goesOn {cs : List Char} (h : Lexes text .outside p (skipBlanks cs) ls)
    (hg : Scan.goesOn (skipBlanks cs) = true) :
    ∃ l, ls.head? = some l ∧ l.token.beginsCompound = true := by
  have hb : ∀ c rest, LexerMode.outside.front (skipBlanks cs) = c :: rest → isBlank c = false :=
    fun c rest hf => isBlank_of_skipBlanks_eq_cons hf
  cases h with
  | finish hf =>
    rw [show skipBlanks cs = [] from hf] at hg
    cases hg
  | @blanks _ _ c _ rest _ _ hf hs => exact absurd (Scan.outside_blanks hs) (by simp [hb c rest hf])
  | @token _ _ c _ rest after t ls hf hs =>
    refine ⟨_, rfl, ?_⟩
    rw [show skipBlanks cs = c :: rest from hf] at hg
    obtain ⟨hread, ht⟩ := Scan.outside_token hs
    refine ht.resolve_left fun hsep => ?_
    rw [Token.goesOn_of_separates hsep hread.begins (hb c rest hf)] at hg
    cases hg

end Lexes

namespace TokenRead

variable {text : List Char} {p : Option Token} {l : Lexeme} {ls : List Lexeme}

/-- The character at the place of a token is the one that the token has been read at. -/
theorem readAt (h : TokenRead text p l ls) :
    ∃ c, text[l.position]? = some c ∧ l.token.ReadAt c := by
  obtain @⟨mode, c, cs, rest, after, hfit, hf, hcs, hplace, hs, -⟩ := h
  refine ⟨c, ?_, LexerMode.token_readAt hfit hf hs⟩
  obtain ⟨front, rfl⟩ := (hf ▸ mode.front_suffix cs).trans hcs
  rw [hplace]
  simp

theorem pseudoClass_of_arguments (h : TokenRead text p l ls) {raw : String}
    (hl : l.token = .arguments raw) : ∃ name, p = some (.pseudoClass name) := by
  obtain @⟨mode, c, cs, rest, after, hfit, hf, -, -, hs, -⟩ := h
  rw [hl] at hs
  cases mode with
  | outside => simpa [Token.separates, Token.beginsCompound] using (Scan.outside_token hs).2
  | brackets opened =>
    have hb := isBlank_of_skipBlanks_eq_cons hf
    simpa [Token.standsInside] using (Scan.inside_token hb hs).2
  | arguments => exact (hfit rfl).1

theorem descendant (h : TokenRead text p l ls) (hl : l.token = .combinator .descendant) :
    (p.map Token.endsCompound).getD false = true ∧
      ∃ next, ls.head? = some next ∧ next.token.beginsCompound = true := by
  obtain @⟨mode, c, cs, rest, after, -, hf, -, -, hs, hnext⟩ := h
  rw [hl] at hs hnext
  cases mode with
  | outside =>
    obtain ⟨hp, hg, rfl⟩ := Scan.outside_descendant hs
    exact ⟨hp, hnext.beginsCompound_of_goesOn hg⟩
  | brackets opened =>
    have hb := isBlank_of_skipBlanks_eq_cons hf
    have ht := (Scan.inside_token hb hs).2
    simp [Token.standsInside] at ht
  | arguments => rcases Scan.arguments_cases rest with ⟨raw, _, ha, -⟩ | ha <;> cases hs.symm.trans ha

end TokenRead

/-- The shape of the tokens of a text. The end mark stands last, at the end of the text, and
nowhere else; the other tokens begin, in the order of the text, at a character that fits them.
Brackets hold what may stand in them, arguments come right after pseudo-classes, and descendants
stand between the end of a compound and the begin of another. -/
structure WellLexed (source : String) (ls : List Lexeme) : Prop where
  finish : ∃ us, ls = us ++ [⟨.finish, source.length⟩] ∧ ∀ l ∈ us, l.token ≠ .finish
  places : ls.Pairwise fun a b => a.position < b.position
  begins : ∀ l ∈ ls, l.token ≠ .finish →
    ∃ c, source.toList[l.position]? = some c ∧ l.token.Begins c
  names : ∀ l ∈ ls, ∀ name ∈ l.token.name?, name ≠ ""
  brackets : ∃ ts, ls.map Lexeme.token = ts ++ [.finish] ∧ Bracketed ts
  arguments : ∀ us l vs raw, ls = us ++ l :: vs → l.token = .arguments raw →
    ∃ last name, us.getLast? = some last ∧ last.token = .pseudoClass name
  descendants : ∀ us l vs, ls = us ++ l :: vs → l.token = .combinator .descendant →
    (∃ last, us.getLast? = some last ∧ last.token.endsCompound = true) ∧
      ∃ next, vs.head? = some next ∧ next.token.beginsCompound = true

theorem tokenize_wellLexed {source : String} {ls : List Lexeme} (h : tokenize source = .ok ls) :
    WellLexed source ls := by
  have hlex := lexes_of_tokenize h
  have hskip := skipBlanks_suffix source.toList
  have hread : ∀ us l vs, ls = us ++ l :: vs → l.token ≠ .finish →
      TokenRead source.toList (us.getLast?.map Lexeme.token) l vs := by
    intro us l vs hls hl
    rw [← Option.or_none (o := us.getLast?.map Lexeme.token)]
    exact (hls ▸ hlex).tokenRead (fun hm => by cases hm) hskip hl
  constructor
  case finish => exact String.length_toList (s := source) ▸ hlex.exists_append_finish
  case places => exact (hlex.places hskip).2
  case begins =>
    intro l hm hl
    obtain ⟨us, vs, hls⟩ := List.append_of_mem hm
    exact (hread us l vs hls hl).readAt.imp fun c hc => hc.imp_right Token.ReadAt.begins
  case names =>
    intro l hm name hn
    obtain ⟨us, vs, hls⟩ := List.append_of_mem hm
    have hl : l.token ≠ .finish := fun hl => by simp [hl, Token.name?] at hn
    obtain ⟨c, -, hc⟩ := (hread us l vs hls hl).readAt
    exact hc.name name hn
  case brackets => exact hlex.closes
  case arguments =>
    intro us l vs raw hls hl
    obtain ⟨name, hp⟩ := (hread us l vs hls (by simp [hl])).pseudoClass_of_arguments hl
    obtain ⟨last, hlast, ht⟩ := Option.map_eq_some_iff.mp hp
    exact ⟨last, name, hlast, ht⟩
  case descendants =>
    intro us l vs hls hl
    obtain ⟨hp, hnext⟩ := (hread us l vs hls (by simp [hl])).descendant hl
    refine ⟨?_, hnext⟩
    cases hlast : us.getLast? with
    | none => simp [hlast] at hp
    | some last => exact ⟨last, rfl, by simpa [hlast] using hp⟩

/-- The tokens of a text in which blanks stand between compounds, around signs and in brackets. -/
def spacedLexemes : List Lexeme :=
  [⟨.ident "a", 0⟩, ⟨.pseudoClass "not", 1⟩, ⟨.arguments "b", 5⟩, ⟨.combinator .descendant, 8⟩,
    ⟨.openBracket, 9⟩, ⟨.ident "c", 10⟩, ⟨.operator .exactly, 12⟩, ⟨.ident "d", 14⟩,
    ⟨.closeBracket, 15⟩, ⟨.comma, 17⟩, ⟨.ident "e", 19⟩, ⟨.finish, 20⟩]

theorem wellLexed_spacedLexemes :
    tokenize "a:not(b) [c = d] , e" = .ok spacedLexemes ∧
      WellLexed "a:not(b) [c = d] , e" spacedLexemes := by
  have htokens : tokenize "a:not(b) [c = d] , e" = .ok spacedLexemes := by decide +kernel
  exact ⟨htokens, tokenize_wellLexed htokens⟩

end DocumentQuery
