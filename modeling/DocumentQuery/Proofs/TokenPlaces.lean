import Mathlib.Data.List.Infix
import DocumentQuery.Proofs.TokenStream

namespace DocumentQuery

/-- A scan leaves an end of the text in front of which the lexer stands. -/
theorem LexerMode.rest_scan_suffix {mode : LexerMode} {cs rest : List Char} {c : Char}
    (hf : mode.front cs = c :: rest) (p : Option Token) : (mode.scan p c rest).rest <:+ cs :=
  ((scan_rest_suffix hf p).trans (List.suffix_cons c rest)).trans (hf ▸ mode.front_suffix cs)

/-- The tokens that a text gives from one of its ends on, each with its place. A token is read
where the one before it stopped, and the end mark follows at the end of the text. -/
inductive Lexes (text : List Char) : LexerMode → Option Token → List Char → List Lexeme → Prop where
  | finish {mode : LexerMode} {p : Option Token} {cs : List Char} (hf : mode.front cs = [])
      (hm : ∀ opened, mode ≠ .brackets opened) : Lexes text mode p cs [⟨.finish, text.length⟩]
  | blanks {mode : LexerMode} {p : Option Token} {c : Char} {cs rest after : List Char}
      {ls : List Lexeme} (hf : mode.front cs = c :: rest)
      (hs : mode.scan p c rest = .blanks after) (hl : Lexes text mode p after ls) :
      Lexes text mode p cs ls
  | token {mode : LexerMode} {p : Option Token} {c : Char} {cs rest after : List Char} {t : Token}
      {ls : List Lexeme} (hf : mode.front cs = c :: rest)
      (hs : mode.scan p c rest = .token t after)
      (hl : Lexes text (mode.after t (text.length - (c :: rest).length) after) (some t) after ls) :
      Lexes text mode p cs (⟨t, text.length - (c :: rest).length⟩ :: ls)

theorem Lexer.lexes_readTokens {l last : Lexer} (hp : l.previous ≠ some .finish)
    (h : l.readTokens = (.ok (), last)) :
    ∃ ls, last.tokens = l.tokens ++ ls ∧ Lexes l.source.toList l.mode l.previous l.rest ls := by
  have hplace : ∀ (l : Lexer) rest, l.place rest = l.source.toList.length - rest.length :=
    fun l rest => by rw [place, String.length_toList]
  fun_induction readTokens l with
  | case1 l next hstep ih =>
    obtain ⟨c, cs, hf, ⟨t, after, hs, rfl⟩ | ⟨after, hs, rfl⟩⟩ := of_step_eq_again hstep
    · have ht : (l.push t (l.place (c :: cs)) after).previous ≠ some .finish := by
        simpa [push, previous] using LexerMode.token_scan_ne_finish hf hs
      obtain ⟨ls, hls, hl⟩ := ih ht h
      refine ⟨⟨t, l.place (c :: cs)⟩ :: ls, by simpa [push, tokens] using hls, ?_⟩
      rw [hplace]
      exact .token hf hs (hplace l _ ▸ hl)
    · obtain ⟨ls, hls, hl⟩ := ih hp h
      exact ⟨ls, hls, .blanks hf hs hl⟩
  | case2 l outcome stopped hstep =>
    cases h
    obtain ⟨hf, hm, rfl⟩ := (of_step_eq_done hstep).resolve_left hp
    refine ⟨[⟨.finish, l.place []⟩], by simp [push, tokens], ?_⟩
    rw [hplace]
    exact .finish hf hm

theorem lexes_of_tokenize {source : String} {ls : List Lexeme} (h : tokenize source = .ok ls) :
    Lexes source.toList .outside none (skipBlanks source.toList) ls := by
  unfold tokenize at h
  split at h
  next last hr =>
    cases h
    obtain ⟨ls, hls, hl⟩ := Lexer.lexes_readTokens (by simp [Lexer.previous, Lexer.ofText]) hr
    rw [show last.tokens = ls by simpa [Lexer.tokens, Lexer.ofText] using hls]
    exact hl
  next => cases h

namespace Lexes

variable {text cs : List Char} {mode : LexerMode} {p : Option Token} {ls : List Lexeme}

/-- The end mark stands last and nowhere else. -/
theorem exists_append_finish (h : Lexes text mode p cs ls) :
    ∃ us, ls = us ++ [⟨.finish, text.length⟩] ∧ ∀ l ∈ us, l.token ≠ .finish := by
  induction h with
  | finish => exact ⟨[], rfl, by simp⟩
  | blanks _ _ _ ih => exact ih
  | token hf hs _ ih =>
    obtain ⟨us, rfl, hus⟩ := ih
    exact ⟨_ :: us, rfl,
      List.forall_mem_cons.mpr ⟨LexerMode.token_scan_ne_finish hf hs, hus⟩⟩

theorem position_le (h : Lexes text mode p cs ls) : ∀ l ∈ ls, l.position ≤ text.length := by
  induction h with
  | finish => simp
  | blanks _ _ _ ih => exact ih
  | token _ _ _ ih => exact List.forall_mem_cons.mpr ⟨Nat.sub_le _ _, ih⟩

/-- The places rise, from the place of the end of the text that is read on. -/
theorem places (h : Lexes text mode p cs ls) (hcs : cs <:+ text) :
    (∀ l ∈ ls, text.length - cs.length ≤ l.position) ∧
      ls.Pairwise fun a b => a.position < b.position := by
  induction h with
  | finish => exact ⟨by simp, List.pairwise_singleton _ _⟩
  | @blanks mode p c cs rest after ls hf hs _ ih =>
    have hafter : after <:+ cs := by simpa [hs, Scan.rest] using LexerMode.rest_scan_suffix hf p
    obtain ⟨hle, hlt⟩ := ih (hafter.trans hcs)
    exact ⟨fun l hl => Nat.le_trans (Nat.sub_le_sub_left hafter.length_le _) (hle l hl), hlt⟩
  | @token mode p c cs rest after t ls hf hs _ ih =>
    have hfront : c :: rest <:+ cs := hf ▸ mode.front_suffix cs
    have hrest : after <:+ rest := by simpa [hs, Scan.rest] using mode.scan_rest_suffix hf p
    obtain ⟨hle, hlt⟩ := ih ((hrest.trans (List.suffix_cons c rest)).trans (hfront.trans hcs))
    have hsize := (hfront.trans hcs).length_le
    have hstart : ∀ l ∈ ls, text.length - (c :: rest).length < l.position := by
      intro l hl
      have := hle l hl
      have := hrest.length_le
      rw [List.length_cons] at *
      omega
    have hfirst := Nat.sub_le_sub_left hfront.length_le text.length
    refine ⟨List.forall_mem_cons.mpr ⟨hfirst, fun l hl => ?_⟩, List.pairwise_cons.mpr ⟨hstart, hlt⟩⟩
    exact Nat.le_trans hfirst (Nat.le_of_lt (hstart l hl))

end Lexes

namespace LexerMode

/-- The lexer stands at an argument only right after a pseudo-class. -/
def Fits (mode : LexerMode) (p : Option Token) (cs : List Char) : Prop :=
  mode = .arguments → (∃ name, p = some (.pseudoClass name)) ∧ cs.head? = some '('

theorem Fits.token {mode : LexerMode} {p : Option Token} {c : Char} {rest after : List Char}
    {t : Token} (hs : mode.scan p c rest = .token t after) (start : Nat) :
    (mode.after t start after).Fits (some t) after := by
  intro hm
  cases t with
  | pseudoClass name =>
    refine ⟨⟨name, rfl⟩, Decidable.byContradiction fun hn => ?_⟩
    simp [LexerMode.after, hn] at hm
  | openBracket | closeBracket | arguments => simp [LexerMode.after] at hm
  | _ =>
    obtain rfl : mode = .arguments := hm
    rcases Scan.arguments_cases rest with ⟨raw, _, ha, -⟩ | ha <;> cases hs.symm.trans ha

theorem Fits.blanks {mode : LexerMode} {p : Option Token} {c : Char} {rest after : List Char}
    (hs : mode.scan p c rest = .blanks after) : mode.Fits p after := by
  rintro rfl
  rcases Scan.arguments_cases rest with ⟨raw, _, ha, -⟩ | ha <;> cases hs.symm.trans ha

end LexerMode

/-- How one token of a text has been read, after the token `p` and before the tokens `ls`. -/
inductive TokenRead (text : List Char) (p : Option Token) (l : Lexeme) (ls : List Lexeme) :
    Prop where
  | intro {mode : LexerMode} {c : Char} {cs rest after : List Char} (hfit : mode.Fits p cs)
      (hf : mode.front cs = c :: rest) (hcs : cs <:+ text)
      (hplace : l.position = text.length - (c :: rest).length)
      (hs : mode.scan p c rest = .token l.token after)
      (hl : Lexes text (mode.after l.token l.position after) (some l.token) after ls)

/-- A reading can be cut at each of its tokens. -/
theorem Lexes.tokenRead {text cs : List Char} {mode : LexerMode} {p : Option Token}
    {l : Lexeme} {us vs : List Lexeme} (h : Lexes text mode p cs (us ++ l :: vs))
    (hfit : mode.Fits p cs) (hcs : cs <:+ text) (hl : l.token ≠ .finish) :
    TokenRead text ((us.getLast?.map Lexeme.token).or p) l vs := by
  generalize hls : us ++ l :: vs = ls at h
  induction h generalizing us with
  | finish =>
    cases us with
    | nil => cases hls; exact absurd rfl hl
    | cons u us => simp at hls
  | @blanks mode p c cs rest after ls hf hs _ ih =>
    have hafter : after <:+ cs := by simpa [hs, Scan.rest] using LexerMode.rest_scan_suffix hf p
    exact ih (.blanks hs) (hafter.trans hcs) hls
  | @token mode p c cs rest after t ls hf hs hnext ih =>
    have hafter : after <:+ cs := by simpa [hs, Scan.rest] using LexerMode.rest_scan_suffix hf p
    cases us with
    | nil =>
      cases hls
      exact .intro hfit hf hcs rfl hs hnext
    | cons u us =>
      obtain ⟨rfl, hls'⟩ := List.cons.inj hls
      have hread := ih (.token hs _) (hafter.trans hcs) hls'
      cases us with
      | nil => exact hread
      | cons v us => simpa [List.getLast?_cons] using hread

/-- The text of an argument stands in the text that it has been read from. -/
theorem TokenRead.infix_of_arguments {text : List Char} {p : Option Token} {l : Lexeme}
    {ls : List Lexeme} {raw : String} (h : TokenRead text p l ls) (hl : l.token = .arguments raw) :
    raw.toList <:+: text := by
  obtain @⟨mode, c, cs, rest, after, hfit, hf, hcs, -, hs, -⟩ := h
  rw [hl] at hs
  cases mode with
  | outside =>
    have ht := (Scan.outside_token hs).2
    simp [Token.separates, Token.beginsCompound] at ht
  | brackets opened =>
    have ht := (Scan.inside_token (isBlank_of_skipBlanks_eq_cons hf) hs).2
    simp [Token.standsInside] at ht
  | arguments =>
    rcases Scan.arguments_cases rest with ⟨inner, last, ha, hread⟩ | ha
    · cases hs.symm.trans ha
      have hcs' : c :: rest <:+ text := (show cs = c :: rest from hf) ▸ hcs
      have hrest : rest <:+ text := (List.suffix_cons c rest).trans hcs'
      have hinner : inner <:+: rest := ⟨[], ')' :: after, by simp [readArguments_eq_some hread]⟩
      rw [String.toList_ofList]
      exact hinner.trans hrest.isInfix
    · cases hs.symm.trans ha

theorem infix_of_tokenize {source raw : String} {ls : List Lexeme} {l : Lexeme}
    (h : tokenize source = .ok ls) (hm : l ∈ ls) (hl : l.token = .arguments raw) :
    raw.toList <:+: source.toList := by
  obtain ⟨us, vs, rfl⟩ := List.append_of_mem hm
  have hlex := lexes_of_tokenize h
  have hread := hlex.tokenRead (fun hmode => by cases hmode) (skipBlanks_suffix _) (by simp [hl])
  exact hread.infix_of_arguments hl

end DocumentQuery
