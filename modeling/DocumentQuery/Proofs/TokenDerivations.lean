import DocumentQuery.Proofs.GrammarReading
import DocumentQuery.SelectorEquality

namespace DocumentQuery

/-- Whether a text is read as some tokens and an end mark. -/
def TextReads (text : String) (ts : List Token) : Prop :=
  ∃ lexemes, tokenize text = .ok lexemes ∧ lexemes.map Lexeme.token = ts ++ [.finish]

/-- Whether tokens derive a selector in which selectors are nested at most so deep. A nested
selector is derived from the tokens of its text, on one level less. -/
def TokensDerive : Nat → List Token → Selector → Prop
  | 0, ts, s => SelectorDerives (fun _ _ => False) ts s
  | levels + 1, ts, s =>
    SelectorDerives (fun text n => ∃ us, TextReads text us ∧ TokensDerive levels us n) ts s

theorem textReads_iff {text : String} {ts : List Token} :
    TextReads text ts ↔
      tokensFrom .outside none (skipBlanks text.toList) = some (ts ++ [.finish]) := by
  rw [← tokenize_tokens, TextReads]
  cases tokenize text <;> simp [Except.toOption]

theorem tokensDerive_eq (levels : Nat) :
    TokensDerive levels = SelectorDerives (TextDerives levels) := by
  induction levels with
  | zero => rfl
  | succ levels ih =>
    have hnested : (fun text n => ∃ us, TextReads text us ∧ TokensDerive levels us n) =
        TextDerives (levels + 1) := by
      funext text n
      simp only [textReads_iff, ih, TextDerives]
    funext ts s
    rw [TokensDerive, hnested]

/-- From tokens up to an end mark a selector is read exactly if the tokens derive it. -/
theorem selectorReader_eq_ok_iff {limit : Nat} {source : String} {lexemes : List Lexeme}
    {position : Nat} {s : Selector} (hn : ∀ t ∈ lexemes, t.token ≠ .finish) :
    (∃ rest, selectorReader limit source (lexemes ++ [⟨.finish, position⟩]) = .ok s rest) ↔
      TokensDerive limit (lexemes.map Lexeme.token) s := by
  have hfinish : .finish ∉ lexemes.map Lexeme.token := by simpa using hn
  have hnested : finds (readNested limit limit) = TextDerives limit := by
    funext text n
    exact propext readNested_eq_ok_iff
  rw [selectorReader, readSelector_eq_ok_iff hfinish, hnested, tokensDerive_eq]

/-- The tokens of `*|a[|b=c]>:NOT( > d )`. -/
def qualifiedTokens : List Token :=
  [.star, .bar, .ident "a", .openBracket, .bar, .ident "b", .operator .exactly, .ident "c",
    .closeBracket, .combinator .child, .pseudoClass "NOT", .arguments " > d "]

def qualifiedSelector : Selector :=
  let inner : Compound := { typeTest := some ⟨none, some "d"⟩ }
  let first : Compound :=
    { typeTest := some ⟨some .any, some "a"⟩
      attributes := [⟨some .without, "b", .exactly, some "c"⟩] }
  let second : Compound := { pseudoClasses := [⟨.not, .selector ⟨[⟨[⟨.child, inner⟩]⟩]⟩⟩] }
  ⟨[⟨[⟨.descendant, first⟩, ⟨.child, second⟩]⟩]⟩

theorem qualifiedTokens_derive :
    (∀ t ∈ qualifiedTokens.map (Lexeme.mk · 0), t.token ≠ .finish) ∧
      TokensDerive 1 qualifiedTokens qualifiedSelector := by
  have hn : ∀ t ∈ qualifiedTokens.map (Lexeme.mk · 0), t.token ≠ .finish := by decide
  refine ⟨hn, (@selectorReader_eq_ok_iff 1 "" _ 0 _ hn).mp ?_⟩
  have hread : (selectorReader 1 "").run' (qualifiedTokens.map (Lexeme.mk · 0) ++ [⟨.finish, 0⟩]) =
      some qualifiedSelector := by decide +kernel
  unfold EStateM.run' EStateM.run at hread
  cases hr : selectorReader 1 "" (qualifiedTokens.map (Lexeme.mk · 0) ++ [⟨.finish, 0⟩]) with
  | ok s rest =>
    rw [hr] at hread
    cases hread
    exact ⟨rest, rfl⟩
  | error e rest =>
    rw [hr] at hread
    cases hread

end DocumentQuery
