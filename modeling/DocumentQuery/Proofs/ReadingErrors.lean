import DocumentQuery.Proofs.GrammarReading

namespace DocumentQuery

section

variable (nested : String → Except SelectorError Selector) (source : String)

/-- The errors that can come of reading a selector from tokens of the text `source`: those of the
text itself, and the errors of the texts in its parentheses. -/
inductive ReadingError (ts : Cursor) : SelectorError → Prop where
  | malformed {rest : Cursor} (h : rest <:+ ts) (fault : Fault) :
      ReadingError ts (.malformed source rest.position fault)
  | unknownPseudoClass (name : String) : ReadingError ts (.unknownPseudoClass name)
  | unknownPseudoElement (name : String) : ReadingError ts (.unknownPseudoElement name)
  | missingValue (name : String) : ReadingError ts (.missingValue name)
  | endless : ReadingError ts .endless
  | nested {rest : Cursor} {raw : String} {e : SelectorError} (h : rest <:+ ts)
      (ht : rest.token = .arguments raw) (he : nested (trimmed raw) = .error e) :
      ReadingError ts e

/-- Whether a reading that began at a place of a token list ended further on in it or with an
error that can come of it. -/
def Cursor.Yields (ts : Cursor) : EStateM.Result SelectorError Cursor α → Prop
  | .ok _ rest => rest <:+ ts
  | .error e _ => ReadingError nested source ts e

def TokenReader.Reports (q : TokenReader α) : Prop :=
  ∀ ts : Cursor, ts.Yields nested source (q ts)

end

section

open TokenReader

variable {nested : String → Except SelectorError Selector} {source : String} {ts rest : Cursor}

theorem ReadingError.mono {e : SelectorError} (h : ReadingError nested source rest e)
    (hs : rest <:+ ts) : ReadingError nested source ts e := by
  cases h with
  | malformed h fault => exact .malformed (h.trans hs) fault
  | unknownPseudoClass name => exact .unknownPseudoClass name
  | unknownPseudoElement name => exact .unknownPseudoElement name
  | missingValue name => exact .missingValue name
  | endless => exact .endless
  | nested h ht he => exact .nested (h.trans hs) ht he

theorem Cursor.Yields.mono {result : EStateM.Result SelectorError Cursor α}
    (h : rest.Yields nested source result) (hs : rest <:+ ts) : ts.Yields nested source result := by
  cases result with
  | ok a after => exact List.IsSuffix.trans h hs
  | error e after => exact ReadingError.mono h hs

theorem Cursor.advance_suffix (ts : Cursor) : ts.advance <:+ ts := by
  match ts with
  | [] => exact List.suffix_rfl
  | [_] => exact List.suffix_rfl
  | t :: _ :: _ => exact List.suffix_cons t _

namespace TokenReader

theorem Reports.bind {q : TokenReader α} {f : α → TokenReader β} (hq : q.Reports nested source)
    (hf : ∀ a, (f a).Reports nested source) : (q >>= f).Reports nested source := by
  intro ts
  have hfirst := hq ts
  cases hr : q ts with
  | ok a mid =>
    rw [hr] at hfirst
    rw [bind_of_eq_ok hr]
    exact (hf a mid).mono hfirst
  | error e mid =>
    rw [hr] at hfirst
    rw [bind_eq_error hr]
    exact hfirst

theorem reports_pure (a : α) : Reports nested source (pure a) :=
  fun _ => List.suffix_rfl

theorem reports_peek : Reports nested source peek :=
  fun _ => List.suffix_rfl

theorem reports_get : Reports nested source get :=
  fun _ => List.suffix_rfl

theorem reports_advance : Reports nested source advance :=
  Cursor.advance_suffix

theorem reports_throw {e : SelectorError} (h : ∀ ts, ReadingError nested source ts e) :
    Reports nested source (throw e : TokenReader α) :=
  h

theorem reports_fail (fault : Fault) : Reports nested source (fail source fault : TokenReader α) :=
  fun _ => .malformed List.suffix_rfl fault

theorem reports_unexpected (expected : Expectation) :
    Reports nested source (unexpected source expected : TokenReader α) :=
  fun ts => .malformed List.suffix_rfl (.wrongToken expected ts.token)

end TokenReader

theorem reports_readTypeName : Reports nested source (readTypeName source) := by
  refine reports_peek.bind fun t => ?_
  cases t with
  | ident name => exact reports_advance.bind fun _ => reports_pure _
  | star => exact reports_advance.bind fun _ => reports_pure _
  | _ => exact reports_unexpected _

theorem reports_readQualified (ns : NamespaceTest) (plain : Option TypeTest) :
    Reports nested source (readQualified source ns plain) := by
  refine reports_peek.bind fun t => ?_
  split
  next => exact reports_advance.bind fun _ => reports_readTypeName.bind fun _ => reports_pure _
  next => exact reports_pure _

theorem reports_readTypeTest : Reports nested source (readTypeTest source) := by
  refine reports_peek.bind fun t => ?_
  cases t with
  | ident name => exact reports_advance.bind fun _ => reports_readQualified _ _
  | star => exact reports_advance.bind fun _ => reports_readQualified _ _
  | bar => exact reports_readQualified _ _
  | _ => exact reports_pure _

theorem reports_readAttributeNamespace :
    Reports nested source (readAttributeNamespace source) := by
  refine reports_peek.bind fun t => ?_
  cases t with
  | ident name =>
    refine reports_get.bind fun ts => ?_
    split
    next =>
      exact reports_advance.bind fun _ => reports_advance.bind fun _ => reports_pure _
    next => exact reports_pure _
  | star =>
    refine reports_advance.bind fun _ => reports_peek.bind fun t => ?_
    split
    next => exact reports_advance.bind fun _ => reports_pure _
    next => exact reports_unexpected _
  | bar => exact reports_advance.bind fun _ => reports_pure _
  | _ => exact reports_pure _

theorem reports_readComparison : Reports nested source (readComparison source) := by
  refine reports_peek.bind fun t => ?_
  cases t with
  | operator op =>
    refine reports_advance.bind fun _ => reports_peek.bind fun t => ?_
    cases t with
    | quoted value => exact reports_advance.bind fun _ => reports_pure _
    | ident value => exact reports_advance.bind fun _ => reports_pure _
    | _ => exact reports_unexpected _
  | _ => exact reports_pure _

theorem reports_readAttributeTest : Reports nested source (readAttributeTest source) := by
  refine reports_advance.bind fun _ => reports_readAttributeNamespace.bind fun ns =>
    reports_peek.bind fun t => ?_
  cases t with
  | ident name =>
    refine reports_advance.bind fun _ => reports_readComparison.bind fun (op, value) =>
      reports_peek.bind fun t => ?_
    split
    next => exact reports_advance.bind fun _ => reports_pure _
    next => exact reports_unexpected _
  | _ => exact reports_unexpected _

/-- What is wrong with an argument is wrong with its text or with the selector in it. -/
theorem readingError_argumentOf {name raw : String} {kind : ArgumentKind} {e : SelectorError}
    (ht : ts.token = .arguments raw)
    (h : argumentOf nested source name kind (some (raw, ts.position)) = .error e) :
    ReadingError nested source ts e := by
  have hself := List.suffix_rfl (l := ts)
  cases kind with
  | none =>
    cases h
    exact .malformed hself _
  | ignored => cases h
  | text =>
    rw [argumentOf_text] at h
    split at h <;> cases h
    exact .missingValue name
  | nth =>
    rw [argumentOf_nth] at h
    split at h <;> cases h
    exact .missingValue name
  | index =>
    rw [argumentOf_index] at h
    split at h
    next =>
      cases h
      exact .missingValue name
    next =>
      split at h <;> cases h
      exact .malformed hself _
  | selector =>
    rw [argumentOf_selector] at h
    split at h
    next =>
      cases h
      exact .malformed hself _
    next =>
      cases hn : nested (trimmed raw) with
      | ok s =>
        rw [hn] at h
        cases h
      | error e' =>
        rw [hn] at h
        cases h
        exact .nested hself ht hn

theorem readingError_argumentOf_none {name : String} {kind : ArgumentKind} {e : SelectorError}
    (h : argumentOf nested source name kind none = .error e) :
    ReadingError nested source ts e := by
  cases kind <;> cases h <;> exact .missingValue name

theorem readParentheses_eq (ts : Cursor) :
    readParentheses ts = .ok none ts ∨ ∃ raw, ts.token = .arguments raw ∧
      readParentheses ts = .ok (some (raw, ts.position)) ts.advance := by
  unfold readParentheses
  rw [bind_peek]
  cases ts.token with
  | arguments raw => exact .inr ⟨raw, rfl, rfl⟩
  | _ => exact .inl rfl

theorem reports_readPseudoClass (name : String) :
    Reports nested source (readPseudoClass nested source name) := by
  intro ts
  unfold readPseudoClass
  cases PseudoClassName.ofName? name with
  | none => exact .unknownPseudoClass name
  | some pseudo =>
    simp only
    -- the argument is looked at together with the token that it comes from
    rcases readParentheses_eq ts with hr | ⟨raw, ht, hr⟩
    · rw [bind_of_eq_ok hr]
      cases ha : argumentOf nested source name pseudo.argumentKind none with
      | ok argument => exact List.suffix_rfl
      | error e => exact readingError_argumentOf_none ha
    · rw [bind_of_eq_ok hr]
      cases ha : argumentOf nested source name pseudo.argumentKind (some (raw, ts.position)) with
      | ok argument => exact ts.advance_suffix
      | error e => exact readingError_argumentOf ht ha

theorem reports_readSimple (c : Compound) :
    Reports nested source (readSimple nested source c) := by
  refine reports_peek.bind fun t => ?_
  cases t with
  | idTest id =>
    simp only
    split
    next => exact reports_fail _
    next => exact reports_advance.bind fun _ => reports_pure _
  | classTest name => exact reports_advance.bind fun _ => reports_pure _
  | openBracket => exact reports_readAttributeTest.bind fun _ => reports_pure _
  | pseudoClass name =>
    exact reports_advance.bind fun _ => (reports_readPseudoClass name).bind fun _ => reports_pure _
  | pseudoElement name =>
    refine reports_advance.bind fun _ => ?_
    cases PseudoElement.ofName? name with
    | some test => exact reports_pure _
    | none => exact reports_throw fun _ => .unknownPseudoElement name
  | _ => exact reports_pure _

theorem reports_readSimples (c : Compound) :
    Reports nested source (readSimples nested source c) := by
  intro ts
  have hsimple := @reports_readSimple nested source c ts
  rw [readSimples]
  cases hr : readSimple nested source c ts with
  | error e rest =>
    rw [hr] at hsimple
    exact hsimple
  | ok found rest =>
    rw [hr] at hsimple
    cases found with
    | none => exact hsimple
    | some more =>
      simp only
      split
      next hlt => exact (reports_readSimples more rest).mono hsimple
      next => exact .endless
termination_by ts => ts.length

theorem reports_readCompound : Reports nested source (readCompound nested source) := by
  refine reports_readTypeTest.bind fun typeTest => (reports_readSimples _).bind fun c => ?_
  split
  next => exact reports_unexpected _
  next => exact reports_pure _

theorem reports_readSteps (k : Combinator) :
    Reports nested source (readSteps nested source k) := by
  intro ts
  have hcompound := @reports_readCompound nested source ts
  rw [readSteps]
  cases hr : readCompound nested source ts with
  | error e rest =>
    rw [hr] at hcompound
    exact hcompound
  | ok c rest =>
    rw [hr] at hcompound
    simp only
    split
    next next _ =>
      split
      next hlt =>
        have hlater := (reports_readSteps next rest.advance).mono
          (rest.advance_suffix.trans hcompound)
        cases hs : readSteps nested source next rest.advance with
        | ok steps after => rwa [hs] at hlater
        | error e after => rwa [hs] at hlater
      next => exact .endless
    next => exact hcompound
termination_by ts => ts.length

theorem reports_readGroup : Reports nested source (readGroup nested source) := by
  refine reports_peek.bind fun t => ?_
  cases t with
  | combinator first =>
    exact reports_advance.bind fun _ => (reports_readSteps first).bind fun _ => reports_pure _
  | _ => exact (reports_readSteps _).bind fun _ => reports_pure _

theorem reports_readGroups : Reports nested source (readGroups nested source) := by
  intro ts
  have hgroup := @reports_readGroup nested source ts
  rw [readGroups]
  cases hr : readGroup nested source ts with
  | error e rest =>
    rw [hr] at hgroup
    exact hgroup
  | ok g rest =>
    rw [hr] at hgroup
    simp only
    split
    next =>
      split
      next hlt =>
        have hlater := (reports_readGroups rest.advance).mono
          (rest.advance_suffix.trans hgroup)
        cases hs : readGroups nested source rest.advance with
        | ok groups after => rwa [hs] at hlater
        | error e after => rwa [hs] at hlater
      next => exact .endless
    next => exact hgroup
termination_by ts => ts.length

/-- Whatever the tokens are, only these errors can come of reading a selector from them. -/
theorem reports_readSelector : Reports nested source (readSelector nested source) := by
  refine reports_readGroups.bind fun groups => reports_peek.bind fun t => ?_
  split
  next => exact reports_pure _
  next => exact reports_unexpected _

end

theorem LexerMode.of_after_eq_brackets {mode : LexerMode} {t : Token} {start opened : Nat}
    {rest : List Char} (h : mode.after t start rest = .brackets opened) :
    opened = start ∨ mode = .brackets opened := by
  cases t with
  | openBracket =>
    cases h
    exact .inl rfl
  | closeBracket | arguments => cases h
  | pseudoClass name =>
    rw [after] at h
    split at h <;> cases h
  | _ => exact .inr h

namespace Lexer

/-- Whether brackets that are open have been opened in the text. -/
def Located (l : Lexer) : Prop :=
  ∀ opened, l.mode = .brackets opened → opened ≤ l.source.length

theorem place_le (l : Lexer) (rest : List Char) : l.place rest ≤ l.source.length :=
  Nat.sub_le _ _

theorem located_of_step_eq_again {l next : Lexer} (h : l.step = .again next) (hl : l.Located) :
    next.Located := by
  obtain ⟨c, cs, -, ⟨t, after, -, rfl⟩ | ⟨after, -, rfl⟩⟩ := of_step_eq_again h
  · intro opened hm
    rcases LexerMode.of_after_eq_brackets hm with rfl | hm
    · exact l.place_le _
    · exact hl opened hm
  · exact hl

theorem Stops.malformed {l last : Lexer} {e : SelectorError} (h : l.Stops (.error e) last)
    (hl : l.Located) :
    ∃ position fault, position ≤ l.source.length ∧ e = .malformed l.source position fault := by
  cases h with
  | openBrackets _ _ hm => exact ⟨_, _, hl _ hm, rfl⟩
  | fault => exact ⟨_, _, l.place_le _, rfl⟩

theorem malformed_of_readTokens {l : Lexer} {e : SelectorError} (hl : l.Located)
    (h : l.readTokens.1 = .error e) :
    ∃ position fault, position ≤ l.source.length ∧ e = .malformed l.source position fault := by
  cases hs : l.step with
  | done outcome last =>
    rw [readTokens_of_step_eq_done hs] at h
    obtain rfl : outcome = .error e := h
    exact (stops_of_step_eq_done hs).malformed hl
  | again next =>
    have hlt := length_rest_lt_of_step_eq_again hs
    rw [readTokens_of_step_eq_again hs] at h
    rw [← source_of_step_eq_again hs]
    exact malformed_of_readTokens (located_of_step_eq_again hs hl) h
termination_by l.rest.length

end Lexer

theorem tokenize_eq_error {text : String} {e : SelectorError} (h : tokenize text = .error e) :
    ∃ position fault, position ≤ text.length ∧ e = .malformed text position fault := by
  unfold tokenize at h
  split at h
  next => cases h
  next e' l hr =>
    cases h
    exact Lexer.malformed_of_readTokens (fun _ hm => by cases hm) (congrArg Prod.fst hr)

variable {nested : String → Except SelectorError Selector} {text : String} {e : SelectorError}

/-- A text is not read because it has no tokens or because of an error that comes of them. -/
theorem readText_eq_error (h : readText nested text = .error e) :
    (∃ position fault, position ≤ text.length ∧ e = .malformed text position fault) ∨
      ∃ ts, tokenize text = .ok ts ∧ ReadingError nested text ts e := by
  unfold readText at h
  cases ht : tokenize text with
  | error e' =>
    simp only [ht, bind, Except.bind] at h
    cases h
    exact .inl (tokenize_eq_error ht)
  | ok ts =>
    simp only [ht, bind, Except.bind] at h
    have hreports := @reports_readSelector nested text ts
    cases hr : readSelector nested text ts with
    | ok s rest =>
      rw [hr] at h
      cases h
    | error e' rest =>
      rw [hr] at h hreports
      cases h
      exact .inr ⟨ts, rfl, hreports⟩

/-- However deep it was when selectors were nested too deep, the limit that is named is that of
the whole text. -/
theorem readNested_eq_nestedTooDeep {limit levels named : Nat}
    (h : readNested limit levels text = .error (.nestedTooDeep named)) : named = limit := by
  induction levels generalizing text with
  | zero =>
    cases h
    rfl
  | succ levels ih =>
    rcases readText_eq_error h with ⟨_, _, -, he⟩ | ⟨ts, -, hr⟩
    · cases he
    · cases hr with
      | nested _ _ he => exact ih he

end DocumentQuery
