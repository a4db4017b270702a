import DocumentQuery.Proofs.NestingLimit
import DocumentQuery.Proofs.ReadingErrors
import DocumentQuery.Proofs.RoundTrip
import DocumentQuery.Proofs.TokenDerivations

namespace DocumentQuery

/-- The error with another limit on the nesting of selectors. -/
def SelectorError.underLimit (limit : Nat) : SelectorError → SelectorError
  | .nestedTooDeep _ => .nestedTooDeep limit
  | e => e

/-- What is read does not depend on the limit but on the levels that are left; only the error says
which limit it was. -/
theorem readNested_underLimit (limit more levels : Nat) (text : String) :
    readNested more levels text =
      (readNested limit levels text).mapError (SelectorError.underLimit more) := by
  have hcut := @cutAt_readNested limit more levels levels Nat.le.refl text
  have hback := @cutAt_readNested more limit levels levels Nat.le.refl text
  cases hl : readNested limit levels text with
  | ok s =>
    rw [hl] at hcut
    exact (hcut.resolve_right nofun).symm
  | error e =>
    by_cases he : ∃ named, e = .nestedTooDeep named
    · obtain ⟨named, rfl⟩ := he
      rcases hback with hm | hm
      · rw [hl] at hm
        rw [hm, readNested_eq_nestedTooDeep hm]
        rfl
      · exact hm
    · have hsame : e.underLimit more = e := by
        cases e with
        | nestedTooDeep named => exact absurd ⟨named, rfl⟩ he
        | _ => rfl
      rw [hl] at hcut
      have hm := hcut.resolve_right fun hd => he ⟨limit, Except.error.inj hd⟩
      rw [← hm, Except.mapError, hsame]

section

open TokenReader

variable {nested : String → Except SelectorError Selector} {source name raw : String}
  {pseudo : PseudoClassName} {ts rest : Cursor} {e : SelectorError}

theorem readSimples_eq_error {c : Compound} (h : readSimple nested source c ts = .error e rest) :
    readSimples nested source c ts = .error e rest := by
  rw [readSimples, h]

theorem readSteps_eq_error {k : Combinator} (h : readCompound nested source ts = .error e rest) :
    readSteps nested source k ts = .error e rest := by
  rw [readSteps, h]

theorem readGroups_eq_error (h : readGroup nested source ts = .error e rest) :
    readGroups nested source ts = .error e rest := by
  rw [readGroups, h]

theorem readPseudoClass_eq_error (hp : PseudoClassName.ofName? name = some pseudo)
    (ht : ts.token = .arguments raw)
    (ha : argumentOf nested source name pseudo.argumentKind (some (raw, ts.position)) = .error e) :
    readPseudoClass nested source name ts = .error e ts.advance := by
  have hwritten : readParentheses ts = .ok (some (raw, ts.position)) ts.advance := by
    unfold readParentheses
    rw [bind_peek, ht]
    rfl
  unfold readPseudoClass
  simp only [hp]
  rw [bind_of_eq_ok hwritten]
  simp only [ha]
  rfl

/-- Where the first test of a selector is a pseudo-class with a fault in its argument, that is
the fault of the selector. -/
theorem readSelector_eq_error (hp : PseudoClassName.ofName? name = some pseudo)
    (hn : ts.token = .pseudoClass name) (ht : ts.advance.token = .arguments raw)
    (ha : argumentOf nested source name pseudo.argumentKind (some (raw, ts.advance.position)) =
      .error e) : ∃ rest, readSelector nested source ts = .error e rest := by
  have hsimple : ∀ c, readSimple nested source c ts = .error e ts.advance.advance := by
    intro c
    unfold readSimple
    rw [bind_peek, hn]
    exact (bind_advance _).trans (bind_eq_error (readPseudoClass_eq_error hp ht ha))
  have hcompound : readCompound nested source ts = .error e ts.advance.advance := by
    have htype : readTypeTest source ts = .ok none ts := by
      unfold readTypeTest
      rw [bind_peek, hn]
      rfl
    unfold readCompound
    rw [bind_of_eq_ok htype]
    exact bind_eq_error (readSimples_eq_error (hsimple _))
  have hgroup : readGroup nested source ts = .error e ts.advance.advance := by
    unfold readGroup
    rw [bind_peek, hn]
    exact bind_eq_error (readSteps_eq_error hcompound)
  exact ⟨_, bind_eq_error (readGroups_eq_error hgroup)⟩

end

theorem tokenize_argument {name raw : String} (hname : name.toList.all isNameChar = true)
    (hne : name ≠ "") (hr : ClosedArgument raw.toList) :
    ∃ i j k, tokenize (":" ++ name ++ "(" ++ raw ++ ")") =
      .ok [⟨.pseudoClass name, i⟩, ⟨.arguments raw, j⟩, ⟨.finish, k⟩] := by
  have htext : (":" ++ name ++ "(" ++ raw ++ ")").toList =
      ':' :: name.toList ++ '(' :: (raw.toList ++ ')' :: []) := by simp
  have hskip : skipBlanks (':' :: name.toList ++ '(' :: (raw.toList ++ ')' :: [])) =
      ':' :: name.toList ++ '(' :: (raw.toList ++ ')' :: []) := rfl
  have hout := outsideTokens_arguments false [] hname (toList_ne_nil hne) hr.opens
  rw [outsideTokens_nil, Option.map_some, String.ofList_toList, String.ofList_toList] at hout
  have hreads : TextReads (":" ++ name ++ "(" ++ raw ++ ")")
      [.pseudoClass name, .arguments raw] := by
    rw [textReads_iff, htext, hskip]
    exact hout
  obtain ⟨lexemes, htokens, hmap⟩ := hreads
  obtain ⟨⟨_, i⟩, arguments, rfl, rfl, harguments⟩ := List.map_eq_cons_iff.mp hmap
  obtain ⟨⟨_, j⟩, ends, rfl, rfl, hends⟩ := List.map_eq_cons_iff.mp harguments
  obtain ⟨⟨_, k⟩, rfl, rfl⟩ := List.map_eq_singleton_iff.mp hends
  exact ⟨i, j, k, htokens⟩

/-- A pseudo-class that takes a selector is read as its argument is, with any reader of nested
selectors. -/
theorem readText_argument {nested : String → Except SelectorError Selector} {name text : String}
    {pseudo : PseudoClassName} (hname : name.toList.all isNameChar = true) (hne : name ≠ "")
    (hp : PseudoClassName.ofName? name = some pseudo) (hk : pseudo.argumentKind = .selector)
    (hx : text ≠ "") (ht : trimmed text = text) (hc : ClosedArgument text.toList) :
    readText nested (":" ++ name ++ "(" ++ text ++ ")") =
      (nested text).map fun s => .ofCompound { pseudoClasses := [⟨pseudo, .selector s⟩] } := by
  obtain ⟨i, j, k, htokens⟩ := tokenize_argument hname hne hc
  unfold readText
  simp only [htokens, bind, Except.bind]
  cases hs : nested text with
  | ok s =>
    have hargument : ArgumentDerives (finds nested) pseudo.argumentKind (some text)
        (.selector s) := by
      rw [hk]
      exact .selector (ht.symm ▸ hx) (ht.symm ▸ hs)
    have hr : readSelector nested (":" ++ name ++ "(" ++ text ++ ")")
        [⟨.pseudoClass name, i⟩, ⟨.arguments text, j⟩, ⟨.finish, k⟩] =
          .ok (.ofCompound { pseudoClasses := [⟨pseudo, .selector s⟩] }) [⟨.finish, k⟩] :=
      readSelector_complete (.of_pseudoClass hp hargument)
        ⟨[⟨.pseudoClass name, i⟩, ⟨.arguments text, j⟩], rfl, rfl⟩ (by simp) rfl
    rw [hr]
    rfl
  | error e =>
    have hargument : argumentOf nested (":" ++ name ++ "(" ++ text ++ ")") name
        pseudo.argumentKind (some (text, j)) = .error e := by
      rw [hk, argumentOf_selector, ht, if_neg hx, hs]
      rfl
    obtain ⟨rest, hr⟩ := @readSelector_eq_error nested (":" ++ name ++ "(" ++ text ++ ")") name
      text pseudo [⟨.pseudoClass name, i⟩, ⟨.arguments text, j⟩, ⟨.finish, k⟩] e hp rfl rfl
      hargument
    rw [hr]
    rfl

/-- In parentheses a text is read as it is alone on one level less, with the same selector or the
same error. -/
theorem parse_argument {pseudo : PseudoClassName} (hk : pseudo.argumentKind = .selector)
    (limit : Nat) {text : String} (hx : text ≠ "") (ht : trimmed text = text)
    (hc : ClosedArgument text.toList) :
    parse (limit + 1) (":" ++ pseudo.spelling ++ "(" ++ text ++ ")") =
      match parse limit text with
      | .ok s => .ok (.ofCompound { pseudoClasses := [⟨pseudo, .selector s⟩] })
      | .error (.nestedTooDeep _) => .error (.nestedTooDeep (limit + 1))
      | .error e => .error e := by
  obtain ⟨hname, hne⟩ := pseudo.spelling_name_of_mem pseudo.mem_all
  have hinner : readNested (limit + 1) (limit + 1) text =
      (parse limit text).mapError (SelectorError.underLimit (limit + 1)) :=
    readNested_underLimit limit (limit + 1) (limit + 1) text
  have hread : parse (limit + 1) (":" ++ pseudo.spelling ++ "(" ++ text ++ ")") =
      (readNested (limit + 1) (limit + 1) text).map fun s =>
        .ofCompound { pseudoClasses := [⟨pseudo, .selector s⟩] } :=
    readText_argument hname hne pseudo.ofName?_spelling hk hx ht hc
  rw [hread, hinner]
  cases parse limit text with
  | ok s => rfl
  | error e => cases e <;> rfl

theorem parse_argument_faults :
    PseudoClassName.argumentKind .not = .selector ∧
    ("a[" ≠ "" ∧ trimmed "a[" = "a[" ∧ ClosedArgument "a[".toList) ∧
    parse 1 ":not(a[)" = .error (.malformed "a[" 1 .openBrackets) ∧
    (":has(a)" ≠ "" ∧ trimmed ":has(a)" = ":has(a)" ∧ ClosedArgument ":has(a)".toList) ∧
    parse 1 ":not(:has(a))" = .error (.nestedTooDeep 1) := by
  have hopen : ClosedArgument "a[".toList := by unfold ClosedArgument; decide +kernel
  have hhas : ClosedArgument ":has(a)".toList := by unfold ClosedArgument; decide +kernel
  have hfault : parse 0 "a[" = .error (.malformed "a[" 1 .openBrackets) := by decide +kernel
  have hdeep : parse 0 ":has(a)" = .error (.nestedTooDeep 0) := by decide +kernel
  have hbrackets := @parse_argument .not rfl 0 "a[" (by decide) (by decide +kernel) hopen
  have hlevels := @parse_argument .not rfl 0 ":has(a)" (by decide) (by decide +kernel) hhas
  rw [hfault] at hbrackets
  rw [hdeep] at hlevels
  exact ⟨rfl, ⟨by decide, by decide +kernel, hopen⟩, hbrackets,
    ⟨by decide, by decide +kernel, hhas⟩, hlevels⟩

end DocumentQuery
