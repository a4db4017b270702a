import DocumentQuery.Proofs.NestedReading

namespace DocumentQuery

/-- A value that may stand without quotes: blanks and a bracket would end it, a backslash would
begin an escape and a quote in front a string. -/
structure BareValue (value : List Char) : Prop where
  ne_nil : value ≠ []
  plain : ∀ c ∈ value, isBlank c = false ∧ c ≠ ']' ∧ c ≠ '\\'
  unquoted : ∀ c ∈ value.head?, c ≠ '"' ∧ c ≠ '\''

/-- Whether a value begins like an operator, a bar or a star. -/
def LeadsWithSign (value : List Char) : Prop :=
  ∃ c cs, value = c :: cs ∧
    (c ∈ ['=', '|', '*'] ∨ c ∈ ['~', '^', '$'] ∧ cs.head? = some '=')

/-- The attribute test on a name whose value stands after the operator as it is. -/
def bareText (name : String) (op : AttributeOperator) (value : String) : String :=
  "[" ++ name ++ op.sign ++ value ++ "]"

/-- The same attribute test with quotes around the value; quotes in it follow a backslash. -/
def doublyQuotedText (name : String) (op : AttributeOperator) (value : String) : String :=
  "[" ++ name ++ op.sign ++ "\"" ++
    String.ofList (value.toList.flatMap fun c => if c = '"' then ['\\', c] else [c]) ++ "\"]"

def attributeSelector (name : String) (op : AttributeOperator) (value : String) : Selector :=
  .ofCompound { attributes := [⟨none, name, op, some value⟩] }

section

variable {value more : List Char} {p : Option Token}

theorem readValue_of_plain (h : ∀ c ∈ value, isBlank c = false ∧ c ≠ ']' ∧ c ≠ '\\')
    (more : List Char) :
    readValue (value ++ ']' :: more) = (value, ']' :: more) := by
  induction value with
  | nil => rw [List.nil_append, readValue, if_pos (by decide)]
  | cons c cs ih =>
    obtain ⟨⟨hblank, hclose, hslash⟩, hcs⟩ := List.forall_mem_cons.mp h
    rw [List.cons_append, readValue, if_neg (by simp [hblank, hclose]),
      if_neg (by simp [startsEscape, hslash]), ih hcs]

theorem operator?_eq_none {c : Char} {cs : List Char}
    (h : ¬(c ∈ ['~', '|', '*', '^', '$'] ∧ cs.head? = some '=')) : Scan.operator? c cs = none := by
  unfold Scan.operator?
  split
  next heq =>
    have hc : c ∉ ['~', '|', '*', '^', '$'] := fun hc => h ⟨hc, heq⟩
    split <;> first | rfl | exact absurd (by decide) hc
  next => rfl

theorem head?_append_bracket {cs : List Char} :
    (cs ++ ']' :: more).head? = some '=' ↔ cs.head? = some '=' := by
  cases cs <;> simp

/-- In the place of a value, what begins like a sign is read as one. -/
theorem insideTokens_leadsWithSign (h : LeadsWithSign value) (p : Token) (more : List Char) :
    ∃ t after, (t = .bar ∨ t = .star ∨ ∃ op, t = .operator op) ∧
      insideTokens p (value ++ ']' :: more) = (insideTokens t after).map (t :: ·) := by
  have hoperator (op : AttributeOperator) (rest : List Char)
      (hv : value ++ ']' :: more = op.sign.toList ++ rest) :
      ∃ t after, (t = .bar ∨ t = .star ∨ ∃ op, t = .operator op) ∧
        insideTokens p (value ++ ']' :: more) = (insideTokens t after).map (t :: ·) :=
    ⟨.operator op, rest, .inr (.inr ⟨op, rfl⟩), hv ▸ insideTokens_operator p op rest⟩
  obtain ⟨c, cs, rfl, hc⟩ := h
  by_cases heq : cs.head? = some '='
  · obtain ⟨ds, rfl⟩ := List.head?_eq_some_iff.mp heq
    have hsign : c ∈ ['=', '|', '*', '~', '^', '$'] := by
      rcases hc with hc | ⟨hc, -⟩
      · exact List.mem_append_left ['~', '^', '$'] hc
      · exact List.mem_append_right ['=', '|', '*'] hc
    simp only [List.mem_cons, List.not_mem_nil, or_false] at hsign
    rcases hsign with rfl | rfl | rfl | rfl | rfl | rfl
    · exact hoperator .exactly ('=' :: ds ++ ']' :: more) rfl
    · exact hoperator .containsWithHyphen (ds ++ ']' :: more) rfl
    · exact hoperator .containsSubstring (ds ++ ']' :: more) rfl
    · exact hoperator .containsWithSpace (ds ++ ']' :: more) rfl
    · exact hoperator .beginsWith (ds ++ ']' :: more) rfl
    · exact hoperator .endsWith (ds ++ ']' :: more) rfl
  · have hmore : (cs ++ ']' :: more).head? ≠ some '=' := mt head?_append_bracket.mp heq
    have hsign := hc.resolve_right fun h => heq h.2
    simp only [List.mem_cons, List.not_mem_nil, or_false] at hsign
    rcases hsign with rfl | rfl | rfl
    · exact hoperator .exactly (cs ++ ']' :: more) rfl
    · exact ⟨.bar, _, .inl rfl, insideTokens_qualifierSign p .bar hmore⟩
    · exact ⟨.star, _, .inr (.inl rfl), insideTokens_qualifierSign p .star hmore⟩

/-- Any other value is read up to the bracket. -/
theorem insideTokens_bareValue (hv : BareValue value) (hs : ¬LeadsWithSign value)
    (op : AttributeOperator) :
    insideTokens (.operator op) (value ++ ']' :: more) =
      (insideTokens (.ident (String.ofList value)) (']' :: more)).map
        (.ident (String.ofList value) :: ·) := by
  obtain ⟨c, cs, rfl⟩ := List.exists_cons_of_ne_nil hv.ne_nil
  obtain ⟨hblank, hclose, hslash⟩ := hv.plain c (by simp)
  obtain ⟨hdouble, hsingle⟩ := hv.unquoted c rfl
  have hsign : c ∉ ['=', '|', '*'] := fun hc => hs ⟨c, cs, rfl, .inl hc⟩
  have hoperator : ¬(c ∈ ['~', '|', '*', '^', '$'] ∧ (cs ++ ']' :: more).head? = some '=') := by
    rintro ⟨hc, heq⟩
    apply hs
    refine ⟨c, cs, rfl, .inr ⟨?_, head?_append_bracket.mp heq⟩⟩
    simp only [List.mem_cons, List.not_mem_nil, or_false, not_or] at hc hsign ⊢
    tauto
  simp only [List.mem_cons, List.not_mem_nil, or_false, not_or] at hsign
  refine @insideTokens_of_token _ _ c (cs ++ ']' :: more) _ hblank ?_ rfl
  rw [Scan.inside, if_neg hclose, if_neg (not_or.mpr ⟨hdouble, hsingle⟩), if_neg hsign.1]
  simp only [operator?_eq_none hoperator]
  rw [if_neg hsign.2.1, if_neg hsign.2.2, Scan.valueOrName]
  have hread := readValue_of_plain hv.plain more
  rw [List.cons_append] at hread
  simp only [hread]

end

section

variable {name value : String} {op : AttributeOperator} {limit : Nat}

theorem endsName_sign (op : AttributeOperator) (rest : List Char) :
    EndsName (op.sign.toList ++ rest) := by
  obtain ⟨d, ds, he, hd, hb⟩ := sign_eq_cons op
  rw [he]
  rintro c ⟨⟩
  exact ⟨hd, hb⟩

theorem tokensFrom_attribute (hname : name.toList.all isNameChar = true) (hne : name ≠ "")
    (op : AttributeOperator) {text : String} {rest : List Char}
    (ht : text.toList = '[' :: (name.toList ++ (op.sign.toList ++ rest))) :
    tokensFrom .outside none (skipBlanks text.toList) =
      (insideTokens (.operator op) rest).map
        ([.openBracket, .ident name, .operator op] ++ ·) := by
  have hskip : skipBlanks text.toList = text.toList := by
    rw [ht]
    rfl
  have hread := readName_of_isNameChar hname (endsName_sign op rest)
  have hopen := outsideTokens_openBracket false (name.toList ++ (op.sign.toList ++ rest))
  rw [insideTokens_ident (by simp) hread (toList_ne_nil hne), insideTokens_operator,
    String.ofList_toList] at hopen
  rw [hskip, ht]
  refine hopen.trans ?_
  simp only [Option.map_map]
  rfl

theorem insideTokens_close (p : Token) : insideTokens p [']'] = some [.closeBracket, .finish] := by
  rw [insideTokens_closeBracket, outsideTokens_nil]
  rfl

theorem parse_of_comparison {text : String} {ts : List Token}
    (hc : ComparisonDerives ts op (some value))
    (ht : tokensFrom .outside none (skipBlanks text.toList) =
      some (.openBracket :: .ident name :: ts ++ [.closeBracket] ++ [.finish])) :
    parse limit text = .ok (attributeSelector name op value) := by
  have htest : AttributeDerives (.openBracket :: .ident name :: ts ++ [.closeBracket])
      ⟨none, name, op, some value⟩ := @AttributeDerives.mk ts ⟨none, name, op, some value⟩ hc
  have htests : SimplesDerive (TextDerives limit)
      (.openBracket :: .ident name :: ts ++ [.closeBracket])
      [.bracketed ⟨none, name, op, some value⟩] := by
    simpa using SimplesDerive.cons (.bracketed htest) .nil
  have hagree : AgreeOnId [.bracketed ⟨none, name, op, some value⟩] := by simp [AgreeOnId]
  refine parse_eq_ok_iff.mpr ⟨_, ht, ?_⟩
  exact .last (.implicit (.last (@CompoundDerives.mk _ none _ _ htests hagree (by simp))))

end

section

open TokenReader

variable {source : String}

/-- No sign may stand in the place of a value. -/
theorem readSelector_signValue (nested : String → Except SelectorError Selector)
    {ts : List Lexeme} {name : String} {op : AttributeOperator} {t : Token} {us : List Token}
    (hts : ts.map Lexeme.token = .openBracket :: .ident name :: .operator op :: t :: us)
    (ht : t = .bar ∨ t = .star ∨ ∃ other, t = .operator other) :
    ∃ position rest, readSelector nested source ts =
      .error (.malformed source position (.wrongToken .attributeValue t)) rest := by
  obtain ⟨⟨_, i⟩, named, rfl, rfl, hnamed⟩ := List.map_eq_cons_iff.mp hts
  obtain ⟨⟨_, j⟩, compared, rfl, rfl, hcompared⟩ := List.map_eq_cons_iff.mp hnamed
  obtain ⟨⟨_, k⟩, signed, rfl, rfl, hsigned⟩ := List.map_eq_cons_iff.mp hcompared
  obtain ⟨⟨u, l⟩, rest, rfl, hu, -⟩ := List.map_eq_cons_iff.mp hsigned
  obtain rfl : u = t := hu
  let e : SelectorError := .malformed source l (.wrongToken .attributeValue u)
  let ts : Cursor := ⟨.openBracket, i⟩ :: ⟨.ident name, j⟩ :: ⟨.operator op, k⟩ :: ⟨u, l⟩ :: rest
  have hcomparison : readComparison source (⟨.operator op, k⟩ :: ⟨u, l⟩ :: rest) =
      .error e (⟨u, l⟩ :: rest) := by
    rcases ht with rfl | rfl | ⟨other, rfl⟩ <;> rfl
  have htest : readAttributeTest source ts = .error e (⟨u, l⟩ :: rest) := by
    have hnone : readAttributeNamespace source ts.advance = .ok none ts.advance := rfl
    unfold readAttributeTest
    rw [bind_advance, bind_of_eq_ok hnone, bind_peek]
    exact (bind_advance _).trans (bind_eq_error hcomparison)
  have hsimple (c : Compound) : readSimple nested source c ts = .error e (⟨u, l⟩ :: rest) := by
    unfold readSimple
    rw [bind_peek]
    exact bind_eq_error htest
  have hcompound : readCompound nested source ts = .error e (⟨u, l⟩ :: rest) := by
    have htype : readTypeTest source ts = .ok none ts := rfl
    unfold readCompound
    rw [bind_of_eq_ok htype]
    exact bind_eq_error (readSimples_eq_error (hsimple _))
  have hgroup : readGroup nested source ts = .error e (⟨u, l⟩ :: rest) := by
    unfold readGroup
    rw [bind_peek]
    exact bind_eq_error (readSteps_eq_error hcompound)
  exact ⟨l, _, bind_eq_error (readGroups_eq_error hgroup)⟩

end

section

variable {name value : String} {op : AttributeOperator} {limit : Nat}

theorem parse_signValue (hname : name.toList.all isNameChar = true) (hne : name ≠ "")
    (hs : LeadsWithSign value.toList) :
    ∃ e, parse limit (bareText name op value) = .error e := by
  have htext : (bareText name op value).toList =
      '[' :: (name.toList ++ (op.sign.toList ++ (value.toList ++ [']']))) := by
    simp [bareText]
  obtain ⟨t, after, ht, hinside⟩ := insideTokens_leadsWithSign hs (.operator op) []
  have hstream := tokensFrom_attribute hname hne op htext
  rw [hinside, ← tokenize_tokens, Option.map_map] at hstream
  unfold parse readText
  cases htokens : tokenize (bareText name op value) with
  | error e => exact ⟨e, rfl⟩
  | ok ts =>
    rw [htokens] at hstream
    obtain ⟨us, -, hus⟩ := Option.map_eq_some_iff.mp hstream.symm
    obtain ⟨position, rest, hread⟩ := @readSelector_signValue (bareText name op value)
      (readNested limit limit) ts name op t us hus.symm ht
    refine ⟨.malformed (bareText name op value) position (.wrongToken .attributeValue t), ?_⟩
    simp only [bind, Except.bind, hread]

theorem parse_bareValue (hname : name.toList.all isNameChar = true) (hne : name ≠ "")
    (hv : BareValue value.toList) (hs : ¬LeadsWithSign value.toList) :
    parse limit (bareText name op value) = .ok (attributeSelector name op value) := by
  have htext : (bareText name op value).toList =
      '[' :: (name.toList ++ (op.sign.toList ++ (value.toList ++ [']']))) := by
    simp [bareText]
  apply parse_of_comparison (.ident op value)
  rw [tokensFrom_attribute hname hne op htext, insideTokens_bareValue hv hs, insideTokens_close,
    String.ofList_toList]
  rfl

theorem parse_quotedValue (hname : name.toList.all isNameChar = true) (hne : name ≠ "")
    (hv : BareValue value.toList) :
    parse limit (doublyQuotedText name op value) = .ok (attributeSelector name op value) := by
  have hquoted : quotedText value.toList =
      '"' :: value.toList.flatMap (fun c => if c = '"' then ['\\', c] else [c]) ++ ['"'] := by
    have hslash : ∀ c ∈ value.toList, (if c = '"' ∨ c = '\\' then ['\\', c] else [c]) =
        if c = '"' then ['\\', c] else [c] := by
      intro c hc
      simp [(hv.plain c hc).2.2]
    rw [quotedText, quotedBody, List.flatMap_congr hslash]
    rfl
  have htext : (doublyQuotedText name op value).toList =
      '[' :: (name.toList ++ (op.sign.toList ++ (quotedText value.toList ++ [']']))) := by
    simp [doublyQuotedText, hquoted]
  apply parse_of_comparison (.quoted op value)
  rw [tokensFrom_attribute hname hne op htext, insideTokens_quoted, insideTokens_close]
  rfl

/-- An unquoted value is read like the same value in quotes, unless it begins like an operator, a
bar or a star, which then stands where a value is due. -/
theorem parse_bareText_iff (limit : Nat) (op : AttributeOperator)
    (hname : name.toList.all isNameChar = true) (hne : name ≠ "") (hv : BareValue value.toList) :
    parse limit (doublyQuotedText name op value) = .ok (attributeSelector name op value) ∧
    (parse limit (bareText name op value) = .ok (attributeSelector name op value) ↔
      ¬LeadsWithSign value.toList) ∧
    (LeadsWithSign value.toList → ∃ e, parse limit (bareText name op value) = .error e) := by
  refine ⟨parse_quotedValue hname hne hv, ⟨?_, parse_bareValue hname hne hv⟩,
    parse_signValue hname hne⟩
  intro hread hs
  obtain ⟨e, he⟩ := @parse_signValue name value op limit hname hne hs
  rw [hread] at he
  cases he

/-- The value `*` has to stand in quotes, and so has `|b`, but not `b|c`. -/
theorem parse_bareText_signs :
    ("href".toList.all isNameChar = true ∧ "href" ≠ "" ∧ BareValue "*".toList ∧
      BareValue "b|c".toList) ∧
    parse 0 "[href=\"*\"]" = .ok (attributeSelector "href" .exactly "*") ∧
    (∃ e, parse 0 "[href=*]" = .error e) ∧
    parse 0 "[href^=b|c]" = .ok (attributeSelector "href" .beginsWith "b|c") := by
  have hstar : BareValue "*".toList := ⟨by decide, by simp [isBlank], by simp⟩
  have hbar : BareValue "b|c".toList := ⟨by decide, by simp [isBlank], by simp⟩
  have hsign : LeadsWithSign "*".toList := ⟨'*', [], rfl, .inl (by decide)⟩
  have hname : ¬LeadsWithSign "b|c".toList := by
    rintro ⟨c, cs, he, hc⟩
    obtain ⟨rfl, rfl⟩ := List.cons.inj he
    revert hc
    decide
  have hstars := @parse_bareText_iff "href" "*" 0 .exactly (by decide) (by decide) hstar
  have hbars := @parse_bareText_iff "href" "b|c" 0 .beginsWith (by decide) (by decide) hbar
  exact ⟨⟨by decide, by decide, hstar, hbar⟩, hstars.1, hstars.2.2 hsign, hbars.2.1.mpr hname⟩

end

end DocumentQuery
