import DocumentQuery.Proofs.PrintedReading

namespace DocumentQuery

/-- The name of a token as it reads back from its written form. -/
def mendedName (name : String) : String :=
  String.ofList (name.toList.map mended)

def Token.mended : Token → Token
  | .ident name => .ident (mendedName name)
  | .idTest name => .idTest (mendedName name)
  | .classTest name => .classTest (mendedName name)
  | t => t

theorem toList_ne_nil {name : String} (h : name ≠ "") : name.toList ≠ [] := by
  intro he
  exact h (String.toList_inj.mp he)

theorem sign_eq_cons (op : AttributeOperator) :
    ∃ c cs, op.sign.toList = c :: cs ∧ isNameChar c = false ∧ c ≠ '\\' := by
  cases op <;> exact ⟨_, _, rfl, by decide, by decide⟩

theorem map_mended_ne_nil {name : String} (h : name ≠ "") : name.toList.map mended ≠ [] := by
  simpa using h

theorem readName_identifierText (name : String) {more : List Char} (hm : EndsName more) :
    readName (identifierText name.toList ++ more) = (name.toList.map mended, more) :=
  (spells_identifierText name.toList).reads hm

/-- What may stand after a name inside brackets. -/
theorem endsName_comparison (test : AttributeTest) (more : List Char) :
    EndsName (comparisonText test ++ ']' :: more) := by
  obtain ⟨ns, name, op, _ | value⟩ := test
  · rintro c ⟨⟩
    decide
  · obtain ⟨d, ds, he, hd, hb⟩ := sign_eq_cons op
    rw [comparisonText, he]
    rintro c ⟨⟩
    exact ⟨hd, hb⟩

theorem insideTokens_comparison {p : Token} (test : AttributeTest) (more : List Char) :
    insideTokens p (comparisonText test ++ ']' :: more) =
      (outsideTokens true more).map (SimpleTest.comparisonTokens test ++ .closeBracket :: ·) := by
  obtain ⟨ns, name, op, _ | value⟩ := test
  · exact insideTokens_closeBracket p more
  · simp only [comparisonText, SimpleTest.comparisonTokens, List.append_assoc,
      insideTokens_operator, insideTokens_quoted, insideTokens_closeBracket, Option.map_map]
    rfl

theorem head_identifierText {name : String} (hn : name ≠ "") (more : List Char) :
    (identifierText name.toList ++ more).head? ≠ some '=' := by
  obtain ⟨c, rest, he, hc⟩ := (spells_identifierText name.toList).exists_cons (toList_ne_nil hn)
  rw [he]
  intro h
  exact nameStart_ne (hc more) (by decide) (by decide) (Option.some.inj h)

theorem insideTokens_name {p : Token} (hp : ∀ op, p ≠ .operator op) {test : AttributeTest}
    (hn : test.name ≠ "") (more : List Char) :
    insideTokens p (identifierText test.name.toList ++ (comparisonText test ++ ']' :: more)) =
      (outsideTokens true more).map (.ident (mendedName test.name) ::
        SimpleTest.comparisonTokens test ++ .closeBracket :: ·) := by
  rw [insideTokens_ident hp (readName_identifierText _ (endsName_comparison test more))
    (map_mended_ne_nil hn), insideTokens_comparison, Option.map_map]
  rfl

theorem insideTokens_namespace {ns : Option NamespaceTest}
    (hns : ∀ name ∈ (ns.map NamespaceTest.names).getD [], name ≠ "") {cs : List Char}
    (hcs : cs.head? ≠ some '=') {ts : Option (List Token)}
    (h : ∀ p, (∀ op, p ≠ .operator op) → insideTokens p cs = ts) :
    insideTokens .openBracket (namespaceText ns ++ cs) =
      ts.map ((namespaceTokens ns).map Token.mended ++ ·) := by
  have hbar : ∀ p, insideTokens p ('|' :: cs) = ts.map (.bar :: ·) := by
    intro p
    rw [insideTokens_qualifierSign p .bar hcs, h .bar (by simp)]
  match ns with
  | none =>
    rw [namespaceText, List.nil_append, h .openBracket (by simp)]
    exact Option.map_id'.symm
  | some .without => exact hbar .openBracket
  | some .any =>
    change insideTokens .openBracket ('*' :: '|' :: cs) = _
    rw [insideTokens_qualifierSign .openBracket .star (by simp), hbar, Option.map_map]
    rfl
  | some (.bound nsPrefix) =>
    have hn : nsPrefix ≠ "" := hns nsPrefix (by simp [NamespaceTest.names])
    have hm : EndsName ('|' :: cs) := by rintro c ⟨⟩; decide
    rw [namespaceText, List.append_assoc]
    change insideTokens .openBracket (identifierText nsPrefix.toList ++ '|' :: cs) = _
    rw [insideTokens_ident (by simp) (readName_identifierText _ hm) (map_mended_ne_nil hn), hbar,
      Option.map_map]
    rfl

theorem outsideTokens_attributeTest {ended : Bool} {test : AttributeTest}
    (h : ∀ name ∈ test.names, name ≠ "") (more : List Char) :
    outsideTokens ended (attributeText test ++ more) =
      (outsideTokens true more).map
        ((SimpleTest.bracketed test).tokens.map Token.mended ++ ·) := by
  have hn : test.name ≠ "" := h test.name (by simp [AttributeTest.names])
  have hns : ∀ name ∈ (test.ns.map NamespaceTest.names).getD [], name ≠ "" := fun name hm =>
    h name (List.mem_append_left _ hm)
  have hread := insideTokens_namespace hns (head_identifierText hn (comparisonText test ++ ']' :: more))
    (fun p hp => insideTokens_name hp hn more)
  have hcs : attributeText test ++ more = '[' :: (namespaceText test.ns ++
      (identifierText test.name.toList ++ (comparisonText test ++ ']' :: more))) := by
    simp [attributeText]
  have hcmp : (SimpleTest.comparisonTokens test).map Token.mended =
      SimpleTest.comparisonTokens test := by
    obtain ⟨ns, name, op, _ | value⟩ := test <;> rfl
  rw [hcs, outsideTokens_openBracket, hread, Option.map_map, Option.map_map]
  congr 1
  funext ts
  simp [SimpleTest.tokens, hcmp, Token.mended]

theorem outsideTokens_namespace {ended : Bool} {ns : Option NamespaceTest}
    (hns : ∀ name ∈ (ns.map NamespaceTest.names).getD [], name ≠ "") {cs : List Char}
    {ts : Option (List Token)} (h : ∀ ended, outsideTokens ended cs = ts) :
    outsideTokens ended (namespaceText ns ++ cs) =
      ts.map ((namespaceTokens ns).map Token.mended ++ ·) := by
  have hbar : ∀ ended, outsideTokens ended ('|' :: cs) = ts.map (.bar :: ·) := by
    intro ended
    rw [outsideTokens_qualifierSign ended .bar, h]
  match ns with
  | none =>
    rw [namespaceText, List.nil_append, h]
    exact Option.map_id'.symm
  | some .without => exact hbar ended
  | some .any =>
    change outsideTokens ended ('*' :: '|' :: cs) = _
    rw [outsideTokens_qualifierSign ended .star, hbar, Option.map_map]
    rfl
  | some (.bound nsPrefix) =>
    have hn : nsPrefix ≠ "" := hns nsPrefix (by simp [NamespaceTest.names])
    have hm : EndsName ('|' :: cs) := by rintro c ⟨⟩; decide
    rw [namespaceText, List.append_assoc]
    change outsideTokens ended (identifierText nsPrefix.toList ++ '|' :: cs) = _
    rw [outsideTokens_name (readName_identifierText _ hm) (map_mended_ne_nil hn), hbar,
      Option.map_map]
    rfl

theorem outsideTokens_typeName {ended : Bool} {name : Option String}
    (hn : ∀ n ∈ name.toList, n ≠ "") {more : List Char} (hm : EndsName more) :
    outsideTokens ended (typeNameText name ++ more) =
      (outsideTokens true more).map ((nameToken name).mended :: ·) := by
  cases name with
  | none => exact outsideTokens_qualifierSign ended .star more
  | some name =>
    exact outsideTokens_name (readName_identifierText name hm)
      (map_mended_ne_nil (hn name (by simp)))

theorem outsideTokens_typeTest {ended : Bool} {test : TypeTest}
    (h : ∀ name ∈ test.names, name ≠ "") {more : List Char} (hm : EndsName more) :
    outsideTokens ended (typeTestText (some test) ++ more) =
      (outsideTokens true more).map ((typeTokens (some test)).map Token.mended ++ ·) := by
  have hname : ∀ ended, outsideTokens ended (typeNameText test.name ++ more) =
      (outsideTokens true more).map ((nameToken test.name).mended :: ·) := fun ended =>
    outsideTokens_typeName (fun n hn => h n (List.mem_append_right _ hn)) hm
  have hns : ∀ name ∈ (test.ns.map NamespaceTest.names).getD [], name ≠ "" := fun name hn =>
    h name (List.mem_append_left _ hn)
  rw [typeTestText, List.append_assoc, outsideTokens_namespace hns hname, Option.map_map]
  congr 1
  funext ts
  simp [typeTokens]

theorem PseudoClassName.spelling_name_of_mem :
    ∀ pseudo ∈ all, pseudo.spelling.toList.all isNameChar = true ∧ pseudo.spelling ≠ "" := by
  decide +kernel

theorem PseudoClassName.spelling_name (pseudo : PseudoClassName) :
    pseudo.spelling.toList.all isNameChar = true ∧ pseudo.spelling.toList ≠ [] := by
  obtain ⟨hall, hne⟩ := spelling_name_of_mem pseudo (mem_all pseudo)
  exact ⟨hall, toList_ne_nil hne⟩

theorem PseudoElement.spelling_name (pseudo : PseudoElement) :
    pseudo.spelling.toList.all isNameChar = true ∧ pseudo.spelling.toList ≠ [] := by
  cases pseudo <;> decide

/-- Whether the parentheses of an argument are closed where they should be. -/
def Argument.Closes (a : Argument) : Prop :=
  ∀ raw ∈ a.written, Opens 0 raw.toList

theorem outsideTokens_pseudoClassTest {ended : Bool} {test : PseudoClass}
    (h : test.argument.Closes) {more : List Char} (hm : Breaks more) :
    outsideTokens ended (test.chars ++ more) =
      (outsideTokens true more).map ((SimpleTest.pseudoClass test).tokens ++ ·) := by
  obtain ⟨name, argument⟩ := test
  obtain ⟨hall, hne⟩ := name.spelling_name
  rw [PseudoClass.chars, argument.chars_eq]
  cases hw : argument.written with
  | none =>
    have hr := outsideTokens_pseudoClass ended hall hne hm
    simpa [SimpleTest.tokens, hw, argumentTokens] using hr
  | some raw =>
    have hr := outsideTokens_arguments ended more hall hne (h raw hw)
    simpa [SimpleTest.tokens, hw, argumentTokens] using hr

namespace Part

/-- Whether a compound may end after a part. -/
def ends : Part → Bool
  | .typeTest _ | .simple _ => true
  | _ => false

/-- Whether the names of a part are there and its argument is closed. -/
def Readable : Part → Prop
  | .typeTest test => ∀ name ∈ test.names, name ≠ ""
  | .simple (.id name) | .simple (.named name) => name ≠ ""
  | .simple (.bracketed test) => ∀ name ∈ test.names, name ≠ ""
  | .simple (.pseudoClass test) => test.argument.Closes
  | _ => True

/-- Which texts may follow a part. -/
def Allows (ended : Bool) (x : Part) (more : List Char) : Prop :=
  match x with
  | .typeTest _ | .simple _ => Breaks more
  | .leading k => k ≠ .descendant ∧ ∀ c ∈ more.head?, isBlank c = false
  | .between _ => ended = true ∧ (∀ c ∈ more.head?, isBlank c = false) ∧ Scan.goesOn more = true
  | .comma => ∀ c ∈ more.head?, isBlank c = false

theorem outsideTokens_simple {ended : Bool} {test : SimpleTest} {more : List Char}
    (hr : (Part.simple test).Readable) (hm : Breaks more) :
    outsideTokens ended (test.chars ++ more) =
      (outsideTokens true more).map (test.tokens.map Token.mended ++ ·) := by
  cases test with
  | id name =>
    exact outsideTokens_nameSign .id ((spells_nameText name.toList).reads hm.1) (map_mended_ne_nil hr)
  | named name =>
    exact outsideTokens_nameSign .named (readName_identifierText name hm.1) (map_mended_ne_nil hr)
  | bracketed test => exact outsideTokens_attributeTest hr more
  | pseudoClass test =>
    have ht : (SimpleTest.pseudoClass test).tokens.map Token.mended =
        (SimpleTest.pseudoClass test).tokens := by
      cases hw : test.argument.written <;>
        simp [SimpleTest.tokens, argumentTokens, Token.mended, hw]
    rw [ht]
    exact outsideTokens_pseudoClassTest hr hm
  | pseudoElement test =>
    obtain ⟨hall, hne⟩ := test.spelling_name
    have hp := outsideTokens_pseudoElement ended hall hne hm.1
    rwa [String.ofList_toList] at hp

/-- A part reads back as its tokens, whatever allowed text follows. -/
theorem outsideTokens_chars {ended : Bool} {x : Part} {more : List Char} (hr : x.Readable)
    (ha : x.Allows ended more) :
    outsideTokens ended (x.chars ++ more) =
      (outsideTokens x.ends more).map (x.tokens.map Token.mended ++ ·) := by
  cases x with
  | typeTest test => exact outsideTokens_typeTest hr ha.1
  | simple test => exact outsideTokens_simple hr ha
  | leading k => exact outsideTokens_leading ha.1 ha.2
  | between k =>
    obtain ⟨rfl, hm, hg⟩ := ha
    exact outsideTokens_between hm hg
  | comma => exact outsideTokens_comma ha

end Part

/-- Whether a compound has ended after parts. -/
def endedAfter (ended : Bool) (xs : List Part) : Bool :=
  xs.foldl (fun _ x => x.ends) ended

/-- Each of the parts allows what follows it. -/
def Laid (ended : Bool) : List Part → List Char → Prop
  | [], _ => True
  | x :: xs, more => x.Allows ended (partsText xs ++ more) ∧ Laid x.ends xs more

theorem laid_append {ended : Bool} {xs ys : List Part} {more : List Char} :
    Laid ended (xs ++ ys) more ↔
      Laid ended xs (partsText ys ++ more) ∧ Laid (endedAfter ended xs) ys more := by
  induction xs generalizing ended with
  | nil => simp [Laid, endedAfter]
  | cons x xs ih =>
    simp only [List.cons_append, Laid, partsText_append, List.append_assoc, ih, and_assoc]
    rfl

/-- Parts read back one after another. -/
theorem outsideTokens_parts {ended : Bool} {xs : List Part} {more : List Char}
    (hr : ∀ x ∈ xs, x.Readable) (hl : Laid ended xs more) :
    outsideTokens ended (partsText xs ++ more) =
      (outsideTokens (endedAfter ended xs) more).map ((partsTokens xs).map Token.mended ++ ·) := by
  induction xs generalizing ended with
  | nil => exact Option.map_id'.symm
  | cons x xs ih =>
    have hx := hr x List.mem_cons_self
    have hs := ih (fun y hy => hr y (List.mem_cons_of_mem x hy)) hl.2
    rw [partsText_cons, List.append_assoc, Part.outsideTokens_chars hx hl.1, hs, Option.map_map]
    congr 1
    funext ts
    simp

/-- A text that a compound may begin with, also behind a space. -/
def BeginsCompound (cs : List Char) : Prop :=
  (∀ c ∈ cs.head?, isBlank c = false) ∧ Scan.goesOn cs = true

theorem beginsCompound_cons {c : Char} (hb : isBlank c = false)
    (hs : c ≠ '>' ∧ c ≠ '+' ∧ c ≠ '~' ∧ c ≠ ',') (cs : List Char) : BeginsCompound (c :: cs) := by
  refine ⟨by rintro d ⟨⟩; exact hb, ?_⟩
  simp [Scan.goesOn, hs]

theorem beginsCompound_identifierText {name : String} (hn : name ≠ "") (more : List Char) :
    BeginsCompound (identifierText name.toList ++ more) := by
  obtain ⟨c, rest, he, hc⟩ := (spells_identifierText name.toList).exists_cons (toList_ne_nil hn)
  have hne : ∀ d, isNameChar d = false → d ≠ '\\' → c ≠ d := fun d => nameStart_ne (hc more)
  rw [he]
  refine beginsCompound_cons (isBlank_of_nameStart (hc more)) ⟨?_, ?_, ?_, ?_⟩ (rest ++ more)
  all_goals exact hne _ (by decide) (by decide)

theorem beginsCompound_typeTest {test : TypeTest} (h : ∀ name ∈ test.names, name ≠ "")
    (more : List Char) : BeginsCompound (typeTestText (some test) ++ more) := by
  obtain ⟨_ | _ | _ | nsPrefix, name⟩ := test
  · cases name with
    | none => exact beginsCompound_cons (by decide) (by decide) _
    | some name => exact beginsCompound_identifierText (h name (by simp [TypeTest.names])) more
  · exact beginsCompound_cons (by decide) (by decide) _
  · exact beginsCompound_cons (by decide) (by decide) _
  · have hn : nsPrefix ≠ "" := h nsPrefix (by simp [TypeTest.names, NamespaceTest.names])
    simp only [typeTestText, namespaceText, List.append_assoc]
    exact beginsCompound_identifierText hn _

/-- Each simple test begins with a sign of its own. -/
theorem SimpleTest.chars_eq_cons (test : SimpleTest) :
    ∃ c cs, test.chars = c :: cs ∧ (c = '#' ∨ c = '.' ∨ c = '[' ∨ c = ':') := by
  cases test with
  | id name => exact ⟨_, _, rfl, by simp⟩
  | named name => exact ⟨_, _, rfl, by simp⟩
  | bracketed test => exact ⟨'[', _, rfl, by simp⟩
  | pseudoClass test =>
    obtain ⟨name, argument⟩ := test
    rw [chars, PseudoClass.chars]
    exact ⟨':', _, rfl, by simp⟩
  | pseudoElement test => exact ⟨_, _, rfl, by simp⟩

theorem breaks_simple (test : SimpleTest) (more : List Char) : Breaks (test.chars ++ more) := by
  obtain ⟨c, cs, he, hc⟩ := test.chars_eq_cons
  rw [he]
  rcases hc with rfl | rfl | rfl | rfl
  all_goals exact ⟨by rintro d ⟨⟩; decide, by simp⟩

theorem beginsCompound_simple (test : SimpleTest) (more : List Char) :
    BeginsCompound (test.chars ++ more) := by
  obtain ⟨c, cs, he, hc⟩ := test.chars_eq_cons
  rw [he]
  rcases hc with rfl | rfl | rfl | rfl
  all_goals exact beginsCompound_cons (by decide) (by decide) _

theorem breaks_simples (tests : List SimpleTest) {more : List Char} (hm : Breaks more) :
    Breaks (partsText (tests.map .simple) ++ more) := by
  cases tests with
  | nil => exact hm
  | cons test tests =>
    rw [List.map_cons, partsText_cons, List.append_assoc]
    exact breaks_simple test _

theorem laid_simples (ended : Bool) (tests : List SimpleTest) {more : List Char}
    (hm : Breaks more) : Laid ended (tests.map .simple) more := by
  induction tests generalizing ended with
  | nil => trivial
  | cons test tests ih => exact ⟨breaks_simples tests hm, ih true⟩

theorem endedAfter_simples (tests : List SimpleTest) :
    endedAfter true (tests.map .simple) = true := by
  induction tests with
  | nil => rfl
  | cons test tests ih => exact ih

theorem endedAfter_append (ended : Bool) (xs ys : List Part) :
    endedAfter ended (xs ++ ys) = endedAfter (endedAfter ended xs) ys :=
  List.foldl_append

namespace Compound

theorem typeTest_names {c : Compound} {test : TypeTest} (ht : c.typeTest = some test)
    {name : String} (h : name ∈ test.names) : name ∈ c.names := by
  simp [names, ht, h]

theorem laid_parts (ended : Bool) (c : Compound) {more : List Char} (hm : Breaks more) :
    Laid ended c.parts more := by
  unfold parts
  cases c.typeTest with
  | none => exact laid_simples ended c.tests hm
  | some test => exact ⟨breaks_simples c.tests hm, laid_simples true c.tests hm⟩

theorem endedAfter_parts {c : Compound} (hc : c.isEmpty = false) (ended : Bool) :
    endedAfter ended c.parts = true := by
  unfold parts
  cases ht : c.typeTest with
  | some test => exact endedAfter_simples c.tests
  | none =>
    obtain h | h := isSome_or_tests_ne_nil hc
    · simp [ht] at h
    · obtain ⟨test, tests, he⟩ := List.exists_cons_of_ne_nil h
      rw [he]
      exact endedAfter_simples tests

theorem beginsCompound_parts {c : Compound} (hc : c.isEmpty = false)
    (hn : ∀ name ∈ c.names, name ≠ "") (more : List Char) :
    BeginsCompound (partsText c.parts ++ more) := by
  unfold parts
  cases ht : c.typeTest with
  | some test =>
    have hb := beginsCompound_typeTest (fun name hm => hn name (typeTest_names ht hm))
      (partsText (c.tests.map .simple) ++ more)
    simpa [Part.chars] using hb
  | none =>
    obtain h | h := isSome_or_tests_ne_nil hc
    · simp [ht] at h
    · obtain ⟨test, tests, he⟩ := List.exists_cons_of_ne_nil h
      have hb := beginsCompound_simple test (partsText (tests.map .simple) ++ more)
      simpa [he, Part.chars] using hb

end Compound

/-- What has to hold of a compound to stand behind a combinator. -/
def Compound.Present (c : Compound) : Prop :=
  c.isEmpty = false ∧ ∀ name ∈ c.names, name ≠ ""

theorem breaks_space (cs : List Char) : Breaks (' ' :: cs) :=
  ⟨by rintro c ⟨⟩; decide, by simp⟩

theorem breaks_comma (cs : List Char) : Breaks (',' :: cs) :=
  ⟨by rintro c ⟨⟩; decide, by simp⟩

theorem breaks_laterParts (steps : List Step) {more : List Char} (hm : Breaks more) :
    Breaks (partsText (laterParts steps) ++ more) := by
  cases steps with
  | nil => exact hm
  | cons s steps =>
    obtain ⟨k, c⟩ := s
    cases k <;> exact breaks_space _

theorem laid_laterParts {steps : List Step} (h : ∀ s ∈ steps, s.compound.Present)
    {more : List Char} (hm : Breaks more) :
    Laid true (laterParts steps) more ∧ endedAfter true (laterParts steps) = true := by
  induction steps with
  | nil => exact ⟨trivial, rfl⟩
  | cons s steps ih =>
    obtain ⟨hc, hn⟩ := h s List.mem_cons_self
    obtain ⟨hl, he⟩ := ih fun t ht => h t (List.mem_cons_of_mem s ht)
    have hparts : laterParts (s :: steps) =
        .between s.combinator :: (s.compound.parts ++ laterParts steps) := rfl
    have hbegins := s.compound.beginsCompound_parts hc hn (partsText (laterParts steps) ++ more)
    have hend : endedAfter false s.compound.parts = true := Compound.endedAfter_parts hc false
    rw [hparts]
    refine ⟨⟨⟨rfl, ?_⟩, laid_append.mpr ⟨?_, ?_⟩⟩, ?_⟩
    · rw [partsText_append, List.append_assoc]
      exact hbegins
    · exact s.compound.laid_parts false (breaks_laterParts steps hm)
    · change Laid (endedAfter false s.compound.parts) (laterParts steps) more
      rwa [hend]
    · change endedAfter false (s.compound.parts ++ laterParts steps) = true
      rw [endedAfter_append, hend, he]

/-- What has to hold of a group to stand between commas. -/
def Group.Present (g : Group) : Prop :=
  g.steps ≠ [] ∧ ∀ s ∈ g.steps, s.compound.Present

theorem leadingParts_of_ne {k : Combinator} (hk : k ≠ .descendant) :
    leadingParts k = [.leading k] := by
  cases k with
  | descendant => exact absurd rfl hk
  | child => rfl
  | adjacentSibling => rfl
  | generalSibling => rfl

theorem Group.laid_parts {g : Group} (h : g.Present) (ended : Bool) {more : List Char}
    (hm : Breaks more) : Laid ended g.parts more ∧ endedAfter ended g.parts = true := by
  obtain ⟨_ | ⟨⟨k, c⟩, later⟩⟩ := g
  · exact absurd rfl h.1
  · obtain ⟨hc, hn⟩ := h.2 ⟨k, c⟩ List.mem_cons_self
    obtain ⟨hl, he⟩ := laid_laterParts (fun s hs => h.2 s (List.mem_cons_of_mem _ hs)) hm
    have hbreaks := breaks_laterParts later hm
    have hbegins := c.beginsCompound_parts hc hn (partsText (laterParts later) ++ more)
    have hsteps : ∀ ended, Laid ended (c.parts ++ laterParts later) more ∧
        endedAfter ended (c.parts ++ laterParts later) = true := by
      intro ended
      have hend := Compound.endedAfter_parts hc ended
      refine ⟨laid_append.mpr ⟨c.laid_parts ended hbreaks, ?_⟩, ?_⟩
      · rwa [hend]
      · rw [endedAfter_append, hend, he]
    have hleading (hk : k ≠ .descendant) :
        Laid ended (.leading k :: (c.parts ++ laterParts later)) more := by
      refine ⟨⟨hk, ?_⟩, (hsteps false).1⟩
      rw [partsText_append, List.append_assoc]
      exact hbegins.1
    by_cases hk : k = .descendant
    · subst hk
      exact hsteps ended
    · have hparts : Group.parts ⟨⟨k, c⟩ :: later⟩ =
          .leading k :: (c.parts ++ laterParts later) := by
        simp [parts, leadingParts_of_ne hk]
      rw [hparts]
      exact ⟨hleading hk, (hsteps false).2⟩

theorem head_leadingText_visible {k : Combinator} (hk : k ≠ .descendant) (cs : List Char) :
    ∀ c ∈ (leadingText k ++ cs).head?, isWhiteSpace c = false := by
  cases k with
  | descendant => exact absurd rfl hk
  | child => rintro c ⟨⟩; decide
  | adjacentSibling => rintro c ⟨⟩; decide
  | generalSibling => rintro c ⟨⟩; decide

theorem head_leadingText {k : Combinator} (hk : k ≠ .descendant) (cs : List Char) :
    ∀ c ∈ (leadingText k ++ cs).head?, isBlank c = false := by
  intro c hc
  have hvisible := head_leadingText_visible hk cs c hc
  exact Bool.eq_false_iff.mpr fun hb =>
    Bool.false_ne_true (hvisible.symm.trans (isWhiteSpace_of_isBlank hb))

/-- No group begins with a blank. -/
theorem Group.head_parts {g : Group} (h : g.Present) (more : List Char) :
    ∀ c ∈ (partsText g.parts ++ more).head?, isBlank c = false := by
  obtain ⟨_ | ⟨⟨k, c⟩, later⟩⟩ := g
  · exact absurd rfl h.1
  · obtain ⟨hc, hn⟩ := h.2 ⟨k, c⟩ List.mem_cons_self
    have hbegins := c.beginsCompound_parts hc hn (partsText (laterParts later) ++ more)
    by_cases hk : k = .descendant
    · subst hk
      change ∀ d ∈ (partsText (c.parts ++ laterParts later) ++ more).head?, isBlank d = false
      rw [partsText_append, List.append_assoc]
      exact hbegins.1
    · have he : partsText (Group.parts ⟨⟨k, c⟩ :: later⟩) ++ more =
          leadingText k ++ (partsText (c.parts ++ laterParts later) ++ more) := by
        simp [parts, leadingParts_of_ne hk, Part.chars]
      rw [he]
      exact head_leadingText hk _

theorem breaks_laterGroupParts (gs : List Group) : Breaks (partsText (laterGroupParts gs) ++ []) := by
  cases gs with
  | nil => exact ⟨by simp [EndsName, laterGroupParts], by simp [laterGroupParts]⟩
  | cons g gs => exact breaks_comma _

theorem laid_laterGroupParts {gs : List Group} (h : ∀ g ∈ gs, g.Present) (ended : Bool) :
    Laid ended (laterGroupParts gs) [] := by
  induction gs generalizing ended with
  | nil => trivial
  | cons g gs ih =>
    have hg := h g List.mem_cons_self
    have hparts : laterGroupParts (g :: gs) = .comma :: (g.parts ++ laterGroupParts gs) := rfl
    have hhead := Group.head_parts hg (partsText (laterGroupParts gs) ++ [])
    rw [hparts]
    refine ⟨?_, laid_append.mpr ⟨(Group.laid_parts hg false (breaks_laterGroupParts gs)).1, ?_⟩⟩
    · rw [partsText_append, List.append_assoc]
      exact hhead
    · exact ih (fun f hf => h f (List.mem_cons_of_mem g hf)) _

namespace Selector

theorem Formed.present {s : Selector} (h : s.Formed) {g : Group} (hg : g ∈ s.groups) :
    g.Present := by
  refine ⟨h.steps g hg, fun t ht => ?_⟩
  have hc := mem_compounds hg ht
  exact ⟨h.compounds t.compound hc, fun name hn =>
    h.names name (List.mem_flatMap.mpr ⟨t.compound, hc, hn⟩)⟩

theorem Formed.laid {s : Selector} (h : s.Formed) : Laid false s.parts [] := by
  obtain ⟨_ | ⟨g, gs⟩⟩ := s
  · exact absurd rfl h.groups
  · have hp : ∀ f ∈ g :: gs, f.Present := fun f hf => h.present hf
    have hg := hp g List.mem_cons_self
    refine laid_append.mpr ⟨(Group.laid_parts hg false (breaks_laterGroupParts gs)).1, ?_⟩
    exact laid_laterGroupParts (fun f hf => hp f (List.mem_cons_of_mem g hf)) _

theorem Formed.head_chars {s : Selector} (h : s.Formed) :
    ∀ c ∈ s.chars.head?, isBlank c = false := by
  rw [s.chars_eq]
  obtain ⟨_ | ⟨g, gs⟩⟩ := s
  · exact absurd rfl h.groups
  · have hg : g.Present := h.present List.mem_cons_self
    have hh := Group.head_parts hg (partsText (laterGroupParts gs))
    rwa [← partsText_append] at hh

end Selector

end DocumentQuery
