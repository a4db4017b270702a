import DocumentQuery.Proofs.Grammar
import DocumentQuery.Proofs.IntegerText
import DocumentQuery.Proofs.SelectorShape

namespace DocumentQuery

/-- What stands in the parentheses of a printed pseudo-class. -/
def Argument.written : Argument → Option String
  | .none => Option.none
  | .text value => some value
  | .nth rule => some rule.text
  | .index value => some (String.ofList (integerText value.toInt))
  | .selector nested => some nested.text

namespace SimpleTest

def chars : SimpleTest → List Char
  | .id name => '#' :: nameText name.toList
  | .named name => '.' :: identifierText name.toList
  | .bracketed test => attributeText test
  | .pseudoClass test => test.chars
  | .pseudoElement test => ':' :: ':' :: test.spelling.toList

def comparisonTokens (test : AttributeTest) : List Token :=
  match test.value with
  | some value => [.operator test.operator, .quoted value]
  | none => []

def tokens : SimpleTest → List Token
  | .id name => [.idTest name]
  | .named name => [.classTest name]
  | .bracketed test =>
    .openBracket :: (namespaceTokens test.ns ++ .ident test.name :: comparisonTokens test ++
      [.closeBracket])
  | .pseudoClass test => .pseudoClass test.name.spelling :: argumentTokens test.argument.written
  | .pseudoElement test => [.pseudoElement test.spelling]

end SimpleTest

/-- The pieces of a printed selector between which the lexer is outside of brackets. -/
inductive Part where
  | typeTest (test : TypeTest)
  | simple (test : SimpleTest)
  | leading (k : Combinator)
  | between (k : Combinator)
  | comma

namespace Part

def chars : Part → List Char
  | .typeTest test => typeTestText (some test)
  | .simple test => test.chars
  | .leading k => leadingText k
  | .between k => betweenText k
  | .comma => [',', ' ']

def tokens : Part → List Token
  | .typeTest test => typeTokens (some test)
  | .simple test => test.tokens
  | .leading k | .between k => [.combinator k]
  | .comma => [.comma]

end Part

/-- The tests of a compound after its type test, in the order in which they are printed. -/
def Compound.tests (c : Compound) : List SimpleTest :=
  c.id.toList.map .id ++ c.classes.map .named ++ c.attributes.map .bracketed ++
    c.pseudoClasses.map .pseudoClass ++ c.pseudoElements.map .pseudoElement

def Compound.parts (c : Compound) : List Part :=
  c.typeTest.toList.map .typeTest ++ c.tests.map .simple

def laterParts (steps : List Step) : List Part :=
  steps.flatMap fun s => .between s.combinator :: s.compound.parts

def leadingParts : Combinator → List Part
  | .descendant => []
  | k => [.leading k]

def Group.parts (g : Group) : List Part :=
  match g.steps with
  | [] => []
  | first :: later => leadingParts first.combinator ++ first.compound.parts ++ laterParts later

def laterGroupParts (gs : List Group) : List Part :=
  gs.flatMap fun g => .comma :: g.parts

def Selector.parts (s : Selector) : List Part :=
  match s.groups with
  | [] => []
  | first :: later => first.parts ++ laterGroupParts later

def partsText (parts : List Part) : List Char :=
  parts.flatMap Part.chars

def partsTokens (parts : List Part) : List Token :=
  parts.flatMap Part.tokens

@[simp] theorem partsText_nil : partsText [] = [] := rfl

@[simp] theorem partsText_cons (x : Part) (xs : List Part) :
    partsText (x :: xs) = x.chars ++ partsText xs := rfl

@[simp] theorem partsText_append (xs ys : List Part) :
    partsText (xs ++ ys) = partsText xs ++ partsText ys :=
  List.flatMap_append

@[simp] theorem partsTokens_nil : partsTokens [] = [] := rfl

@[simp] theorem partsTokens_cons (x : Part) (xs : List Part) :
    partsTokens (x :: xs) = x.tokens ++ partsTokens xs := rfl

@[simp] theorem partsTokens_append (xs ys : List Part) :
    partsTokens (xs ++ ys) = partsTokens xs ++ partsTokens ys :=
  List.flatMap_append

theorem pseudoClassesText_eq (ps : List PseudoClass) :
    pseudoClassesText ps = ps.flatMap PseudoClass.chars := by
  induction ps with
  | nil => rw [pseudoClassesText]; rfl
  | cons p ps ih => rw [pseudoClassesText, ih]; rfl

theorem Argument.chars_eq (a : Argument) :
    a.chars = match a.written with
      | some raw => '(' :: raw.toList ++ [')']
      | Option.none => [] := by
  cases a <;> simp [chars, written, NthRule.text, Selector.text]

theorem partsText_simple (tests : List SimpleTest) :
    partsText (tests.map .simple) = tests.flatMap SimpleTest.chars := by
  rw [partsText, List.flatMap_map]
  rfl

theorem Compound.chars_eq (c : Compound) : c.chars = partsText c.parts := by
  obtain ⟨typeTest, id, classes, attributes, pseudoClasses, pseudoElements⟩ := c
  have ht : typeTestText typeTest = partsText (typeTest.toList.map .typeTest) := by
    cases typeTest <;> simp [typeTestText, Part.chars]
  have hi : idText id = (id.toList.map SimpleTest.id).flatMap SimpleTest.chars := by
    cases id <;> simp [idText, SimpleTest.chars]
  rw [Compound.chars, parts, partsText_append, partsText_simple, tests, ht, hi,
    pseudoClassesText_eq]
  simp only [List.flatMap_append, List.flatMap_map, List.append_assoc]
  rfl

theorem laterStepsText_eq (steps : List Step) :
    laterStepsText steps = partsText (laterParts steps) := by
  induction steps with
  | nil => rw [laterStepsText]; rfl
  | cons s steps ih =>
    obtain ⟨k, c⟩ := s
    rw [laterStepsText, ih, c.chars_eq]
    simp [laterParts, Part.chars]

theorem Group.chars_eq (g : Group) : g.chars = partsText g.parts := by
  obtain ⟨_ | ⟨⟨k, c⟩, steps⟩⟩ := g
  · rw [Group.chars]; rfl
  · have hk : leadingText k = partsText (leadingParts k) := by
      cases k <;> simp [leadingText, leadingParts, Part.chars]
    rw [Group.chars, laterStepsText_eq, c.chars_eq, hk]
    simp [parts]

theorem laterGroupsText_eq (gs : List Group) :
    laterGroupsText gs = partsText (laterGroupParts gs) := by
  induction gs with
  | nil => rw [laterGroupsText]; rfl
  | cons g gs ih =>
    rw [laterGroupsText, ih, g.chars_eq]
    simp [laterGroupParts, Part.chars]

/-- A printed selector is the text of its parts. -/
theorem Selector.chars_eq (s : Selector) : s.chars = partsText s.parts := by
  obtain ⟨_ | ⟨g, gs⟩⟩ := s
  · rw [Selector.chars]; rfl
  · rw [Selector.chars, laterGroupsText_eq, g.chars_eq]
    simp [parts]

def Selector.tokens (s : Selector) : List Token :=
  partsTokens s.parts

theorem PseudoClassName.ofName?_spelling_of_mem :
    ∀ pseudo ∈ all, ofName? pseudo.spelling = some pseudo := by
  decide +kernel

theorem PseudoClassName.ofName?_spelling (pseudo : PseudoClassName) :
    ofName? pseudo.spelling = some pseudo :=
  ofName?_spelling_of_mem pseudo (mem_all pseudo)

theorem PseudoElement.ofName?_spelling (pseudo : PseudoElement) :
    ofName? pseudo.spelling = some pseudo := by
  cases pseudo <;> decide

/-- Adding tests of one kind makes the list of that kind longer. -/
theorem foldl_add_map {α : Type} (make : α → SimpleTest) (grow : Compound → List α → Compound)
    (hn : ∀ c, grow c [] = c) (hc : ∀ c x xs, grow (c.add (make x)) xs = grow c (x :: xs))
    (c : Compound) (xs : List α) : (xs.map make).foldl Compound.add c = grow c xs := by
  induction xs generalizing c with
  | nil => exact (hn c).symm
  | cons x xs ih => exact (ih (c.add (make x))).trans (hc c x xs)

/-- The printed tests of a compound add up to the compound. -/
theorem Compound.collect_tests (c : Compound) : Compound.collect c.typeTest c.tests = c := by
  obtain ⟨typeTest, id, classes, attributes, pseudoClasses, pseudoElements⟩ := c
  have hi : (id.toList.map SimpleTest.id).foldl Compound.add { typeTest } =
      { typeTest, id } := by
    cases id <;> simp [add]
  have hclasses := foldl_add_map .named
    (fun c xs => { c with classes := c.classes ++ xs }) (by rintro ⟨⟩; simp) (by simp [add])
  have hattributes := foldl_add_map .bracketed
    (fun c xs => { c with attributes := c.attributes ++ xs }) (by rintro ⟨⟩; simp) (by simp [add])
  have hclassTests := foldl_add_map .pseudoClass
    (fun c xs => { c with pseudoClasses := c.pseudoClasses ++ xs }) (by rintro ⟨⟩; simp)
    (by simp [add])
  have helementTests := foldl_add_map .pseudoElement
    (fun c xs => { c with pseudoElements := c.pseudoElements ++ xs }) (by rintro ⟨⟩; simp)
    (by simp [add])
  simp only [collect, tests, List.foldl_append, hi, hclasses, hattributes, hclassTests,
    helementTests, List.nil_append]

theorem mem_tests_id {c : Compound} {a : String} (h : .id a ∈ c.tests) : c.id = some a := by
  simpa [Compound.tests] using h

theorem Compound.agreeOnId_tests (c : Compound) : AgreeOnId c.tests := by
  intro a b ha hb
  have he := (mem_tests_id ha).symm.trans (mem_tests_id hb)
  exact Option.some.inj he

theorem Compound.isSome_or_tests_ne_nil {c : Compound} (h : c.isEmpty = false) :
    c.typeTest.isSome = true ∨ c.tests ≠ [] := by
  obtain ⟨typeTest, id, classes, attributes, pseudoClasses, pseudoElements⟩ := c
  cases typeTest with
  | some test => exact .inl rfl
  | none =>
    right
    intro he
    simp only [tests, List.append_eq_nil_iff, List.map_eq_nil_iff] at he
    cases id <;> simp [isEmpty, he] at h
    simp at he

theorem comparisonDerives_tokens {test : AttributeTest}
    (h : test.value = none → test.operator = .exactly) :
    ComparisonDerives (SimpleTest.comparisonTokens test) test.operator test.value := by
  obtain ⟨ns, name, op, _ | value⟩ := test
  · cases h rfl
    exact .absent
  · exact .quoted op value

section

variable {nested : String → Selector → Prop}

/-- What has to hold of an argument to be read back from its written form. -/
structure Argument.ReadsBack (nested : String → Selector → Prop) (a : Argument) : Prop where
  rules : ∀ rule, a = .nth rule → ¬(rule.step ≠ 0 ∧ rule.offset = Int64.minValue)
  texts : ∀ text, a = .text text → text ≠ "" ∧ trimmed text = text
  nested : ∀ n, a = .selector n → trimmed n.text ≠ "" ∧ nested (trimmed n.text) n

theorem Argument.ReadsBack.derives {a : Argument} {kind : ArgumentKind}
    (h : a.ReadsBack nested) (hk : a.suits kind = true) :
    ArgumentDerives nested kind a.written a := by
  cases a with
  | none =>
    cases kind <;> simp [suits] at hk
    · exact .none
    · exact .ignored _
  | text value =>
    cases kind <;> simp [suits] at hk
    obtain ⟨hne, ht⟩ := h.texts value rfl
    have hd : ArgumentDerives nested .text (some value) (.text (trimmed value)) :=
      .text (ht.symm ▸ hne)
    rwa [ht] at hd
  | nth rule =>
    cases kind <;> simp [suits] at hk
    have hne : trimmed rule.text ≠ "" := by
      rw [Ne, trimmed_eq_empty_iff, NthRule.text, String.toList_ofList, rule.trim_chars]
      exact rule.chars_ne_nil
    have hd : ArgumentDerives nested .nth (some rule.text) (.nth (NthRule.read rule.text)) :=
      .nth hne
    rwa [NthRule.read_text (h.rules rule rfl)] at hd
  | index value =>
    cases kind <;> simp [suits] at hk
    have ht : trim (integerText value.toInt) = integerText value.toInt := trim_integerText _
    refine .index ?_ ?_
    · rw [Ne, trimmed_eq_empty_iff, String.toList_ofList, ht]
      exact integerText_ne_nil _
    · rw [toList_trimmed, String.toList_ofList, ht, readWord_integerText]
  | selector n =>
    cases kind <;> simp [suits] at hk
    obtain ⟨hne, hn⟩ := h.nested n rfl
    exact .selector hne hn

/-- What has to hold of a simple test to be read back from its tokens. -/
def SimpleTest.ReadsBack (nested : String → Selector → Prop) : SimpleTest → Prop
  | .bracketed test => test.value = none → test.operator = .exactly
  | .pseudoClass test =>
    test.argument.ReadsBack nested ∧ test.argument.suits test.name.argumentKind = true
  | _ => True

theorem SimpleTest.ReadsBack.derives {test : SimpleTest} (h : test.ReadsBack nested) :
    SimpleDerives nested test.tokens test := by
  cases test with
  | id name => exact .id name
  | named name => exact .named name
  | bracketed test => exact .bracketed (.mk (comparisonDerives_tokens h))
  | pseudoClass test =>
    obtain ⟨name, argument⟩ := test
    exact .pseudoClass name.ofName?_spelling (h.1.derives h.2)
  | pseudoElement test => exact .pseudoElement test.ofName?_spelling

theorem simplesDerive_tokens {tests : List SimpleTest}
    (h : ∀ test ∈ tests, test.ReadsBack nested) :
    SimplesDerive nested (partsTokens (tests.map .simple)) tests := by
  induction tests with
  | nil => exact .nil
  | cons test tests ih =>
    have ht := h test List.mem_cons_self
    exact .cons ht.derives (ih fun t hm => h t (List.mem_cons_of_mem test hm))

theorem Compound.derives_tokens {c : Compound} (hc : c.isEmpty = false)
    (h : ∀ test ∈ c.tests, test.ReadsBack nested) :
    CompoundDerives nested (partsTokens c.parts) c := by
  have ht : partsTokens (c.typeTest.toList.map .typeTest) = typeTokens c.typeTest := by
    cases c.typeTest <;> simp [typeTokens, Part.tokens]
  have hd := CompoundDerives.mk (simplesDerive_tokens h) c.agreeOnId_tests
    (isSome_or_tests_ne_nil hc)
  rwa [c.collect_tests, ← ht, ← partsTokens_append] at hd

theorem stepsDerive_tokens {first : Step} {later : List Step}
    (h : ∀ s ∈ first :: later, CompoundDerives nested (partsTokens s.compound.parts) s.compound) :
    StepsDerive nested first.combinator
      (partsTokens (first.compound.parts ++ laterParts later)) (first :: later) := by
  induction later generalizing first with
  | nil =>
    obtain ⟨k, c⟩ := first
    simp only [laterParts, List.flatMap_nil, List.append_nil]
    exact .last (h ⟨k, c⟩ List.mem_cons_self)
  | cons next later ih =>
    have hn := ih fun s hs => h s (List.mem_cons_of_mem first hs)
    obtain ⟨k, c⟩ := first
    rw [partsTokens_append]
    exact .next (h ⟨k, c⟩ List.mem_cons_self) hn

theorem Group.derives_tokens {g : Group} (hg : g.steps ≠ [])
    (h : ∀ s ∈ g.steps, CompoundDerives nested (partsTokens s.compound.parts) s.compound) :
    GroupDerives nested (partsTokens g.parts) g := by
  obtain ⟨_ | ⟨⟨k, c⟩, later⟩⟩ := g
  · exact absurd rfl hg
  · have hs := stepsDerive_tokens h
    cases k with
    | descendant => exact .implicit hs
    | child => exact .explicit hs
    | adjacentSibling => exact .explicit hs
    | generalSibling => exact .explicit hs

theorem groupsDerive_tokens {first : Group} {later : List Group}
    (h : ∀ g ∈ first :: later, GroupDerives nested (partsTokens g.parts) g) :
    GroupsDerive nested (partsTokens (first.parts ++ laterGroupParts later)) (first :: later) := by
  induction later generalizing first with
  | nil =>
    simp only [laterGroupParts, List.flatMap_nil, List.append_nil]
    exact .last (h first List.mem_cons_self)
  | cons next later ih =>
    have hn := ih fun g hg => h g (List.mem_cons_of_mem first hg)
    rw [partsTokens_append]
    exact .next (h first List.mem_cons_self) hn

end

theorem Selector.Formed.test_readsBack {nested : String → Selector → Prop} {s : Selector}
    (h : s.Formed)
    (hn : ∀ n, .selector n ∈ s.arguments → trimmed n.text ≠ "" ∧ nested (trimmed n.text) n)
    {c : Compound} (hc : c ∈ s.compounds) {test : SimpleTest} (ht : test ∈ c.tests) :
    test.ReadsBack nested := by
  cases test with
  | bracketed test =>
    have hm : test ∈ c.attributes := by simpa [Compound.tests] using ht
    exact h.operators test (List.mem_flatMap.mpr ⟨c, hc, hm⟩)
  | pseudoClass test =>
    have hm : test ∈ c.pseudoClasses := by simpa [Compound.tests] using ht
    have hp : test ∈ s.pseudoClasses := List.mem_flatMap.mpr ⟨c, hc, hm⟩
    have ha : test.argument ∈ s.arguments := List.mem_map_of_mem hp
    refine ⟨⟨fun rule he => ?_, fun text he => ?_, fun n he => ?_⟩, h.kinds test hp⟩
    · exact h.rules rule (he ▸ ha)
    · exact h.texts text (he ▸ ha)
    · exact hn n (he ▸ ha)
  | id => trivial
  | named => trivial
  | pseudoElement => trivial

/-- The tokens of a printed selector mean that selector. -/
theorem Selector.Formed.derives_tokens {nested : String → Selector → Prop} {s : Selector}
    (h : s.Formed)
    (hn : ∀ n, .selector n ∈ s.arguments → trimmed n.text ≠ "" ∧ nested (trimmed n.text) n) :
    SelectorDerives nested s.tokens s := by
  have hgroups : ∀ g ∈ s.groups, GroupDerives nested (partsTokens g.parts) g := by
    intro g hg
    refine g.derives_tokens (h.steps g hg) fun t ht => ?_
    have hc := mem_compounds hg ht
    exact Compound.derives_tokens (h.compounds t.compound hc) fun test => h.test_readsBack hn hc
  obtain ⟨_ | ⟨g, gs⟩⟩ := s
  · exact absurd rfl h.groups
  · exact groupsDerive_tokens hgroups

end DocumentQuery
