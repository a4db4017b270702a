import Mathlib.Data.List.Forall2
import DocumentQuery.Proofs.TrimmedSelectors
import DocumentQuery.Proofs.GrammarReading

namespace DocumentQuery

def Token.names : Token → List String
  | .ident name | .idTest name | .classTest name => [name]
  | _ => []

def SimpleTest.names : SimpleTest → List String
  | .id name | .named name => [name]
  | .bracketed test => test.names
  | _ => []

theorem Compound.mem_tests_add {c : Compound} {test other : SimpleTest}
    (h : test ∈ (c.add other).tests) : test ∈ c.tests ∨ test = other := by
  cases other <;> cases test <;> simp_all [add, tests]

theorem Compound.mem_tests_foldl {c : Compound} {tests : List SimpleTest} {test : SimpleTest}
    (h : test ∈ (tests.foldl Compound.add c).tests) : test ∈ c.tests ∨ test ∈ tests := by
  induction tests generalizing c with
  | nil => exact .inl h
  | cons other tests ih =>
    rcases ih h with hc | ht
    · exact (mem_tests_add hc).imp_right fun he => List.mem_cons.mpr (.inl he)
    · exact .inr (List.mem_cons_of_mem other ht)

/-- A compound has no tests but those that are collected in it. -/
theorem Compound.mem_of_mem_collect {typeTest : Option TypeTest} {tests : List SimpleTest}
    {test : SimpleTest} (h : test ∈ (Compound.collect typeTest tests).tests) : test ∈ tests := by
  rcases mem_tests_foldl h with hc | ht
  · simp [Compound.tests] at hc
  · exact ht

theorem Compound.typeTest_foldl (c : Compound) (tests : List SimpleTest) :
    (tests.foldl Compound.add c).typeTest = c.typeTest := by
  induction tests generalizing c with
  | nil => rfl
  | cons test tests ih =>
    rw [List.foldl_cons, ih]
    cases test <;> rfl

section

variable {nested : String → Selector → Prop}

theorem mem_namespaceTokens {ns : Option NamespaceTest} {name : String}
    (h : name ∈ (ns.map NamespaceTest.names).getD []) : .ident name ∈ namespaceTokens ns := by
  match ns with
  | none => cases h
  | some .any => cases h
  | some .without => cases h
  | some (.bound nsPrefix) =>
    have hn : name = nsPrefix := List.mem_singleton.mp h
    rw [hn]
    exact List.mem_cons_self

theorem mem_typeTokens {test : TypeTest} {name : String} (h : name ∈ test.names) :
    .ident name ∈ typeTokens (some test) := by
  rcases List.mem_append.mp h with h | h
  · exact List.mem_append_left _ (mem_namespaceTokens h)
  · have hn : test.name = some name := by simpa using h
    simp [typeTokens, nameToken, hn]

theorem SimpleDerives.names {ts : List Token} {test : SimpleTest}
    (h : SimpleDerives nested ts test) {name : String} (hn : name ∈ test.names) :
    ∃ t ∈ ts, name ∈ t.names := by
  cases h with
  | id a => exact ⟨_, List.mem_cons_self, hn⟩
  | named a => exact ⟨_, List.mem_cons_self, hn⟩
  | pseudoClass => cases hn
  | pseudoElement => cases hn
  | bracketed h =>
    obtain ⟨hc⟩ := h
    refine ⟨.ident name, ?_, List.mem_singleton.mpr rfl⟩
    rcases List.mem_append.mp hn with hn | hn
    · simp [mem_namespaceTokens hn]
    · simp [List.mem_singleton.mp hn]

theorem SimplesDerive.mem {ts : List Token} {tests : List SimpleTest}
    (h : SimplesDerive nested ts tests) {test : SimpleTest} (hm : test ∈ tests) :
    ∃ us, us ⊆ ts ∧ SimpleDerives nested us test := by
  induction h with
  | nil => cases hm
  | @cons ts us other tests hd hs ih =>
    rcases List.mem_cons.mp hm with rfl | hm
    · exact ⟨ts, List.subset_append_left ts us, hd⟩
    · obtain ⟨vs, hv, hd⟩ := ih hm
      exact ⟨vs, List.Subset.trans hv (List.subset_append_right ts us), hd⟩

theorem CompoundDerives.test {ts : List Token} {c : Compound} (h : CompoundDerives nested ts c)
    {test : SimpleTest} (hm : test ∈ c.tests) :
    ∃ us, us ⊆ ts ∧ SimpleDerives nested us test := by
  obtain ⟨hs, -, -⟩ := h
  obtain ⟨us, hu, hd⟩ := hs.mem (Compound.mem_of_mem_collect hm)
  exact ⟨us, List.Subset.trans hu (List.subset_append_right _ _), hd⟩

theorem CompoundDerives.names {ts : List Token} {c : Compound} (h : CompoundDerives nested ts c)
    {name : String} (hn : name ∈ c.names) : ∃ t ∈ ts, name ∈ t.names := by
  have htest : ∀ test ∈ c.tests, name ∈ test.names → ∃ t ∈ ts, name ∈ t.names := by
    intro test ht hn
    obtain ⟨us, hu, hd⟩ := h.test ht
    obtain ⟨t, hm, hn⟩ := hd.names hn
    exact ⟨t, hu hm, hn⟩
  simp only [Compound.names, List.mem_append, List.mem_flatMap] at hn
  rcases hn with ((hn | hn) | hn) | ⟨test, hm, hn⟩
  · cases htype : c.typeTest with
    | none => simp [htype] at hn
    | some test =>
      obtain ⟨hs, -, -⟩ := h
      rw [Compound.collect, Compound.typeTest_foldl] at htype
      cases htype
      rw [Compound.collect, Compound.typeTest_foldl] at hn
      exact ⟨_, List.mem_append_left _ (mem_typeTokens hn), List.mem_singleton.mpr rfl⟩
  · exact htest (.id name) (by simpa [Compound.tests] using hn) (List.mem_singleton.mpr rfl)
  · exact htest (.named name) (by simpa [Compound.tests] using hn) (List.mem_singleton.mpr rfl)
  · exact htest (.bracketed test) (by simpa [Compound.tests] using hm) hn

theorem CompoundDerives.isEmpty {ts : List Token} {c : Compound}
    (h : CompoundDerives nested ts c) : c.isEmpty = false := by
  obtain ⟨-, -, hn⟩ := h
  exact (Compound.isEmpty_collect _ _).mpr hn

theorem StepsDerive.compound {k : Combinator} {ts : List Token} {steps : List Step}
    (h : StepsDerive nested k ts steps) {s : Step} (hs : s ∈ steps) :
    ∃ us, us ⊆ ts ∧ CompoundDerives nested us s.compound := by
  induction h with
  | last hc =>
    rw [List.mem_singleton.mp hs]
    exact ⟨_, List.Subset.refl _, hc⟩
  | @next k next ts us c steps hc _ ih =>
    rcases List.mem_cons.mp hs with rfl | hs
    · exact ⟨ts, List.subset_append_left _ _, hc⟩
    · obtain ⟨vs, hv, hd⟩ := ih hs
      exact ⟨vs, fun t ht => by simp [hv ht], hd⟩

theorem StepsDerive.ne_nil {k : Combinator} {ts : List Token} {steps : List Step}
    (h : StepsDerive nested k ts steps) : steps ≠ [] := by
  cases h <;> simp

theorem GroupDerives.steps {ts : List Token} {g : Group} (h : GroupDerives nested ts g) :
    ∃ k us, us ⊆ ts ∧ StepsDerive nested k us g.steps := by
  cases h with
  | implicit h => exact ⟨_, ts, List.Subset.refl _, h⟩
  | explicit h => exact ⟨_, _, List.subset_cons_self _ _, h⟩

theorem GroupsDerive.group {ts : List Token} {gs : List Group} (h : GroupsDerive nested ts gs)
    {g : Group} (hg : g ∈ gs) : ∃ us, us ⊆ ts ∧ GroupDerives nested us g := by
  induction h with
  | last h =>
    rw [List.mem_singleton.mp hg]
    exact ⟨_, List.Subset.refl _, h⟩
  | @next ts us other gs h _ ih =>
    rcases List.mem_cons.mp hg with rfl | hg
    · exact ⟨ts, List.subset_append_left _ _, h⟩
    · obtain ⟨vs, hv, hd⟩ := ih hg
      exact ⟨vs, fun t ht => by simp [hv ht], hd⟩

theorem GroupsDerive.ne_nil {ts : List Token} {gs : List Group} (h : GroupsDerive nested ts gs) :
    gs ≠ [] := by
  cases h <;> simp

namespace SelectorDerives

variable {ts : List Token} {s : Selector}

theorem compound (h : SelectorDerives nested ts s) {c : Compound} (hc : c ∈ s.compounds) :
    ∃ us, us ⊆ ts ∧ CompoundDerives nested us c := by
  obtain ⟨g, hg, hc⟩ := List.mem_flatMap.mp hc
  obtain ⟨t, ht, rfl⟩ := List.mem_map.mp hc
  obtain ⟨us, hu, hd⟩ := GroupsDerive.group h hg
  obtain ⟨k, vs, hv, hd⟩ := hd.steps
  obtain ⟨ws, hw, hd⟩ := hd.compound ht
  exact ⟨ws, List.Subset.trans (List.Subset.trans hw hv) hu, hd⟩

/-- A derived selector has no names but those of its tokens. -/
theorem names (h : SelectorDerives nested ts s) {name : String} (hn : name ∈ s.names) :
    ∃ t ∈ ts, name ∈ t.names := by
  obtain ⟨c, hc, hn⟩ := List.mem_flatMap.mp hn
  obtain ⟨us, hu, hd⟩ := h.compound hc
  obtain ⟨t, ht, hn⟩ := hd.names hn
  exact ⟨t, hu ht, hn⟩

theorem operator (h : SelectorDerives nested ts s) {test : AttributeTest}
    (ht : test ∈ s.attributes) (hv : test.value = none) : test.operator = .exactly := by
  obtain ⟨c, hc, ht⟩ := List.mem_flatMap.mp ht
  have hm : SimpleTest.bracketed test ∈ c.tests := by simpa [Compound.tests] using ht
  obtain ⟨us, -, hd⟩ := h.compound hc
  obtain ⟨vs, -, hd⟩ := hd.test hm
  cases hd with
  | bracketed hd =>
    obtain ⟨hc⟩ := hd
    obtain ⟨ns, name, op, value⟩ := test
    cases hv
    cases hc
    rfl

theorem pseudoClass (h : SelectorDerives nested ts s) {p : PseudoClass}
    (hp : p ∈ s.pseudoClasses) :
    ∃ raw, ArgumentDerives nested p.name.argumentKind raw p.argument ∧
      ∀ r ∈ raw, .arguments r ∈ ts := by
  obtain ⟨c, hc, hp⟩ := List.mem_flatMap.mp hp
  have hm : SimpleTest.pseudoClass p ∈ c.tests := by simpa [Compound.tests] using hp
  obtain ⟨us, hu, hd⟩ := h.compound hc
  obtain ⟨vs, hv, hd⟩ := hd.test hm
  cases hd with
  | @pseudoClass name pseudo raw argument hname ha =>
    refine ⟨raw, ha, fun r hr => hu (hv ?_)⟩
    rw [Option.mem_def.mp hr]
    simp [argumentTokens]

end SelectorDerives

end

/-- What holds of each token that is scanned: no name is empty, and no argument is open. -/
structure Token.Sound (t : Token) : Prop where
  names : ∀ name ∈ t.names, name ≠ ""
  arguments : ∀ raw, t = .arguments raw → ClosedArgument raw.toList

theorem Token.ReadAt.sound {t : Token} {c : Char} (h : t.ReadAt c)
    (ha : ∀ raw, t ≠ .arguments raw) : t.Sound := by
  refine ⟨fun name hm => h.name name ?_, fun raw he => absurd he (ha raw)⟩
  cases t <;> simp_all [Token.names, Token.name?]

theorem LexerMode.sound_scan {mode : LexerMode} {p : Option Token} {front rest after : List Char}
    {c : Char} {t : Token} (hf : mode.front front = c :: rest)
    (h : mode.scan p c rest = .token t after) : t.Sound := by
  cases mode with
  | outside =>
    obtain ⟨hread, ht⟩ := Scan.outside_token h
    exact hread.sound (by rintro raw rfl; simp [Token.separates, Token.beginsCompound] at ht)
  | brackets opened =>
    obtain ⟨hread, ht⟩ := Scan.inside_token (isBlank_of_skipBlanks_eq_cons hf) h
    exact hread.sound (by rintro raw rfl; simp [Token.standsInside] at ht)
  | arguments =>
    rcases Scan.arguments_cases rest with ⟨raw, _, ha, hr⟩ | ha <;> cases h.symm.trans ha
    refine ⟨by simp [Token.names], fun raw he => ?_⟩
    cases he
    rw [String.toList_ofList]
    exact (readArguments_eq_some_iff.mp hr).2

/-- The tokens of a text are sound. -/
theorem sound_of_tokensFrom {mode : LexerMode} {p : Option Token} {cs : List Char}
    {ts : List Token} (h : tokensFrom mode p cs = some (ts ++ [.finish])) : ∀ t ∈ ts, t.Sound := by
  obtain ⟨us, he, hus⟩ := forall_mem_of_tokensFrom
    (fun _ _ _ _ _ _ _ hf hs => LexerMode.sound_scan hf hs) h
  rw [List.append_cancel_right he]
  exact hus

theorem ArgumentDerives.suits {nested : String → Selector → Prop} {kind : ArgumentKind}
    {raw : Option String} {a : Argument} (h : ArgumentDerives nested kind raw a) :
    a.suits kind = true := by
  cases h <;> rfl

namespace SelectorDerives

variable {nested : String → Selector → Prop} {ts : List Token} {s : Selector}

theorem argument (h : SelectorDerives nested ts s) {a : Argument} (ha : a ∈ s.arguments) :
    ∃ kind raw, ArgumentDerives nested kind raw a ∧ ∀ r ∈ raw, .arguments r ∈ ts := by
  obtain ⟨p, hp, rfl⟩ := List.mem_map.mp ha
  obtain ⟨raw, hd, hr⟩ := h.pseudoClass hp
  exact ⟨_, raw, hd, hr⟩

theorem formed (h : SelectorDerives nested ts s) (hs : ∀ t ∈ ts, t.Sound) : s.Formed where
  groups := GroupsDerive.ne_nil h
  steps g hg := by
    obtain ⟨us, -, hd⟩ := GroupsDerive.group h hg
    obtain ⟨k, vs, -, hd⟩ := hd.steps
    exact hd.ne_nil
  compounds c hc := by
    obtain ⟨us, -, hd⟩ := h.compound hc
    exact hd.isEmpty
  names name hn := by
    obtain ⟨t, ht, hn⟩ := h.names hn
    exact (hs t ht).names name hn
  operators test ht hv := h.operator ht hv
  kinds p hp := by
    obtain ⟨raw, hd, -⟩ := h.pseudoClass hp
    exact hd.suits
  rules rule hm := by
    obtain ⟨kind, raw, hd, -⟩ := h.argument hm
    cases hd
    exact NthRule.read_fits _
  texts text hm := by
    obtain ⟨kind, raw, hd, -⟩ := h.argument hm
    cases hd with
    | text hne => exact ⟨hne, trimmed_trimmed _⟩

theorem shaped {levels : Nat} (h : SelectorDerives nested ts s) (hs : ∀ t ∈ ts, t.Sound)
    (hn : ∀ text n, nested text n → 0 < levels ∧ n.Shaped (levels - 1)) : s.Shaped levels := by
  have hnested : ∀ n, .selector n ∈ s.arguments → 0 < levels ∧ n.Shaped (levels - 1) := by
    intro n hm
    obtain ⟨kind, raw, hd, -⟩ := h.argument hm
    cases hd with
    | selector _ hd => exact hn _ n hd
  refine .mk (h.formed hs) (fun text hm => ?_) (fun n hm => (hnested n hm).1)
    (fun n hm => (hnested n hm).2)
  obtain ⟨kind, raw, hd, hr⟩ := h.argument hm
  cases hd with
  | text hne =>
    rw [toList_trimmed]
    exact after_trim ((hs _ (hr _ rfl)).arguments _ rfl)

end SelectorDerives

/-- A selector that a text means is of the form that selectors of texts have. -/
theorem TextDerives.shaped {levels : Nat} {text : String} {s : Selector}
    (h : TextDerives (levels + 1) text s) : s.Shaped levels := by
  induction levels generalizing text s with
  | zero =>
    obtain ⟨ts, hlex, hd⟩ := h
    exact hd.shaped (sound_of_tokensFrom hlex) fun _ _ hn => hn.elim
  | succ levels ih =>
    obtain ⟨ts, hlex, hd⟩ := h
    exact hd.shaped (sound_of_tokensFrom hlex) fun _ _ hn => ⟨Nat.succ_pos levels, ih hn⟩

/-- How much white space stands in the names of tests. -/
def testsWhite (tests : List SimpleTest) : Nat :=
  tokensWhite (tests.flatMap SimpleTest.tokens)

theorem testsWhite_append (xs ys : List SimpleTest) :
    testsWhite (xs ++ ys) = testsWhite xs + testsWhite ys := by
  simp [testsWhite]

theorem testsWhite_singleton (test : SimpleTest) : testsWhite [test] = tokensWhite test.tokens := by
  simp [testsWhite]

theorem testsWhite_add (c : Compound) (test : SimpleTest) :
    testsWhite (c.add test).tests ≤ testsWhite c.tests + tokensWhite test.tokens := by
  rw [← testsWhite_singleton]
  cases test <;>
    simp only [Compound.add, Compound.tests, List.map_append, List.map_cons, List.map_nil,
      Option.toList_some, testsWhite_append] <;> omega

theorem testsWhite_foldl (c : Compound) (tests : List SimpleTest) :
    testsWhite (tests.foldl Compound.add c).tests ≤ testsWhite c.tests + testsWhite tests := by
  induction tests generalizing c with
  | nil => exact Nat.le_add_right _ _
  | cons test tests ih =>
    have hadd := testsWhite_add c test
    have hrest := ih (c.add test)
    have hcons := testsWhite_append [test] tests
    rw [testsWhite_singleton, List.singleton_append] at hcons
    rw [List.foldl_cons]
    omega

section

variable {nested : String → Selector → Prop}

theorem SimpleDerives.white_le {ts : List Token} {test : SimpleTest}
    (h : SimpleDerives nested ts test) : tokensWhite test.tokens ≤ tokensWhite ts := by
  cases h with
  | id name => exact Nat.le_refl _
  | named name => exact Nat.le_refl _
  | pseudoElement => exact Nat.zero_le _
  | @pseudoClass name pseudo raw argument =>
    have hz : tokensWhite (SimpleTest.pseudoClass ⟨pseudo, argument⟩).tokens = 0 := by
      cases hw : argument.written <;> simp [SimpleTest.tokens, argumentTokens, Token.white, hw]
    omega
  | @bracketed ts test h =>
    obtain ⟨hc⟩ := h
    have hz : tokensWhite (SimpleTest.comparisonTokens test) = 0 := by
      obtain ⟨ns, name, op, _ | value⟩ := test <;> rfl
    simp only [SimpleTest.tokens, tokensWhite_cons, tokensWhite_append, tokensWhite_nil, hz]
    omega

theorem SimplesDerive.white_le {ts : List Token} {tests : List SimpleTest}
    (h : SimplesDerive nested ts tests) : testsWhite tests ≤ tokensWhite ts := by
  induction h with
  | nil => exact Nat.le_refl _
  | @cons ts us test tests hd _ ih =>
    have hle := hd.white_le
    have hcons := testsWhite_append [test] tests
    rw [testsWhite_singleton, List.singleton_append] at hcons
    rw [tokensWhite_append]
    omega

theorem tokensWhite_compound (c : Compound) :
    tokensWhite (partsTokens c.parts) = tokensWhite (typeTokens c.typeTest) + testsWhite c.tests := by
  have ht : partsTokens (c.typeTest.toList.map .typeTest) = typeTokens c.typeTest := by
    cases c.typeTest <;> simp [typeTokens, Part.tokens]
  have hs : partsTokens (c.tests.map .simple) = c.tests.flatMap SimpleTest.tokens := by
    rw [partsTokens, List.flatMap_map]
    rfl
  rw [Compound.parts, partsTokens_append, ht, hs, tokensWhite_append, testsWhite]

theorem CompoundDerives.white_le {ts : List Token} {c : Compound}
    (h : CompoundDerives nested ts c) : tokensWhite (partsTokens c.parts) ≤ tokensWhite ts := by
  obtain ⟨hs, -, -⟩ := h
  rename_i typeTest ts tests
  have hle := hs.white_le
  have hcollect : testsWhite (Compound.collect typeTest tests).tests ≤ testsWhite tests := by
    have hfold := testsWhite_foldl { typeTest } tests
    have hnone : testsWhite (Compound.tests { typeTest }) = 0 := rfl
    rw [Compound.collect]
    omega
  have htype : (Compound.collect typeTest tests).typeTest = typeTest := Compound.typeTest_foldl _ _
  rw [tokensWhite_compound, htype, tokensWhite_append]
  omega

theorem StepsDerive.white_le {k : Combinator} {ts : List Token} {first : Step} {later : List Step}
    (h : StepsDerive nested k ts (first :: later)) :
    tokensWhite (partsTokens (first.compound.parts ++ laterParts later)) ≤ tokensWhite ts := by
  induction later generalizing k ts first with
  | nil =>
    cases h with
    | last hc => simpa [laterParts] using hc.white_le
    | next hc hs => exact absurd rfl hs.ne_nil
  | cons second later ih =>
    cases h with
    | next hc hs =>
      have hle := hc.white_le
      have hrest := ih hs
      have hlater : laterParts (second :: later) =
          .between second.combinator :: (second.compound.parts ++ laterParts later) := rfl
      rw [hlater]
      simp only [partsTokens_append, partsTokens_cons, tokensWhite_append, tokensWhite_cons,
        Part.tokens, tokensWhite_nil, Token.white] at hrest ⊢
      omega

theorem GroupDerives.white_le {ts : List Token} {g : Group} (h : GroupDerives nested ts g) :
    tokensWhite (partsTokens g.parts) ≤ tokensWhite ts := by
  obtain ⟨k, us, hw, hd⟩ : ∃ k us, tokensWhite us = tokensWhite ts ∧
      StepsDerive nested k us g.steps := by
    cases h with
    | implicit h => exact ⟨_, _, rfl, h⟩
    | explicit h => exact ⟨_, _, by simp [Token.white], h⟩
  obtain ⟨_ | ⟨first, later⟩⟩ := g
  · exact absurd rfl hd.ne_nil
  · have hle := hd.white_le
    have hlead : tokensWhite (partsTokens (leadingParts first.combinator)) = 0 := by
      cases first.combinator <;> rfl
    simp only [Group.parts, partsTokens_append, tokensWhite_append, hlead] at hle ⊢
    omega

theorem GroupsDerive.white_le {ts : List Token} {first : Group} {later : List Group}
    (h : GroupsDerive nested ts (first :: later)) :
    tokensWhite (partsTokens (first.parts ++ laterGroupParts later)) ≤ tokensWhite ts := by
  induction later generalizing ts first with
  | nil =>
    cases h with
    | last h => simpa [laterGroupParts] using h.white_le
    | next h hs => exact absurd rfl hs.ne_nil
  | cons second later ih =>
    cases h with
    | next h hs =>
      have hle := h.white_le
      have hrest := ih hs
      have hlater : laterGroupParts (second :: later) =
          .comma :: (second.parts ++ laterGroupParts later) := rfl
      rw [hlater]
      simp only [partsTokens_append, partsTokens_cons, tokensWhite_append, tokensWhite_cons,
        Part.tokens, tokensWhite_nil, Token.white] at hrest ⊢
      omega

/-- The tokens that a selector is printed with have the least white space in names. -/
theorem SelectorDerives.white_le {ts : List Token} {s : Selector}
    (h : SelectorDerives nested ts s) : tokensWhite s.tokens ≤ tokensWhite ts := by
  obtain ⟨_ | ⟨first, later⟩⟩ := s
  · exact absurd rfl (GroupsDerive.ne_nil h)
  · exact GroupsDerive.white_le h

end

/-- The names of the pseudo-classes among tokens, each with the argument behind it. -/
def pseudoParts : List Token → List (String × Option String)
  | [] => []
  | .pseudoClass name :: .arguments raw :: ts => (name, some raw) :: pseudoParts ts
  | .pseudoClass name :: ts => (name, none) :: pseudoParts ts
  | _ :: ts => pseudoParts ts

theorem pseudoParts_append (ts : List Token) {us : List Token}
    (h : ∀ raw, us.head? ≠ some (.arguments raw)) :
    pseudoParts (ts ++ us) = pseudoParts ts ++ pseudoParts us := by
  fun_induction pseudoParts ts with
  | case1 => rfl
  | case2 name raw ts ih => simp [pseudoParts, ih]
  | case3 name ts hts ih =>
    cases ts with
    | nil =>
      cases us with
      | nil => simp [pseudoParts]
      | cons u us =>
        cases u with
        | arguments raw => exact absurd rfl (h raw)
        | _ => simp [pseudoParts]
    | cons t ts =>
      rw [List.cons_append, List.cons_append, pseudoParts]
      · rw [← List.cons_append, ih, List.cons_append]
      · intro raw rest he
        exact hts raw ts (by rw [(List.cons.inj he).1])
  | case4 t ts h1 h2 ih =>
    rw [List.cons_append, pseudoParts]
    · exact ih
    · exact fun name _ _ he _ => h2 name he
    · exact h2

theorem pseudoParts_namespace (ns : Option NamespaceTest) (ts : List Token) :
    pseudoParts (namespaceTokens ns ++ ts) = pseudoParts ts := by
  match ns with
  | none => rfl
  | some .any => simp [namespaceTokens, pseudoParts]
  | some .without => simp [namespaceTokens, pseudoParts]
  | some (.bound nsPrefix) => simp [namespaceTokens, pseudoParts]

theorem pseudoParts_typeTokens (typeTest : Option TypeTest) (ts : List Token) :
    pseudoParts (typeTokens typeTest ++ ts) = pseudoParts ts := by
  cases typeTest with
  | none => rfl
  | some test =>
    obtain ⟨ns, _ | name⟩ := test <;>
      simp [typeTokens, pseudoParts_namespace, nameToken, pseudoParts]

def SimpleTest.pseudoClasses : SimpleTest → List PseudoClass
  | .pseudoClass test => [test]
  | _ => []

theorem Compound.pseudoClasses_foldl (c : Compound) (tests : List SimpleTest) :
    (tests.foldl Compound.add c).pseudoClasses =
      c.pseudoClasses ++ tests.flatMap SimpleTest.pseudoClasses := by
  induction tests generalizing c with
  | nil => simp
  | cons test tests ih =>
    rw [List.foldl_cons, ih]
    cases test <;> simp [add, SimpleTest.pseudoClasses]

section

variable {nested : String → Selector → Prop}

/-- A pseudo-class is read from its name and its argument. -/
def PartDerives (nested : String → Selector → Prop) (part : String × Option String)
    (p : PseudoClass) : Prop :=
  PseudoClassName.ofName? part.1 = some p.name ∧
    ArgumentDerives nested p.name.argumentKind part.2 p.argument

theorem ComparisonDerives.pseudoParts {ts : List Token} {op : AttributeOperator}
    {value : Option String} (h : ComparisonDerives ts op value) :
    DocumentQuery.pseudoParts (ts ++ [.closeBracket]) = [] := by
  cases h <;> simp [DocumentQuery.pseudoParts]

theorem SimpleDerives.pseudoParts {ts : List Token} {test : SimpleTest}
    (h : SimpleDerives nested ts test) :
    List.Forall₂ (PartDerives nested) (DocumentQuery.pseudoParts ts) test.pseudoClasses := by
  cases h with
  | id name => exact .nil
  | named name => exact .nil
  | pseudoElement => exact .nil
  | @pseudoClass name pseudo raw argument hn ha =>
    cases raw <;> exact .cons ⟨hn, ha⟩ .nil
  | bracketed h =>
    obtain ⟨hc⟩ := h
    have he := hc.pseudoParts
    rw [DocumentQuery.pseudoParts, List.append_assoc, pseudoParts_namespace, List.cons_append,
      DocumentQuery.pseudoParts, he]
    · exact .nil
    all_goals simp

theorem SimpleDerives.head {ts : List Token} {test : SimpleTest}
    (h : SimpleDerives nested ts test) (us : List Token) (raw : String) :
    (ts ++ us).head? ≠ some (.arguments raw) := by
  obtain ⟨t, more, rfl, -, -, ht⟩ := h.exists_cons
  simpa using ht raw

theorem SimplesDerive.pseudoParts {ts : List Token} {tests : List SimpleTest}
    (h : SimplesDerive nested ts tests) :
    List.Forall₂ (PartDerives nested) (DocumentQuery.pseudoParts ts)
      (tests.flatMap SimpleTest.pseudoClasses) := by
  induction h with
  | nil => exact .nil
  | @cons ts us test tests hd hs ih =>
    have hhead : ∀ raw, us.head? ≠ some (.arguments raw) := by
      intro raw
      cases hs with
      | nil => simp
      | cons hd _ => exact hd.head _ raw
    rw [pseudoParts_append ts hhead, List.flatMap_cons]
    exact List.rel_append hd.pseudoParts ih

theorem CompoundDerives.pseudoParts {ts : List Token} {c : Compound}
    (h : CompoundDerives nested ts c) :
    List.Forall₂ (PartDerives nested) (DocumentQuery.pseudoParts ts) c.pseudoClasses := by
  obtain ⟨hs, -, -⟩ := h
  rw [pseudoParts_typeTokens, Compound.collect, Compound.pseudoClasses_foldl]
  exact hs.pseudoParts

theorem StepsDerive.pseudoParts {k : Combinator} {ts : List Token} {steps : List Step}
    (h : StepsDerive nested k ts steps) :
    List.Forall₂ (PartDerives nested) (DocumentQuery.pseudoParts ts)
      (steps.flatMap fun s => s.compound.pseudoClasses) := by
  induction h with
  | last hc => simpa using hc.pseudoParts
  | next hc _ ih =>
    rw [pseudoParts_append _ (by simp), DocumentQuery.pseudoParts, List.flatMap_cons]
    · exact List.rel_append hc.pseudoParts ih
    all_goals simp

theorem GroupDerives.pseudoParts {ts : List Token} {g : Group} (h : GroupDerives nested ts g) :
    List.Forall₂ (PartDerives nested) (DocumentQuery.pseudoParts ts)
      (g.steps.flatMap fun s => s.compound.pseudoClasses) := by
  cases h with
  | implicit h => exact h.pseudoParts
  | explicit h =>
    rw [DocumentQuery.pseudoParts]
    · exact h.pseudoParts
    all_goals simp

theorem GroupsDerive.pseudoParts {ts : List Token} {gs : List Group}
    (h : GroupsDerive nested ts gs) :
    List.Forall₂ (PartDerives nested) (DocumentQuery.pseudoParts ts)
      (gs.flatMap fun g => g.steps.flatMap fun s => s.compound.pseudoClasses) := by
  induction h with
  | last h => simpa using h.pseudoParts
  | next h _ ih =>
    rw [pseudoParts_append _ (by simp), DocumentQuery.pseudoParts, List.flatMap_cons]
    · exact List.rel_append h.pseudoParts ih
    all_goals simp

theorem Selector.pseudoClasses_eq (s : Selector) :
    s.pseudoClasses = s.groups.flatMap fun g => g.steps.flatMap fun t => t.compound.pseudoClasses := by
  simp [pseudoClasses, compounds, List.flatMap_assoc, List.flatMap_map]

/-- The pseudo-classes of a derived selector are those of the tokens, in the same order. -/
theorem SelectorDerives.pseudoParts {ts : List Token} {s : Selector}
    (h : SelectorDerives nested ts s) :
    List.Forall₂ (PartDerives nested) (DocumentQuery.pseudoParts ts) s.pseudoClasses := by
  rw [s.pseudoClasses_eq]
  exact GroupsDerive.pseudoParts h

end

end DocumentQuery
