import DocumentQuery.Proofs.DerivedSelectors

namespace DocumentQuery

theorem pseudoParts_mended (ts : List Token) :
    pseudoParts (ts.map Token.mended) = pseudoParts ts := by
  fun_induction pseudoParts ts with
  | case1 => rfl
  | case2 name raw ts ih => simp [Token.mended, pseudoParts, ih]
  | case3 name ts hts ih =>
    cases ts with
    | nil => simp [Token.mended, pseudoParts]
    | cons t ts =>
      rw [List.map_cons, List.map_cons, Token.mended, pseudoParts]
      · rw [← List.map_cons, ih]
      · intro raw rest he
        cases t <;> simp [Token.mended] at he
        exact hts _ _ rfl
      all_goals simp
  | case4 t ts h1 h2 ih =>
    cases t with
    | pseudoClass name => exact absurd rfl (h2 name)
    | _ => simpa [Token.mended, pseudoParts] using ih

def PseudoClass.part (p : PseudoClass) : String × Option String :=
  (p.name.spelling, p.argument.written)

theorem pseudoParts_simple (test : SimpleTest) :
    pseudoParts test.tokens = test.pseudoClasses.map PseudoClass.part := by
  cases test with
  | id name => simp [SimpleTest.tokens, pseudoParts, SimpleTest.pseudoClasses]
  | named name => simp [SimpleTest.tokens, pseudoParts, SimpleTest.pseudoClasses]
  | pseudoElement test => simp [SimpleTest.tokens, pseudoParts, SimpleTest.pseudoClasses]
  | pseudoClass test =>
    cases hw : test.argument.written <;>
      simp [SimpleTest.tokens, argumentTokens, hw, pseudoParts, SimpleTest.pseudoClasses,
        PseudoClass.part]
  | bracketed test =>
    obtain ⟨ns, name, op, _ | value⟩ := test <;>
      simp [SimpleTest.tokens, SimpleTest.comparisonTokens, pseudoParts, SimpleTest.pseudoClasses,
        pseudoParts_namespace]

def Part.pseudoClasses : Part → List PseudoClass
  | .simple test => test.pseudoClasses
  | _ => []

theorem pseudoParts_part (x : Part) :
    pseudoParts x.tokens = x.pseudoClasses.map PseudoClass.part := by
  cases x with
  | typeTest test =>
    have h := pseudoParts_typeTokens (some test) []
    rwa [List.append_nil] at h
  | simple test => exact pseudoParts_simple test
  | leading k => simp [Part.tokens, pseudoParts, Part.pseudoClasses]
  | between k => simp [Part.tokens, pseudoParts, Part.pseudoClasses]
  | comma => simp [Part.tokens, pseudoParts, Part.pseudoClasses]

theorem Part.head_tokens (x : Part) (ts : List Token) (raw : String) :
    (x.tokens ++ ts).head? ≠ some (.arguments raw) := by
  cases x with
  | typeTest test =>
    obtain ⟨_ | _ | _ | _, _ | name⟩ := test <;>
      simp [tokens, typeTokens, namespaceTokens, nameToken]
  | simple test => cases test <;> simp [tokens, SimpleTest.tokens]
  | leading k => simp [tokens]
  | between k => simp [tokens]
  | comma => simp [tokens]

theorem pseudoParts_parts (xs : List Part) :
    pseudoParts (partsTokens xs) = (xs.flatMap Part.pseudoClasses).map PseudoClass.part := by
  induction xs with
  | nil => simp [pseudoParts]
  | cons x xs ih =>
    have hhead : ∀ raw, (partsTokens xs).head? ≠ some (.arguments raw) := by
      intro raw
      cases xs with
      | nil => simp
      | cons y ys => exact y.head_tokens _ raw
    rw [partsTokens_cons, pseudoParts_append _ hhead, pseudoParts_part, ih, List.flatMap_cons,
      List.map_append]

theorem Compound.pseudoClasses_parts (c : Compound) :
    c.parts.flatMap Part.pseudoClasses = c.pseudoClasses := by
  have ht : (c.typeTest.toList.map Part.typeTest).flatMap Part.pseudoClasses = [] := by
    cases c.typeTest <;> rfl
  have hs := Compound.pseudoClasses_foldl { typeTest := c.typeTest } c.tests
  change (Compound.collect c.typeTest c.tests).pseudoClasses = _ at hs
  rw [c.collect_tests, List.nil_append] at hs
  rw [parts, List.flatMap_append, ht, List.nil_append, List.flatMap_map, hs]
  rfl

theorem pseudoClasses_laterParts (steps : List Step) :
    (laterParts steps).flatMap Part.pseudoClasses =
      steps.flatMap fun s => s.compound.pseudoClasses := by
  induction steps with
  | nil => rfl
  | cons s steps ih =>
    have hparts : laterParts (s :: steps) =
        .between s.combinator :: (s.compound.parts ++ laterParts steps) := rfl
    rw [hparts, List.flatMap_cons, List.flatMap_append, ih, Compound.pseudoClasses_parts]
    rfl

theorem Group.pseudoClasses_parts (g : Group) :
    g.parts.flatMap Part.pseudoClasses = g.steps.flatMap fun s => s.compound.pseudoClasses := by
  obtain ⟨_ | ⟨first, later⟩⟩ := g
  · rfl
  · have hlead : (leadingParts first.combinator).flatMap Part.pseudoClasses = [] := by
      cases first.combinator <;> rfl
    rw [parts, List.flatMap_append, List.flatMap_append, hlead, Compound.pseudoClasses_parts,
      pseudoClasses_laterParts]
    rfl

theorem pseudoClasses_laterGroupParts (gs : List Group) :
    (laterGroupParts gs).flatMap Part.pseudoClasses =
      gs.flatMap fun g => g.steps.flatMap fun s => s.compound.pseudoClasses := by
  induction gs with
  | nil => rfl
  | cons g gs ih =>
    have hparts : laterGroupParts (g :: gs) = .comma :: (g.parts ++ laterGroupParts gs) := rfl
    rw [hparts, List.flatMap_cons, List.flatMap_append, ih, Group.pseudoClasses_parts]
    rfl

theorem Selector.pseudoClasses_parts (s : Selector) :
    s.parts.flatMap Part.pseudoClasses = s.pseudoClasses := by
  rw [s.pseudoClasses_eq]
  obtain ⟨_ | ⟨first, later⟩⟩ := s
  · rfl
  · rw [parts, List.flatMap_append, Group.pseudoClasses_parts, pseudoClasses_laterGroupParts]
    rfl

/-- The pseudo-classes of a printed selector are found again among its tokens. -/
theorem Selector.pseudoParts_tokens (s : Selector) :
    pseudoParts s.tokens = s.pseudoClasses.map PseudoClass.part := by
  rw [tokens, pseudoParts_parts, pseudoClasses_parts]

theorem mendedName_of_not_mem {name : String} (h : '\x00' ∉ name.toList) :
    mendedName name = name := by
  rw [mendedName, map_mended h, String.ofList_toList]

theorem not_mem_mendedName (name : String) : '\x00' ∉ (mendedName name).toList := by
  rw [mendedName, String.toList_ofList]
  exact not_mem_map_mended name.toList

theorem Token.mended_of_names {t : Token} (h : ∀ name ∈ t.names, '\x00' ∉ name.toList) :
    t.mended = t := by
  cases t with
  | ident name => rw [mended, mendedName_of_not_mem (h name (List.mem_singleton.mpr rfl))]
  | idTest name => rw [mended, mendedName_of_not_mem (h name (List.mem_singleton.mpr rfl))]
  | classTest name => rw [mended, mendedName_of_not_mem (h name (List.mem_singleton.mpr rfl))]
  | _ => rfl

/-- No name that was read holds the null character. -/
theorem Token.not_mem_names_mended {t : Token} {name : String} (h : name ∈ t.mended.names) :
    '\x00' ∉ name.toList := by
  cases t with
  | ident n => rw [List.mem_singleton.mp h]; exact not_mem_mendedName n
  | idTest n => rw [List.mem_singleton.mp h]; exact not_mem_mendedName n
  | classTest n => rw [List.mem_singleton.mp h]; exact not_mem_mendedName n
  | _ => cases h

theorem names_namespaceTokens {ns : Option NamespaceTest} {t : Token} {name : String}
    (ht : t ∈ namespaceTokens ns) (hn : name ∈ t.names) :
    name ∈ (ns.map NamespaceTest.names).getD [] := by
  match ns with
  | none => cases ht
  | some .any => simp [namespaceTokens] at ht; rcases ht with rfl | rfl <;> cases hn
  | some .without => simp [namespaceTokens] at ht; subst ht; cases hn
  | some (.bound nsPrefix) =>
    simp [namespaceTokens] at ht
    rcases ht with rfl | rfl
    · exact hn
    · cases hn

theorem SimpleTest.names_tokens {test : SimpleTest} {t : Token} {name : String}
    (ht : t ∈ test.tokens) (hn : name ∈ t.names) : name ∈ test.names := by
  cases test with
  | id a => rw [List.mem_singleton.mp ht] at hn; exact hn
  | named a => rw [List.mem_singleton.mp ht] at hn; exact hn
  | pseudoElement a => rw [List.mem_singleton.mp ht] at hn; cases hn
  | pseudoClass a =>
    rcases List.mem_cons.mp ht with rfl | ht
    · cases hn
    · cases hw : a.argument.written <;> simp [argumentTokens, hw] at ht
      subst ht
      cases hn
  | bracketed a =>
    simp only [tokens, List.mem_cons, List.mem_append, List.not_mem_nil, or_false] at ht
    rcases ht with rfl | (ht | (rfl | ht)) | rfl
    · cases hn
    · exact List.mem_append_left _ (names_namespaceTokens ht hn)
    · exact List.mem_append_right _ hn
    · obtain ⟨ns, n, op, _ | value⟩ := a
      · cases ht
      · simp [comparisonTokens] at ht
        rcases ht with rfl | rfl <;> cases hn
    · cases hn

theorem Compound.names_of_test {c : Compound} {test : SimpleTest} (ht : test ∈ c.tests)
    {name : String} (hn : name ∈ test.names) : name ∈ c.names := by
  cases test with
  | id a =>
    have hi := mem_tests_id ht
    rw [List.mem_singleton.mp hn]
    simp [names, hi]
  | named a =>
    have hi : a ∈ c.classes := by simpa [tests] using ht
    rw [List.mem_singleton.mp hn]
    simp [names, hi]
  | bracketed a =>
    have hi : a ∈ c.attributes := by simpa [tests] using ht
    exact List.mem_append_right _ (List.mem_flatMap.mpr ⟨a, hi, hn⟩)
  | pseudoClass a => cases hn
  | pseudoElement a => cases hn

namespace Selector

theorem names_of_compound {s : Selector} {c : Compound} (hc : c ∈ s.compounds) {name : String}
    (hn : name ∈ c.names) : name ∈ s.names :=
  List.mem_flatMap.mpr ⟨c, hc, hn⟩

/-- The tokens of a printed selector have no names but those of the selector. -/
theorem names_tokens {s : Selector} {t : Token} {name : String} (ht : t ∈ s.tokens)
    (hn : name ∈ t.names) : name ∈ s.names := by
  obtain ⟨x, hx, ht⟩ := List.mem_flatMap.mp ht
  cases x with
  | typeTest test =>
    obtain ⟨c, hc, hm⟩ := (mem_parts rfl).mp hx
    have htype : c.typeTest = some test := by simpa [Compound.parts] using hm
    refine names_of_compound hc (Compound.typeTest_names htype ?_)
    rcases List.mem_append.mp ht with ht | ht
    · exact List.mem_append_left _ (names_namespaceTokens ht hn)
    · rw [List.mem_singleton.mp ht] at hn
      obtain ⟨ns, _ | n⟩ := test
      · cases hn
      · exact List.mem_append_right _ (by simpa [nameToken, Token.names] using hn)
  | simple test =>
    obtain ⟨c, hc, hm⟩ := (mem_parts rfl).mp hx
    have htest : test ∈ c.tests := by simpa [Compound.parts] using hm
    exact names_of_compound hc (Compound.names_of_test htest (SimpleTest.names_tokens ht hn))
  | leading k => rw [List.mem_singleton.mp ht] at hn; cases hn
  | between k => rw [List.mem_singleton.mp ht] at hn; cases hn
  | comma => rw [List.mem_singleton.mp ht] at hn; cases hn

theorem tokens_mended {s : Selector} (h : ∀ name ∈ s.names, '\x00' ∉ name.toList) :
    s.tokens.map Token.mended = s.tokens := by
  refine (List.map_congr_left fun t ht => ?_).trans (List.map_id _)
  exact Token.mended_of_names fun name hn => h name (names_tokens ht hn)

theorem Formed.tokens_ne_nil {s : Selector} (h : s.Formed) : s.tokens ≠ [] := by
  obtain ⟨xs, x, hx, he⟩ := h.exists_last
  simp [tokens, hx, Part.tokens_ne_nil he]

theorem skipBlanks_trim (cs : List Char) : skipBlanks (trim cs) = trim cs := by
  refine skipBlanks_of_head fun c hc => ?_
  have hv := (trim_eq_self_iff.mp (trim_trim cs)).1 c hc
  cases hb : isBlank c with
  | false => rfl
  | true => rw [isWhiteSpace_of_isBlank hb] at hv; cases hv

/-- A text with the tokens of a selector means the selector. -/
theorem Shaped.textDerives {levels : Nat} {s : Selector} (h : s.Shaped levels)
    (hp : s.PrintsBack) {text : String}
    (ht : outsideTokens false (skipBlanks text.toList) = some (s.tokens ++ [.finish])) :
    TextDerives (levels + 1) text s := by
  induction h generalizing text with
  | @mk levels s formed scanned room nested ih =>
    obtain ⟨names, texts, edges, back⟩ := hp
    refine ⟨s.tokens, ht, formed.derives_tokens fun n hn => ?_⟩
    obtain ⟨names, -, -, -⟩ := back n hn
    have hformed := (nested n hn).formed
    have htrim : outsideTokens false (trim n.chars) = some (n.tokens ++ [.finish]) := by
      rcases hformed.trimmed_tokens (back n hn).allClosed with ⟨-, hk⟩ | ⟨hk, -⟩
      · rwa [tokens_mended names] at hk
      · exact absurd (edges n hn) hk
    constructor
    · intro he
      have hnil := trimmed_eq_empty_iff.mp he
      rw [toList_text] at hnil
      rw [hnil, outsideTokens_nil] at htrim
      simp [hformed.tokens_ne_nil] at htrim
    · have hlevels : levels = levels - 1 + 1 := by
        have := room n hn
        omega
      rw [hlevels]
      refine ih n hn (back n hn) ?_
      rw [toList_trimmed, toList_text, skipBlanks_trim, htrim]

/-- A selector that is read back from its own tokens is one that prints back. -/
theorem Shaped.printsBack {levels : Nat} {s : Selector} (h : s.Shaped levels) (hc : s.AllClosed)
    (hd : SelectorDerives (TextDerives levels) (s.tokens.map Token.mended) s) : s.PrintsBack := by
  induction h with
  | @mk levels s formed scanned room nested ih =>
    obtain ⟨texts, closed⟩ := hc
    have hnested : ∀ n, .selector n ∈ s.arguments → KeepsEdges n.chars ∧ n.PrintsBack := by
      intro n hn
      obtain ⟨p, hp, hpn⟩ := List.mem_map.mp hn
      -- the pseudo-class was read from the text that it was printed as
      have hparts := hd.pseudoParts
      rw [pseudoParts_mended, pseudoParts_tokens, List.forall₂_map_left_iff,
        List.forall₂_same] at hparts
      have harg := (hparts p hp).2
      rw [hpn] at harg
      have hderives : TextDerives levels (trimmed n.text) n := by
        have hw : p.part.2 = some n.text := by rw [PseudoClass.part, hpn]; rfl
        rw [hw] at harg
        generalize p.name.argumentKind = kind at harg
        cases harg with
        | selector _ hs => exact hs
      have hlevels : levels = levels - 1 + 1 := by
        have := room n hn
        omega
      rw [hlevels] at hderives
      obtain ⟨ts, hlex, hts⟩ := hderives
      rw [toList_trimmed, toList_text, skipBlanks_trim] at hlex
      rcases (nested n hn).formed.trimmed_tokens (closed n hn) with ⟨hk, hread⟩ | ⟨-, hlt⟩
      · have he := Option.some.inj (hlex.symm.trans hread)
        rw [List.append_cancel_right he] at hts
        exact ⟨hk, ih n hn (closed n hn) hts⟩
      · have hwhite := hlt _ hlex
        have hle := hts.white_le
        simp only [tokensWhite_append, tokensWhite_cons, tokensWhite_nil, Token.white] at hwhite
        omega
    refine .mk (fun name hn => ?_) texts (fun n hn => (hnested n hn).1) fun n hn => (hnested n hn).2
    obtain ⟨t, ht, hn⟩ := hd.names hn
    obtain ⟨u, -, rfl⟩ := List.mem_map.mp ht
    exact Token.not_mem_names_mended hn

end Selector

/-- The selectors that are read back from their written form. -/
theorem parse_text_eq_ok_iff {limit : Nat} {s : Selector} :
    parse limit s.text = .ok s ↔ s.Shaped limit ∧ s.PrintsBack := by
  rw [parse_eq_ok_iff]
  constructor
  · intro h
    have hs := h.shaped
    obtain ⟨ts, hlex, hd⟩ := h
    rw [s.toList_text, skipBlanks_of_head hs.formed.head_chars] at hlex
    have hc := hs.allClosed_of_tokens hlex
    have he := Option.some.inj (hlex.symm.trans (hs.formed.outsideTokens_chars hc))
    rw [List.append_cancel_right he] at hd
    exact ⟨hs, hs.printsBack hc hd⟩
  · rintro ⟨hs, hp⟩
    refine hs.textDerives hp ?_
    have hread := hs.formed.outsideTokens_chars hp.allClosed
    obtain ⟨names, -, -, -⟩ := hp
    rw [s.toList_text, skipBlanks_of_head hs.formed.head_chars, hread, Selector.tokens_mended names]

/-- A selector that was read from a text is read back from its written form exactly if no name
in it holds the null character, each text argument is closed, and each nested selector keeps its
meaning when the white space around its text goes. -/
theorem parse_parsed_text_iff {limit : Nat} {text : String} {s : Selector}
    (h : parse limit text = .ok s) : parse limit s.text = .ok s ↔ s.PrintsBack := by
  have hs : s.Shaped limit := (parse_eq_ok_iff.mp h).shaped
  exact parse_text_eq_ok_iff.trans (and_iff_right hs)

/-- The selector with the one test `:contains`, of a text that is a backslash. -/
def danglingSelector : Selector :=
  ⟨[⟨[⟨.descendant, { pseudoClasses := [⟨.contains, .text "\\"⟩] }⟩]⟩]⟩

theorem danglingSelector_derives (nested : String → Selector → Prop) :
    SelectorDerives nested [.pseudoClass "contains", .arguments "\\ "] danglingSelector := by
  have hname : PseudoClassName.ofName? "contains" = some .contains :=
    PseudoClassName.ofName?_spelling .contains
  have htext : ArgumentDerives nested .text (some "\\ ") (.text (trimmed "\\ ")) :=
    .text (by decide)
  exact .of_pseudoClass hname htext

/-- The white space that its argument ends in is lost, so that the text printed for
`:contains(\ )` has an escaped parenthesis at its end. -/
theorem parse_danglingSelector_text :
    parse 0 ":contains(\\ )" = .ok danglingSelector ∧
      parse 0 danglingSelector.text ≠ .ok danglingSelector := by
  have hparse : parse 0 ":contains(\\ )" = .ok danglingSelector := by
    refine parse_eq_ok_iff.mpr ⟨_, ?_, danglingSelector_derives _⟩
    have hread := outsideTokens_arguments false [] (PseudoClassName.spelling_name .contains).1
      (PseudoClassName.spelling_name .contains).2 (opens_escaped ' ')
    rw [outsideTokens_nil] at hread
    exact hread
  have hopen : ¬danglingSelector.PrintsBack := by
    rintro ⟨-, texts, -, -⟩
    have hclosed := texts "\\" (List.mem_singleton.mpr rfl)
    exact absurd hclosed (by unfold ClosedArgument; decide)
  exact ⟨hparse, fun h => hopen ((parse_parsed_text_iff hparse).mp h)⟩

/-- A well-formed selector is read back from its written form. -/
theorem parse_text_of_wellFormed {limit : Nat} {s : Selector} (h : s.WellFormed limit) :
    parse limit s.text = .ok s :=
  parse_text_eq_ok_iff.mpr ⟨h.shaped, h.printsBack⟩

theorem Selector.formed_ofCompound {c : Compound} (hc : c.isEmpty = false)
    (hn : ∀ name ∈ c.names, name ≠ "") (ha : c.attributes = [])
    (hk : ∀ p ∈ c.pseudoClasses, ∃ n, p.argument = .selector n ∧
      p.name.argumentKind = .selector) : (ofCompound c).Formed := by
  have hcompounds : (ofCompound c).compounds = [c] := rfl
  have harguments : ∀ a ∈ (ofCompound c).arguments, ∃ n, a = .selector n := by
    intro a hm
    obtain ⟨p, hp, rfl⟩ := List.mem_map.mp hm
    obtain ⟨n, he, -⟩ := hk p (by simpa [pseudoClasses, hcompounds] using hp)
    exact ⟨n, he⟩
  refine ⟨by simp [ofCompound], by simp [ofCompound], ?_, ?_, ?_, ?_, ?_, ?_⟩
  · simpa [hcompounds] using hc
  · simpa [Selector.names, hcompounds] using hn
  · simp [Selector.attributes, hcompounds, ha]
  · intro p hp
    obtain ⟨n, he, hkind⟩ := hk p (by simpa [pseudoClasses, hcompounds] using hp)
    rw [he, hkind]
    rfl
  · intro rule hm
    obtain ⟨n, he⟩ := harguments _ hm
    cases he
  · intro text hm
    obtain ⟨n, he⟩ := harguments _ hm
    cases he

/-- The selectors `#b` and `a:not(#b)`. -/
def idSelector : Selector :=
  .ofCompound { id := some "b" }

def negatedSelector : Selector :=
  .ofCompound { typeTest := some ⟨none, some "a"⟩, pseudoClasses := [⟨.not, .selector idSelector⟩] }

theorem wellFormed_idSelector : idSelector.WellFormed 0 := by
  have hnames : idSelector.names = ["b"] := rfl
  have hnone : idSelector.arguments = [] := rfl
  refine .mk (Selector.formed_ofCompound rfl (by decide) rfl (by simp)) (by rw [hnames]; decide)
    ?_ ?_ ?_ ?_
  all_goals
    intro _ hm
    rw [hnone] at hm
    cases hm

theorem wellFormed_negatedSelector : negatedSelector.WellFormed 1 := by
  have hnames : negatedSelector.names = ["a"] := rfl
  have hargument : ∀ a ∈ negatedSelector.arguments, a = .selector idSelector :=
    fun a hm => List.mem_singleton.mp hm
  have hkinds : ∀ p ∈ [PseudoClass.mk .not (.selector idSelector)], ∃ n,
      p.argument = .selector n ∧ p.name.argumentKind = .selector := by
    intro p hp
    rw [List.mem_singleton.mp hp]
    exact ⟨_, rfl, rfl⟩
  refine .mk (Selector.formed_ofCompound rfl (by decide) rfl hkinds) (by rw [hnames]; decide)
    (fun text hm => ?_) (fun n hm => ?_) (fun _ _ => Nat.one_pos) (fun n hm => ?_)
  · cases hargument _ hm
  · cases hargument _ hm
    decide
  · cases hargument _ hm
    exact wellFormed_idSelector

theorem parse_negatedSelector_text :
    negatedSelector.WellFormed 1 ∧ parse 1 negatedSelector.text = .ok negatedSelector :=
  ⟨wellFormed_negatedSelector, parse_text_of_wellFormed wellFormed_negatedSelector⟩

end DocumentQuery
