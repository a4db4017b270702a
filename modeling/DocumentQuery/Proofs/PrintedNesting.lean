import DocumentQuery.Proofs.PrintedLayout

namespace DocumentQuery

theorem Group.mem_parts {g : Group} {x : Part} (hx : x.ends = true) :
    x ∈ g.parts ↔ ∃ s ∈ g.steps, x ∈ s.compound.parts := by
  have hleading : ∀ k, x ∉ leadingParts k := by
    intro k hk
    cases k <;> simp [leadingParts] at hk <;> simp [hk, Part.ends] at hx
  have hbetween : ∀ k, x ≠ .between k := by
    rintro k rfl
    simp [Part.ends] at hx
  obtain ⟨_ | ⟨first, later⟩⟩ := g
  · simp [parts]
  · simp [parts, laterParts, hleading, hbetween]

theorem Selector.mem_parts {s : Selector} {x : Part} (hx : x.ends = true) :
    x ∈ s.parts ↔ ∃ c ∈ s.compounds, x ∈ c.parts := by
  have hcomma : x ≠ .comma := by
    rintro rfl
    simp [Part.ends] at hx
  have hgroups : x ∈ s.parts ↔ ∃ g ∈ s.groups, x ∈ g.parts := by
    obtain ⟨_ | ⟨first, later⟩⟩ := s
    · simp [parts]
    · simp [parts, laterGroupParts, hcomma]
  rw [hgroups]
  constructor
  · rintro ⟨g, hg, hm⟩
    obtain ⟨t, ht, hm⟩ := (Group.mem_parts hx).mp hm
    exact ⟨t.compound, mem_compounds hg ht, hm⟩
  · rintro ⟨c, hc, hm⟩
    obtain ⟨g, hg, hc⟩ := List.mem_flatMap.mp hc
    obtain ⟨t, ht, rfl⟩ := List.mem_map.mp hc
    exact ⟨g, hg, (Group.mem_parts hx).mpr ⟨t, ht, hm⟩⟩

/-- Whether an argument, with the parenthesis behind it, leaves its own parenthesis open. -/
def Argument.StaysOpen (a : Argument) : Prop :=
  ∃ raw ∈ a.written, ∃ n, Opens n (raw.toList ++ [')'])

theorem opens_succ_parenthesized {n : Nat} {text : List Char} (h : Opens n (text ++ [')'])) :
    Opens (n + 1) ('(' :: text ++ [')']) := by
  intro depth
  have ha := h (depth + 1)
  rw [List.cons_append, Enclosure.after]
  simpa [Enclosure.next, Nat.add_assoc, Nat.add_comm 1 n] using ha

theorem opens_of_isNameChar {cs : List Char} (h : cs.all isNameChar = true) : Opens 0 cs := by
  refine opens_of_isPlain (List.all_eq_true.mpr fun c hc => ?_)
  exact isPlain_of_isNameChar (List.all_eq_true.mp h c hc)

theorem opens_namespaceText (ns : Option NamespaceTest) : Opens 0 (namespaceText ns) := by
  match ns with
  | none => exact .nil
  | some .any => exact opens_of_isPlain (by decide)
  | some .without => exact opens_of_isPlain (by decide)
  | some (.bound nsPrefix) =>
    exact (spells_identifierText _).opens.append (opens_of_isPlain (by decide))

theorem opens_typeTestText (test : TypeTest) : Opens 0 (typeTestText (some test)) := by
  refine Opens.append (m := 0) (n := 0) (opens_namespaceText test.ns) ?_
  cases test.name with
  | none => exact opens_of_isPlain (by decide)
  | some name => exact (spells_identifierText _).opens

theorem opens_attributeText (test : AttributeTest) : Opens 0 (attributeText test) := by
  have hcomparison : Opens 0 (comparisonText test) := by
    obtain ⟨ns, name, op, _ | value⟩ := test
    · exact .nil
    · have hop : op.sign.toList.all isPlain = true := by cases op <;> decide
      exact (opens_of_isPlain hop).append (opens_quotedText value.toList)
  have hopen : Opens 0 ['['] := opens_of_isPlain (by decide)
  have hclose : Opens 0 [']'] := opens_of_isPlain (by decide)
  have h := ((hopen.append (opens_namespaceText test.ns)).append
    (spells_identifierText test.name.toList).opens).append (hcomparison.append hclose)
  simpa [attributeText] using h

theorem opens_argument {a : Argument} (h : a.Closes) : Opens 0 a.chars := by
  rw [a.chars_eq]
  split
  next raw hraw => exact opens_parenthesized (h raw hraw)
  next => exact .nil

theorem Argument.StaysOpen.opens {a : Argument} (h : a.StaysOpen) : ∃ n, Opens n a.chars := by
  obtain ⟨raw, hraw, n, hn⟩ := h
  rw [a.chars_eq, Option.mem_def.mp hraw]
  exact ⟨n + 1, opens_succ_parenthesized hn⟩

theorem Argument.exists_opens {a : Argument} (h : a.Closes ∨ a.StaysOpen) :
    ∃ n, Opens n a.chars := by
  rcases h with hc | hs
  · exact ⟨0, opens_argument hc⟩
  · exact hs.opens

theorem opens_pseudoClass {test : PseudoClass} {n : Nat} (h : Opens n test.argument.chars) :
    Opens n test.chars := by
  obtain ⟨name, argument⟩ := test
  have hcolon : Opens 0 [':'] := opens_of_isPlain (by decide)
  have hn := (hcolon.append (opens_of_isNameChar name.spelling_name.1)).append h
  rw [PseudoClass.chars]
  simpa using hn

theorem opens_sign (k : Combinator) : Opens 0 (leadingText k) ∧ Opens 0 (betweenText k) := by
  cases k <;> exact ⟨opens_of_isPlain (by decide), opens_of_isPlain (by decide)⟩

/-- Only the argument of a pseudo-class can leave a parenthesis open. -/
theorem Part.opens_or (x : Part) :
    Opens 0 x.chars ∨ ∃ test, x = .simple (.pseudoClass test) := by
  cases x with
  | typeTest test => exact .inl (opens_typeTestText test)
  | leading k => exact .inl (opens_sign k).1
  | between k => exact .inl (opens_sign k).2
  | comma => exact .inl (opens_of_isPlain (by decide))
  | simple test =>
    cases test with
    | pseudoClass test => exact .inr ⟨test, rfl⟩
    | id name =>
      have hsign : Opens 0 ['#'] := opens_of_isPlain (by decide)
      exact .inl (hsign.append (spells_nameText name.toList).opens)
    | named name =>
      have hsign : Opens 0 ['.'] := opens_of_isPlain (by decide)
      exact .inl (hsign.append (spells_identifierText name.toList).opens)
    | bracketed test => exact .inl (opens_attributeText test)
    | pseudoElement test =>
      have hsign : Opens 0 [':', ':'] := opens_of_isPlain (by decide)
      exact .inl (hsign.append (opens_of_isNameChar test.spelling_name.1))

theorem exists_opens_parts {xs : List Part}
    (h : ∀ test, .simple (.pseudoClass test) ∈ xs → ∃ n, Opens n test.argument.chars) :
    ∃ n, Opens n (partsText xs) := by
  induction xs with
  | nil => exact ⟨0, .nil⟩
  | cons x xs ih =>
    obtain ⟨m, hm⟩ : ∃ m, Opens m x.chars := by
      rcases x.opens_or with hx | ⟨test, rfl⟩
      · exact ⟨0, hx⟩
      · obtain ⟨m, hm⟩ := h test List.mem_cons_self
        exact ⟨m, opens_pseudoClass hm⟩
    obtain ⟨n, hn⟩ := ih fun test ht => h test (List.mem_cons_of_mem x ht)
    exact ⟨m + n, hm.append hn⟩

theorem opens_parts {xs : List Part}
    (h : ∀ test, .simple (.pseudoClass test) ∈ xs → test.argument.Closes) :
    Opens 0 (partsText xs) := by
  refine Opens.flatMap fun x hx => ?_
  rcases x.opens_or with ho | ⟨test, rfl⟩
  · exact ho
  · exact opens_pseudoClass (opens_argument (h test hx))

namespace Selector

theorem mem_arguments_of_mem_parts {s : Selector} {test : PseudoClass}
    (h : .simple (.pseudoClass test) ∈ s.parts) : test.argument ∈ s.arguments := by
  obtain ⟨c, hc, hm⟩ := (mem_parts rfl).mp h
  have ht : test ∈ c.pseudoClasses := by simpa [Compound.parts, Compound.tests] using hm
  exact List.mem_map_of_mem (List.mem_flatMap.mpr ⟨c, hc, ht⟩)

theorem mem_parts_of_mem_arguments {s : Selector} {a : Argument} (h : a ∈ s.arguments) :
    ∃ test, test.argument = a ∧ .simple (.pseudoClass test) ∈ s.parts := by
  obtain ⟨test, ht, rfl⟩ := List.mem_map.mp h
  obtain ⟨c, hc, hm⟩ := List.mem_flatMap.mp ht
  refine ⟨test, rfl, (mem_parts rfl).mpr ⟨c, hc, ?_⟩⟩
  simpa [Compound.parts, Compound.tests] using hm

end Selector

theorem isPlain_of_sign {c : Char} (h : c.isDigit ∨ c = '-' ∨ c = '+' ∨ c = 'n') :
    isPlain c = true := by
  rcases h with h | rfl | rfl | rfl
  · exact isPlain_of_isNameChar (by simp [isNameChar, Char.isAlphanum, h])
  all_goals decide

/-- What is written for numbers and rules is closed anyway. -/
theorem Argument.closes {a : Argument} (htext : ∀ text, a = .text text → Opens 0 text.toList)
    (hselector : ∀ n, a = .selector n → Opens 0 n.chars) : a.Closes := by
  intro raw hraw
  cases a with
  | none => cases hraw
  | text text =>
    cases hraw
    exact htext raw rfl
  | nth rule =>
    cases hraw
    rw [NthRule.text, String.toList_ofList]
    exact opens_of_isPlain
      (List.all_eq_true.mpr fun c hc => isPlain_of_sign (NthRule.mem_chars hc))
  | index value =>
    cases hraw
    rw [String.toList_ofList]
    exact opens_of_isPlain
      (List.all_eq_true.mpr fun c hc => isPlain_of_sign ((mem_integerText hc).imp_right .inl))
  | selector n =>
    cases hraw
    rw [Selector.toList_text]
    exact hselector n rfl

namespace Selector

/-- All text arguments, also those in nested selectors, end where their parentheses close. -/
inductive AllClosed : Selector → Prop where
  | mk {s : Selector} (texts : ∀ text, .text text ∈ s.arguments → ClosedArgument text.toList)
      (nested : ∀ n, .selector n ∈ s.arguments → AllClosed n) : AllClosed s

theorem PrintsBack.allClosed {s : Selector} (h : s.PrintsBack) : s.AllClosed := by
  induction h with
  | mk _ texts _ _ ih => exact .mk texts ih

theorem AllClosed.opens {s : Selector} (h : s.AllClosed) : Opens 0 s.chars := by
  induction h with
  | mk texts _ ih =>
    rw [chars_eq]
    refine opens_parts fun test ht => ?_
    have ha := mem_arguments_of_mem_parts ht
    exact Argument.closes (fun text he => (texts text (he ▸ ha)).opens) fun n he => ih n (he ▸ ha)

theorem AllClosed.closes {s : Selector} (h : s.AllClosed) {a : Argument} (ha : a ∈ s.arguments) :
    a.Closes := by
  obtain ⟨texts, nested⟩ := h
  exact Argument.closes (fun text he => (texts text (he ▸ ha)).opens)
    fun n he => (nested n (he ▸ ha)).opens

theorem Formed.readable {s : Selector} (h : s.Formed) {x : Part} (hx : x ∈ s.parts)
    (hc : ∀ test, x = .simple (.pseudoClass test) → test.argument.Closes) : x.Readable := by
  have hnames : ∀ c ∈ s.compounds, ∀ name ∈ c.names, name ≠ "" := fun c hc name hn =>
    h.names name (List.mem_flatMap.mpr ⟨c, hc, hn⟩)
  cases x with
  | typeTest test =>
    obtain ⟨c, hm, hp⟩ := (mem_parts rfl).mp hx
    have ht : c.typeTest = some test := by simpa [Compound.parts] using hp
    exact fun name hn => hnames c hm name (Compound.typeTest_names ht hn)
  | simple test =>
    obtain ⟨c, hm, hp⟩ := (mem_parts rfl).mp hx
    have ht : test ∈ c.tests := by simpa [Compound.parts] using hp
    cases test with
    | id name =>
      have hi := mem_tests_id ht
      exact hnames c hm name (by simp [Compound.names, hi])
    | named name =>
      have hi : name ∈ c.classes := by simpa [Compound.tests] using ht
      exact hnames c hm name (by simp [Compound.names, hi])
    | bracketed test =>
      have hi : test ∈ c.attributes := by simpa [Compound.tests] using ht
      intro name hn
      refine hnames c hm name (List.mem_append_right _ ?_)
      exact List.mem_flatMap.mpr ⟨test, hi, hn⟩
    | pseudoClass test => exact hc test rfl
    | pseudoElement test => trivial
  | leading k => trivial
  | between k => trivial
  | comma => trivial

/-- The tokens of a printed selector, where each argument is closed. -/
theorem Formed.outsideTokens_chars {s : Selector} (h : s.Formed) (hc : s.AllClosed) :
    outsideTokens false s.chars = some (s.tokens.map Token.mended ++ [.finish]) := by
  have hr : ∀ x ∈ s.parts, x.Readable := fun x hx => h.readable hx fun test ht =>
    hc.closes (mem_arguments_of_mem_parts (ht ▸ hx))
  have hp := outsideTokens_parts hr h.laid
  rw [List.append_nil, ← chars_eq, outsideTokens_nil] at hp
  exact hp

end Selector

theorem Opens.eq {m n : Nat} {cs : List Char} (hm : Opens m cs) (hn : Opens n cs) : m = n := by
  have h := (hm 0).symm.trans (hn 0)
  simpa using h

/-- An argument that leaves its parenthesis open is not closed by anything printed after it. -/
theorem outsideTokens_staysOpen {ended : Bool} {test : PseudoClass}
    (h : test.argument.StaysOpen) {n : Nat} {more : List Char} (hm : Opens n more) :
    outsideTokens ended (test.chars ++ more) = none := by
  obtain ⟨name, argument⟩ := test
  obtain ⟨raw, hraw, k, hk⟩ := h
  obtain ⟨hall, hne⟩ := name.spelling_name
  have hw : argument.written = some raw := hraw
  have hnone : readArguments {} (raw.toList ++ ')' :: more) = none := by
    have ha := (hk.append hm) 0
    rw [List.append_assoc, List.singleton_append] at ha
    exact readArguments_of_after ha
  have htext : PseudoClass.chars ⟨name, argument⟩ ++ more =
      ':' :: name.spelling.toList ++ '(' :: (raw.toList ++ ')' :: more) := by
    rw [PseudoClass.chars, argument.chars_eq, hw]
    simp
  rw [htext]
  exact outsideTokens_openArguments hall hne hnone

theorem outsideTokens_open {ended : Bool} {xs : List Part}
    (hr : ∀ x ∈ xs, x.Readable ∨
      ∃ test, x = .simple (.pseudoClass test) ∧ test.argument.StaysOpen)
    (hl : Laid ended xs [])
    (ho : ∀ test, .simple (.pseudoClass test) ∈ xs → ∃ n, Opens n test.argument.chars)
    {test : PseudoClass} (hm : .simple (.pseudoClass test) ∈ xs)
    (hs : test.argument.StaysOpen) : outsideTokens ended (partsText xs) = none := by
  induction xs generalizing ended with
  | nil => cases hm
  | cons x xs ih =>
    have htail : ∀ test, .simple (.pseudoClass test) ∈ xs → ∃ n, Opens n test.argument.chars :=
      fun t ht => ho t (List.mem_cons_of_mem x ht)
    rw [partsText_cons]
    by_cases hx : ∃ test, x = .simple (.pseudoClass test) ∧ test.argument.StaysOpen
    · obtain ⟨t, rfl, ht⟩ := hx
      obtain ⟨n, hn⟩ := exists_opens_parts htail
      exact outsideTokens_staysOpen ht hn
    · have hread := (hr x List.mem_cons_self).resolve_right hx
      have hrest : .simple (.pseudoClass test) ∈ xs := by
        rcases List.mem_cons.mp hm with he | he
        · exact absurd ⟨test, he.symm, hs⟩ hx
        · exact he
      have hallows := hl.1
      rw [List.append_nil] at hallows
      rw [Part.outsideTokens_chars hread hallows,
        ih (fun y hy => hr y (List.mem_cons_of_mem x hy)) hl.2 htail hrest]
      rfl

namespace Selector

/-- Printed selectors never close more parentheses than they open, and those with an argument
that is not closed open one more. -/
theorem Shaped.exists_opens {levels : Nat} {s : Selector} (h : s.Shaped levels) :
    (∃ n, Opens n s.chars) ∧ ∀ a ∈ s.arguments, a.Closes ∨ a.StaysOpen := by
  induction h with
  | @mk levels s formed scanned room nested ih =>
    have hargument : ∀ a ∈ s.arguments, a.Closes ∨ a.StaysOpen := by
      intro a ha
      cases a with
      | text text =>
        rcases scanned text ha with hc | hd
        · have ht := (closedArgument_iff.mpr hc).opens
          exact .inl (Argument.closes (by rintro _ ⟨⟩; exact ht) (by simp))
        · exact .inr ⟨text, rfl, 0, opens_dangling hd⟩
      | selector n =>
        obtain ⟨⟨m, hm⟩, -⟩ := ih n ha
        cases m with
        | zero => exact .inl (Argument.closes (by simp) (by rintro _ ⟨⟩; exact hm))
        | succ m =>
          refine .inr ⟨n.text, rfl, m, fun depth => ?_⟩
          rw [toList_text, Enclosure.after_append, hm depth]
          simp [Enclosure.after, Enclosure.next, ← Nat.add_assoc]
      | none => exact .inl (Argument.closes (by simp) (by simp))
      | nth rule => exact .inl (Argument.closes (by simp) (by simp))
      | index value => exact .inl (Argument.closes (by simp) (by simp))
    refine ⟨?_, hargument⟩
    rw [chars_eq]
    exact exists_opens_parts fun test ht =>
      Argument.exists_opens (hargument _ (mem_arguments_of_mem_parts ht))

theorem Shaped.closes_of_opens {levels : Nat} {s : Selector} (h : s.Shaped levels)
    (ho : Opens 0 s.chars) {a : Argument} (ha : a ∈ s.arguments) : a.Closes := by
  obtain ⟨-, hargument⟩ := h.exists_opens
  have hchars : ∀ test, .simple (.pseudoClass test) ∈ s.parts →
      ∃ n, Opens n test.argument.chars := fun test ht =>
    Argument.exists_opens (hargument _ (mem_arguments_of_mem_parts ht))
  refine (hargument a ha).resolve_right fun hs => ?_
  obtain ⟨test, rfl, hm⟩ := mem_parts_of_mem_arguments ha
  obtain ⟨raw, hraw, k, hk⟩ := hs
  -- the parts in front and behind open no less than nothing, and this one opens one more
  obtain ⟨xs, ys, he⟩ := List.append_of_mem hm
  rw [he] at hchars
  obtain ⟨m, hxs⟩ := exists_opens_parts fun t ht => hchars t (List.mem_append_left _ ht)
  obtain ⟨n, hys⟩ := exists_opens_parts fun t ht =>
    hchars t (List.mem_append_right _ (List.mem_cons_of_mem _ ht))
  have hx : Opens (k + 1) test.chars := by
    refine opens_pseudoClass ?_
    rw [test.argument.chars_eq, Option.mem_def.mp hraw]
    exact opens_succ_parenthesized hk
  have htotal : Opens (m + ((k + 1) + n)) s.chars := by
    rw [chars_eq, he, partsText_append, partsText_cons]
    exact hxs.append (hx.append hys)
  have hzero := htotal.eq ho
  omega

theorem Shaped.allClosed {levels : Nat} {s : Selector} (h : s.Shaped levels)
    (hc : ∀ a ∈ s.arguments, a.Closes) : s.AllClosed := by
  induction h with
  | mk _ _ _ nested ih =>
    refine .mk (fun text ht => ?_) (fun n hn => ?_)
    · exact (hc _ ht text rfl).closedArgument
    · have ho := hc _ hn n.text rfl
      rw [toList_text] at ho
      exact ih n hn fun a ha => (nested n hn).closes_of_opens ho ha

/-- A printed selector is a text of tokens only if all its arguments are closed. -/
theorem Shaped.allClosed_of_tokens {levels : Nat} {s : Selector} (h : s.Shaped levels)
    {us : List Token} (hus : outsideTokens false s.chars = some us) : s.AllClosed := by
  obtain ⟨-, hargument⟩ := h.exists_opens
  refine h.allClosed fun a ha => (hargument a ha).resolve_right fun hs => ?_
  obtain ⟨test, rfl, hm⟩ := mem_parts_of_mem_arguments ha
  have hnone : outsideTokens false (partsText s.parts) = none := by
    refine outsideTokens_open (fun x hx => ?_) h.formed.laid (fun t ht => ?_) hm hs
    · by_cases ho : ∃ t, x = .simple (.pseudoClass t) ∧ t.argument.StaysOpen
      · exact .inr ho
      · refine .inl (h.formed.readable hx fun t ht => ?_)
        have ht' := hargument _ (mem_arguments_of_mem_parts (ht ▸ hx))
        exact ht'.resolve_right fun hopen => ho ⟨t, ht, hopen⟩
    · exact Argument.exists_opens (hargument _ (mem_arguments_of_mem_parts ht))
  rw [chars_eq, hnone] at hus
  cases hus

end Selector

end DocumentQuery
