import DocumentQuery.Proofs.PrintedNesting

namespace DocumentQuery

/-- How many characters of a name are white space. -/
def whiteCount (name : List Char) : Nat :=
  name.countP isWhiteSpace

theorem isWhiteSpace_mended (c : Char) : isWhiteSpace (mended c) = isWhiteSpace c := by
  unfold mended
  split
  next h =>
    subst h
    decide
  next => rfl

theorem whiteCount_map_mended (name : List Char) :
    whiteCount (name.map mended) = whiteCount name := by
  simp [whiteCount, List.countP_map, Function.comp_def, isWhiteSpace_mended]

theorem isWhiteSpace_of_isHexDigit {c : Char} (h : isHexDigit c = true) :
    isWhiteSpace c = false := by
  simp only [isHexDigit, Bool.or_eq_true, Bool.and_eq_true, decide_eq_true_eq, Char.le_def,
    UInt32.le_iff_toNat_le] at h
  rcases h with (h | ⟨ha, hf⟩) | ⟨ha, hf⟩
  · exact isWhiteSpace_of_isDigit h
  all_goals
    have he : c.toNat = c.val.toNat := rfl
    have hl : 65 ≤ c.val.toNat := Nat.le_trans (by decide) ha
    have hu : c.val.toNat ≤ 102 := Nat.le_trans hf (by decide)
    simp only [isWhiteSpace, Bool.or_eq_false_iff, Bool.and_eq_false_iff,
      decide_eq_false_iff_not, beq_eq_false_iff_ne]
    omega

theorem keepsEnd_of_last {cs : List Char} {c : Char} (h : isWhiteSpace c = false) :
    KeepsEnd (cs ++ [c]) :=
  .inl fun d hd => by
    rw [List.getLast?_concat] at hd
    cases hd
    exact h

/-- A text that ends in white space keeps its meaning only behind a hexadecimal digit. -/
theorem not_keepsEnd {cs : List Char} {c : Char} (h : isWhiteSpace c = true)
    (hd : c = ' ' → ∀ d ∈ cs.getLast?, isHexDigit d = false) : ¬KeepsEnd (cs ++ [c]) := by
  rintro (hk | ⟨front, digit, he, hx⟩)
  · rw [hk c (by simp)] at h
    cases h
  · have he : cs ++ [c] = (front ++ [digit]) ++ [' '] := by simpa using he
    obtain ⟨rfl, hc⟩ := List.append_inj' he rfl
    cases hc
    rw [hd rfl digit (by simp)] at hx
    cases hx

theorem readName_digits {c : Char} (h : c.toNat < 128) :
    readName ('\\' :: Nat.toDigits 16 c.toNat) = ([mended c], []) := by
  have hn := toDigits_head_ne_newline h []
  have hd : readEscape (Nat.toDigits 16 c.toNat ++ []) = (mended c, dropBlank []) :=
    readEscape_digits h (by simp)
  rw [List.append_nil] at hn hd
  rw [readName_escape hn, hd]
  simp [dropBlank, readName]

theorem readName_backslash : readName ['\\'] = (['\ufffd'], []) := by
  rw [readName_escape (by simp), readEscape, readName]

/-- The blank that ends a code escape goes, the digits stay. -/
theorem codeEscape_cut {s : List Char} {c : Char} (hc : c.toNat < 128) :
    KeepsEnd (s ++ codeEscape c) ∧
      (s ++ codeEscape c).rdropWhile isWhiteSpace = s ++ '\\' :: Nat.toDigits 16 c.toNat := by
  obtain ⟨hall, -, hne, -⟩ := hexDigits_of_ascii c.toNat hc
  obtain ⟨ds, d, he⟩ : ∃ ds d, Nat.toDigits 16 c.toNat = ds ++ [d] :=
    ⟨_, _, (List.dropLast_concat_getLast hne).symm⟩
  have hd : isHexDigit d = true := List.all_eq_true.mp hall d (by simp [he])
  have htext : s ++ codeEscape c = s ++ '\\' :: ds ++ [d, ' '] := by simp [codeEscape, he]
  have hsplit : s ++ codeEscape c = (s ++ '\\' :: ds ++ [d]) ++ [' '] := by simp [htext]
  refine ⟨.inr ⟨_, d, htext, hd⟩, ?_⟩
  rw [hsplit, List.rdropWhile_concat_pos _ _ _ (by decide),
    List.rdropWhile_concat_neg _ _ _ (by simp [isWhiteSpace_of_isHexDigit hd]), he]
  simp

/-- Cutting white space off the end of a written name either leaves the meaning as it was, or
leaves less white space in the name. -/
theorem Spells.readName_cut {name text : List Char} (h : Spells name text) :
    ∃ cut, readName (text.rdropWhile isWhiteSpace) = (cut, []) ∧
      (KeepsEnd text ∧ cut = name.map mended ∨
        ¬KeepsEnd text ∧ whiteCount cut < whiteCount name) := by
  induction name using List.reverseRecOn generalizing text with
  | nil =>
    cases h
    exact ⟨[], by simp [readName], .inl ⟨.inl (by simp), rfl⟩⟩
  | append_singleton m c ih =>
    obtain ⟨s, z, rfl, hm, hz⟩ := h.of_append_singleton
    have hread : ∀ ys, readName (s ++ ys) =
        (m.map mended ++ (readName ys).1, (readName ys).2) := fun ys => readName_spelled hm ys
    have hwhole : readName (s ++ z) = ((m ++ [c]).map mended, []) := by
      have hr := readName_spelledChar hz []
      rw [List.append_nil] at hr
      rw [hread, hr]
      simp [readName]
    cases hz with
    | plain hc =>
      cases hw : isWhiteSpace c with
      | false =>
        rw [List.rdropWhile_concat_neg _ _ _ (by simp [hw])]
        exact ⟨_, hwhole, .inl ⟨keepsEnd_of_last hw, rfl⟩⟩
      | true =>
        obtain ⟨cut, hr, hcut⟩ := ih hm
        have hle : whiteCount cut ≤ whiteCount m := by
          rcases hcut with ⟨-, rfl⟩ | ⟨-, hlt⟩
          · rw [whiteCount_map_mended]
          · exact Nat.le_of_lt hlt
        rw [List.rdropWhile_concat_pos _ _ _ hw]
        refine ⟨cut, hr, .inr ⟨not_keepsEnd hw fun he => ?_, ?_⟩⟩
        · subst he
          exact absurd hc (by decide)
        · simp only [whiteCount, List.countP_append, List.countP_singleton, hw, if_true] at hle ⊢
          omega
    | code hc =>
      obtain ⟨hkeeps, hcut⟩ := codeEscape_cut (s := s) hc
      exact ⟨_, by rw [hcut, hread, readName_digits hc], .inl ⟨hkeeps, by simp⟩⟩
    | escaped hc hb =>
      have hsplit : s ++ ['\\', c] = (s ++ ['\\']) ++ [c] := by simp
      cases hw : isWhiteSpace c with
      | false =>
        refine ⟨_, ?_, .inl ⟨hsplit ▸ keepsEnd_of_last hw, rfl⟩⟩
        rw [← hwhole, hsplit, List.rdropWhile_concat_neg _ _ _ (by simp [hw])]
      | true =>
        have hcut : (s ++ ['\\', c]).rdropWhile isWhiteSpace = s ++ ['\\'] := by
          rw [hsplit, List.rdropWhile_concat_pos _ _ _ hw,
            List.rdropWhile_concat_neg _ _ _ (by decide)]
        refine ⟨_, by rw [hcut, hread, readName_backslash], .inr ⟨?_, ?_⟩⟩
        · rw [hsplit]
          refine not_keepsEnd hw fun _ d hd => ?_
          rw [List.getLast?_concat] at hd
          cases hd
          decide
        · have hr : isWhiteSpace '\ufffd' = false := by decide
          have hm : List.countP isWhiteSpace (m.map mended) = List.countP isWhiteSpace m :=
            whiteCount_map_mended m
          simp [whiteCount, List.countP_append, hw, hr, hm]

/-- How much white space stands in the names of tokens. -/
def Token.white : Token → Nat
  | .ident name | .idTest name | .classTest name => whiteCount name.toList
  | _ => 0

def tokensWhite : List Token → Nat
  | [] => 0
  | t :: ts => t.white + tokensWhite ts

@[simp] theorem tokensWhite_nil : tokensWhite [] = 0 := rfl

@[simp] theorem tokensWhite_cons (t : Token) (ts : List Token) :
    tokensWhite (t :: ts) = t.white + tokensWhite ts := rfl

@[simp] theorem tokensWhite_append (ts us : List Token) :
    tokensWhite (ts ++ us) = tokensWhite ts + tokensWhite us := by
  induction ts with
  | nil => simp
  | cons t ts ih => rw [List.cons_append, tokensWhite_cons, ih, tokensWhite_cons, Nat.add_assoc]

theorem Token.white_mended (t : Token) : t.mended.white = t.white := by
  cases t <;> simp [mended, white, mendedName, whiteCount_map_mended]

@[simp] theorem tokensWhite_mended (ts : List Token) :
    tokensWhite (ts.map Token.mended) = tokensWhite ts := by
  induction ts with
  | nil => rfl
  | cons t ts ih => rw [List.map_cons, tokensWhite_cons, ih, t.white_mended, tokensWhite_cons]

/-- What becomes of the text of tokens when white space is cut off its end: it means the same
tokens, or there is less white space in their names. -/
def CutsEnd (text : List Char) (ts : List Token) : Prop :=
  KeepsEnd text ∧ (∀ ended, outsideTokens ended (text.rdropWhile isWhiteSpace) =
      some (ts.map Token.mended ++ [.finish])) ∨
    ¬KeepsEnd text ∧ ∀ ended us,
      outsideTokens ended (text.rdropWhile isWhiteSpace) = some us → tokensWhite us < tokensWhite ts

theorem cutsEnd_of_last {cs : List Char} {c : Char} {ts : List Token}
    (hc : isWhiteSpace c = false)
    (h : ∀ ended, outsideTokens ended (cs ++ [c]) = some (ts.map Token.mended ++ [.finish])) :
    CutsEnd (cs ++ [c]) ts := by
  refine .inl ⟨keepsEnd_of_last hc, fun ended => ?_⟩
  rw [List.rdropWhile_concat_neg _ _ _ (by simp [hc]), h]

theorem keepsEnd_append {cs ds : List Char} (hne : ds ≠ []) (hs : ds ≠ [' ']) :
    KeepsEnd (cs ++ ds) ↔ KeepsEnd ds := by
  have hlast : (cs ++ ds).getLast? = ds.getLast? := by
    rw [List.getLast?_append, List.getLast?_eq_some_getLast hne]
    rfl
  constructor
  · rintro (h | ⟨front, digit, he, hd⟩)
    · exact .inl (hlast ▸ h)
    · right
      obtain ⟨ms, b, rfl⟩ : ∃ ms b, ds = ms ++ [b] := ⟨_, _, (List.dropLast_concat_getLast hne).symm⟩
      have hsplit : (cs ++ ms) ++ [b] = (front ++ [digit]) ++ [' '] := by simpa using he
      obtain ⟨hinit, hb⟩ := List.append_inj' hsplit rfl
      have hspace : b = ' ' := (List.cons.inj hb).1
      have hm : ms ≠ [] := by
        rintro rfl
        exact hs (by simp [hspace])
      obtain ⟨ns, a, rfl⟩ : ∃ ns a, ms = ns ++ [a] := ⟨_, _, (List.dropLast_concat_getLast hm).symm⟩
      rw [← List.append_assoc] at hinit
      have hdigit : a = digit := (List.cons.inj (List.append_inj' hinit rfl).2).1
      exact ⟨ns, digit, by simp [hdigit, hspace], hd⟩
  · rintro (h | ⟨front, digit, rfl, hd⟩)
    · exact .inl (hlast ▸ h)
    · exact .inr ⟨cs ++ front, digit, by simp, hd⟩

theorem rdropWhile_append_of_self {p : Char → Bool} {cs : List Char} (h : cs.rdropWhile p = cs)
    (ds : List Char) : (cs ++ ds).rdropWhile p = cs ++ ds.rdropWhile p := by
  rw [rdropWhile_append]
  split
  next he => rw [h, he, List.append_nil]
  next => rfl

theorem Spells.ne_nil {name text : List Char} (h : Spells name text) (hn : name ≠ []) :
    text ≠ [] := by
  obtain ⟨c, rest, rfl, -⟩ := h.exists_cons hn
  simp

theorem Spells.ne_space {name text : List Char} (h : Spells name text) : text ≠ [' '] := by
  rintro rfl
  cases name with
  | nil => cases h
  | cons d ds =>
    obtain ⟨c, rest, he, hc⟩ := h.exists_cons (List.cons_ne_nil d ds)
    cases he
    exact nameStart_ne (hc []) (by decide) (by decide) rfl

theorem eq_of_readName_nil {cs rest : List Char} (h : readName cs = ([], rest)) : rest = cs := by
  cases cs with
  | nil =>
    rw [readName] at h
    cases h
    rfl
  | cons c cs =>
    rw [readName] at h
    split at h
    next => cases h
    next =>
      split at h
      next => cases h
      next => cases h; rfl

/-- The end of a name behind a prefix. Without the name, the prefix has no more white space in
the names of its tokens than with it. -/
theorem Spells.cutsEnd {name text : List Char} (h : Spells name text) (hn : name ≠ []) (pre : List Char)
    (hpre : pre.rdropWhile isWhiteSpace = pre) (make : List Char → List Token)
    (hread : ∀ ended cut cs, readName cs = (cut, []) → cut ≠ [] →
      outsideTokens ended (pre ++ cs) = some (make cut ++ [.finish]))
    (base : Nat) (hmake : ∀ cut, tokensWhite (make cut) = base + whiteCount cut)
    (hbase : ∀ ended us, outsideTokens ended pre = some us → tokensWhite us ≤ base)
    {ts : List Token} (hts : ts.map Token.mended = make (name.map mended)) :
    CutsEnd (pre ++ text) ts := by
  obtain ⟨cut, hr, hcut⟩ := h.readName_cut
  have hkeeps : KeepsEnd (pre ++ text) ↔ KeepsEnd text := keepsEnd_append (h.ne_nil hn) h.ne_space
  have hwhite : tokensWhite ts = base + whiteCount name := by
    rw [← tokensWhite_mended, hts, hmake, whiteCount_map_mended]
  unfold CutsEnd
  rw [rdropWhile_append_of_self hpre, hkeeps, hwhite, hts]
  rcases hcut with ⟨hk, rfl⟩ | ⟨hk, hlt⟩
  · exact .inl ⟨hk, fun ended => hread ended _ _ hr (by simpa using hn)⟩
  · refine .inr ⟨hk, fun ended us hus => ?_⟩
    by_cases hc : cut = []
    · subst hc
      rw [← eq_of_readName_nil hr, List.append_nil] at hus
      have hb := hbase ended us hus
      omega
    · rw [hread ended cut _ hr hc] at hus
      cases hus
      simp only [tokensWhite_append, hmake, tokensWhite_cons, tokensWhite_nil, Token.white]
      omega

theorem breaks_nil : Breaks [] :=
  ⟨by simp [EndsName], by simp⟩

/-- A part at the end of a text. -/
theorem Part.outsideTokens_last {x : Part} (hr : x.Readable) (he : x.ends = true) (ended : Bool) :
    outsideTokens ended x.chars = some (x.tokens.map Token.mended ++ [.finish]) := by
  have ha : x.Allows ended [] := by
    cases x with
    | typeTest test => exact breaks_nil
    | simple test => exact breaks_nil
    | leading k => cases he
    | between k => cases he
    | comma => cases he
  have h := Part.outsideTokens_chars hr ha
  rwa [List.append_nil, outsideTokens_nil] at h

theorem Part.cutsEnd_of_last {x : Part} (hr : x.Readable) (he : x.ends = true) {cs : List Char}
    {c : Char} (hx : x.chars = cs ++ [c]) (hc : isWhiteSpace c = false) :
    CutsEnd x.chars x.tokens := by
  rw [hx]
  exact DocumentQuery.cutsEnd_of_last hc fun ended => hx ▸ Part.outsideTokens_last hr he ended

theorem PseudoClassName.spelling_visible_of_mem :
    ∀ pseudo ∈ all, pseudo.spelling.toList.all (fun c => !isWhiteSpace c) = true := by
  decide +kernel

theorem PseudoElement.spelling_visible (pseudo : PseudoElement) :
    pseudo.spelling.toList.all (fun c => !isWhiteSpace c) = true := by
  cases pseudo <;> decide

/-- A text without white space ends in no white space. -/
theorem exists_last {cs : List Char} (hne : cs ≠ [])
    (h : cs.all (fun c => !isWhiteSpace c) = true) :
    ∃ init c, cs = init ++ [c] ∧ isWhiteSpace c = false := by
  refine ⟨cs.dropLast, cs.getLast hne, (List.dropLast_concat_getLast hne).symm, ?_⟩
  simpa using List.all_eq_true.mp h _ (List.getLast_mem hne)

theorem PseudoClass.exists_last (test : PseudoClass) :
    ∃ cs c, test.chars = cs ++ [c] ∧ isWhiteSpace c = false := by
  obtain ⟨name, argument⟩ := test
  rw [PseudoClass.chars, argument.chars_eq]
  cases argument.written with
  | none =>
    have hv := PseudoClassName.spelling_visible_of_mem name (PseudoClassName.mem_all name)
    obtain ⟨init, c, he, hc⟩ := DocumentQuery.exists_last name.spelling_name.2 hv
    exact ⟨':' :: init, c, by simp [he], hc⟩
  | some raw => exact ⟨':' :: name.spelling.toList ++ '(' :: raw.toList, ')', by simp, by decide⟩

theorem namespaceText_cut (ns : Option NamespaceTest) :
    (namespaceText ns).rdropWhile isWhiteSpace = namespaceText ns := by
  have hbar : ∀ cs, (cs ++ ['|']).rdropWhile isWhiteSpace = cs ++ ['|'] := fun cs =>
    List.rdropWhile_concat_neg _ _ _ (by decide)
  match ns with
  | none => rfl
  | some .any => exact hbar ['*']
  | some .without => exact hbar []
  | some (.bound nsPrefix) => exact hbar _

theorem TypeTest.cutsEnd {test : TypeTest} (h : ∀ name ∈ test.names, name ≠ "") :
    CutsEnd (typeTestText (some test)) (typeTokens (some test)) := by
  obtain ⟨ns, _ | name⟩ := test
  · exact Part.cutsEnd_of_last (x := .typeTest ⟨ns, none⟩) h rfl (c := '*') rfl (by decide)
  · have hns : ∀ n ∈ (ns.map NamespaceTest.names).getD [], n ≠ "" := fun n hn =>
      h n (List.mem_append_left _ hn)
    have hname : name ≠ "" := h name (by simp [TypeTest.names])
    refine (spells_identifierText name.toList).cutsEnd (toList_ne_nil hname) _
      (namespaceText_cut ns)
      (fun cut => (namespaceTokens ns).map Token.mended ++ [.ident (String.ofList cut)]) ?_
      (tokensWhite (namespaceTokens ns)) ?_ ?_ ?_
    · intro ended cut cs hr hne
      have hlast : ∀ ended, outsideTokens ended cs =
          some [.ident (String.ofList cut), .finish] := by
        intro ended
        rw [outsideTokens_name hr hne, outsideTokens_nil]
        rfl
      rw [outsideTokens_namespace hns hlast]
      simp
    · intro cut
      simp [Token.white]
    · intro ended us hus
      have hread : outsideTokens ended (namespaceText ns ++ []) = _ :=
        outsideTokens_namespace hns outsideTokens_nil
      rw [List.append_nil, hus] at hread
      cases hread
      simp [Token.white]
    · simp [typeTokens, nameToken, Token.mended, mendedName]

theorem outsideTokens_nameSign_alone {sign : Char} {make : String → Token}
    (hs : NameSign sign make) (ended : Bool) : outsideTokens ended [sign] = none := by
  have hf : LexerMode.outside.front [sign] = [sign] := rfl
  obtain ⟨missing, hscan⟩ := hs.scan
  have hfault : ∀ p, LexerMode.outside.scan p sign [] = .fault missing [] := by
    intro p
    rw [LexerMode.scan, hscan, Scan.named, readName]
  exact tokensFrom_of_fault hf (hfault _)

/-- A name behind its sign. Without the name, the sign is no text of tokens. -/
theorem NameSign.cutsEnd {sign : Char} {make : String → Token} (hs : NameSign sign make)
    {name : String} (hn : name ≠ "") {text : List Char} (h : Spells name.toList text) :
    CutsEnd (sign :: text) [make name] := by
  refine h.cutsEnd (toList_ne_nil hn) [sign] ?_ (fun cut => [make (String.ofList cut)]) ?_ 0 ?_ ?_ ?_
  · cases hs <;> rfl
  · intro ended cut cs hread hne
    rw [List.singleton_append, outsideTokens_nameSign hs hread hne, outsideTokens_nil]
    rfl
  · intro cut
    cases hs <;> simp [Token.white]
  · intro ended us hus
    rw [outsideTokens_nameSign_alone hs] at hus
    cases hus
  · cases hs <;> rfl

/-- What becomes of a part that a compound may end with. -/
theorem Part.cutsEnd {x : Part} (hr : x.Readable) (he : x.ends = true) :
    CutsEnd x.chars x.tokens := by
  cases x with
  | leading k => cases he
  | between k => cases he
  | comma => cases he
  | typeTest test => exact TypeTest.cutsEnd hr
  | simple test =>
    cases test with
    | id name => exact NameSign.id.cutsEnd hr (spells_nameText name.toList)
    | named name => exact NameSign.named.cutsEnd hr (spells_identifierText name.toList)
    | bracketed test => exact Part.cutsEnd_of_last hr he (c := ']') rfl (by decide)
    | pseudoClass test =>
      obtain ⟨cs, c, hx, hc⟩ := test.exists_last
      exact Part.cutsEnd_of_last hr he hx hc
    | pseudoElement test =>
      obtain ⟨init, c, hx, hc⟩ := exists_last test.spelling_name.2 test.spelling_visible
      have hlast : (Part.simple (.pseudoElement test)).chars = (':' :: ':' :: init) ++ [c] := by
        simp [chars, SimpleTest.chars, hx]
      exact Part.cutsEnd_of_last hr he hlast hc

end DocumentQuery
