import DocumentQuery.Proofs.PrintedEdges

namespace DocumentQuery

theorem goesOn_congr {cs ds : List Char} (h : cs.head? = ds.head?) :
    Scan.goesOn cs = Scan.goesOn ds := by
  cases cs with
  | nil =>
    cases ds with
    | nil => rfl
    | cons d ds => cases h
  | cons c cs =>
    cases ds with
    | nil => cases h
    | cons d ds => cases h; rfl

/-- What may follow a part depends on the first character only. -/
theorem Part.Allows.congr {ended : Bool} {x : Part} {cs ds : List Char} (ha : x.Allows ended cs)
    (h : cs.head? = ds.head?) : x.Allows ended ds := by
  unfold Allows Breaks EndsName at *
  rw [← h, ← goesOn_congr h]
  exact ha

theorem Laid.congr {ended : Bool} {xs : List Part} {cs ds : List Char} (hl : Laid ended xs cs)
    (h : cs.head? = ds.head?) : Laid ended xs ds := by
  induction xs generalizing ended with
  | nil => trivial
  | cons x xs ih =>
    refine ⟨hl.1.congr ?_, ih hl.2⟩
    rw [List.head?_append, List.head?_append, h]

theorem Part.Allows.of_ended {ended : Bool} {x : Part} {cs : List Char} (ha : x.Allows ended cs)
    (hx : ∀ k, x ≠ .between k) (e : Bool) : x.Allows e cs := by
  cases x with
  | between k => exact absurd rfl (hx k)
  | typeTest test => exact ha
  | simple test => exact ha
  | leading k => exact ha
  | comma => exact ha

/-- Cutting off the end leaves the first character, if it leaves any. -/
theorem head?_rdropWhile {cs : List Char} (h : cs.rdropWhile isWhiteSpace ≠ []) :
    (cs.rdropWhile isWhiteSpace).head? = cs.head? := by
  obtain ⟨back, hb⟩ := List.rdropWhile_prefix isWhiteSpace cs
  obtain ⟨c, ds, he⟩ := List.exists_cons_of_ne_nil h
  rw [he] at hb ⊢
  rw [← hb]
  rfl

theorem outsideTokens_sign_last {ended : Bool} {k : Combinator} (hk : k ≠ .descendant) :
    outsideTokens ended k.sign.toList = some [.combinator k, .finish] := by
  have hend : outsideTokens false [] = some [.finish] := outsideTokens_nil false
  have hsign : ∀ c, isBlank c = false → isNameChar c = false → c ≠ '\\' →
      Scan.sign c [] = .token (.combinator k) [] →
      outsideTokens ended [c] = some [.combinator k, .finish] := by
    intro c hb hn hs hc
    rw [outsideTokens_of_token (fun p => (Scan.outside_sign hb hn hs p []).trans hc) rfl]
    exact congrArg _ hend
  cases k with
  | descendant => exact absurd rfl hk
  | child => exact hsign '>' (by decide) (by decide) (by decide) rfl
  | adjacentSibling => exact hsign '+' (by decide) (by decide) (by decide) rfl
  | generalSibling => exact hsign '~' (by decide) (by decide) (by decide) rfl

theorem leadingText_cut {k : Combinator} (hk : k ≠ .descendant) :
    (leadingText k).rdropWhile isWhiteSpace = k.sign.toList := by
  cases k with
  | descendant => exact absurd rfl hk
  | child => decide
  | adjacentSibling => decide
  | generalSibling => decide

theorem betweenText_cut {k : Combinator} (hk : k ≠ .descendant) :
    (betweenText k).rdropWhile isWhiteSpace = ' ' :: k.sign.toList := by
  cases k with
  | descendant => exact absurd rfl hk
  | child => decide
  | adjacentSibling => decide
  | generalSibling => decide

/-- A text that ends in a combinator or a comma. -/
theorem tokensWhite_sign_last {ended : Bool} {x : Part} (he : x.ends = false)
    (hne : x.chars.rdropWhile isWhiteSpace ≠ []) {us : List Token}
    (h : outsideTokens ended (x.chars.rdropWhile isWhiteSpace) = some us) : tokensWhite us = 0 := by
  cases x with
  | typeTest test => cases he
  | simple test => cases he
  | comma =>
    have hcut : [',', ' '].rdropWhile isWhiteSpace = [','] := by decide
    have hend : outsideTokens false [] = some [.finish] := outsideTokens_nil false
    rw [Part.chars, hcut, outsideTokens_of_token (t := .comma) (fun p =>
      Scan.outside_sign (by decide) (by decide) (by decide) p []) rfl] at h
    cases (congrArg _ hend).symm.trans h
    rfl
  | leading k =>
    by_cases hk : k = .descendant
    · subst hk
      exact absurd rfl hne
    · rw [Part.chars, leadingText_cut hk, outsideTokens_sign_last hk] at h
      cases h
      rfl
  | between k =>
    by_cases hk : k = .descendant
    · subst hk
      exact absurd (by decide) hne
    · have hsign : (∀ c ∈ k.sign.toList.head?, isBlank c = false) ∧
          Scan.goesOn k.sign.toList = false := by
        cases k with
        | descendant => exact absurd rfl hk
        | child => exact ⟨by rintro c ⟨⟩; decide, by decide⟩
        | adjacentSibling => exact ⟨by rintro c ⟨⟩; decide, by decide⟩
        | generalSibling => exact ⟨by rintro c ⟨⟩; decide, by decide⟩
      rw [Part.chars, betweenText_cut hk, outsideTokens_space hsign.1 hsign.2,
        outsideTokens_sign_last hk] at h
      cases h
      rfl

theorem Part.tokensWhite_cut_le {ended : Bool} {x : Part} (hr : x.Readable)
    (hne : x.chars.rdropWhile isWhiteSpace ≠ []) {us : List Token}
    (h : outsideTokens ended (x.chars.rdropWhile isWhiteSpace) = some us) :
    tokensWhite us ≤ tokensWhite x.tokens := by
  cases he : x.ends with
  | false =>
    rw [tokensWhite_sign_last he hne h]
    exact Nat.zero_le _
  | true =>
    rcases Part.cutsEnd hr he with ⟨-, hread⟩ | ⟨-, hlt⟩
    · rw [hread ended] at h
      cases h
      simp [Token.white]
    · exact Nat.le_of_lt (hlt ended us h)

/-- Cutting white space off the end never adds white space to names. -/
theorem tokensWhite_cut_le {ended : Bool} {xs : List Part} {more : List Char}
    (hr : ∀ x ∈ xs, x.Readable) (hl : Laid ended xs more) {us : List Token}
    (h : outsideTokens ended ((partsText xs).rdropWhile isWhiteSpace) = some us) :
    tokensWhite us ≤ tokensWhite (partsTokens xs) := by
  induction xs using List.reverseRecOn generalizing more us with
  | nil =>
    rw [partsText_nil, List.rdropWhile_nil, outsideTokens_nil] at h
    cases h
    exact Nat.le_refl _
  | append_singleton xs x ih =>
    have hx := hr x (by simp)
    have hxs : ∀ y ∈ xs, y.Readable := fun y hy => hr y (by simp [hy])
    have hlaid := (laid_append.mp hl).1
    have hwhite : tokensWhite (partsTokens (xs ++ [x])) =
        tokensWhite (partsTokens xs) + tokensWhite x.tokens := by simp
    rw [partsText_append, rdropWhile_append] at h
    simp only [partsText_cons, partsText_nil, List.append_nil] at h
    split at h
    next =>
      have hle := ih hxs hlaid h
      omega
    next hne =>
      have hhead : (partsText [x] ++ more).head? =
          (x.chars.rdropWhile isWhiteSpace).head? := by
        rw [head?_rdropWhile hne]
        have hcs : x.chars ≠ [] := by
          rintro hc
          exact hne (by rw [hc]; rfl)
        obtain ⟨c, ds, he⟩ := List.exists_cons_of_ne_nil hcs
        simp [he]
      rw [outsideTokens_parts hxs (hlaid.congr hhead)] at h
      obtain ⟨vs, hvs, rfl⟩ := Option.map_eq_some_iff.mp h
      have hle := Part.tokensWhite_cut_le hx hne hvs
      simp only [tokensWhite_append, tokensWhite_mended]
      omega

theorem Part.beginsCompound {x : Part} (hr : x.Readable) (he : x.ends = true) :
    BeginsCompound x.chars := by
  cases x with
  | leading k => cases he
  | between k => cases he
  | comma => cases he
  | typeTest test =>
    have h := beginsCompound_typeTest hr []
    rwa [List.append_nil] at h
  | simple test =>
    have h := beginsCompound_simple test []
    rwa [List.append_nil] at h

theorem BeginsCompound.ne_nil {cs : List Char} (h : BeginsCompound cs) : cs ≠ [] := by
  rintro rfl
  exact Bool.noConfusion h.2

theorem Part.tokens_ne_nil {x : Part} (he : x.ends = true) : x.tokens ≠ [] := by
  cases x with
  | leading k => cases he
  | between k => cases he
  | comma => cases he
  | typeTest test => simp [tokens, typeTokens]
  | simple test => cases test <;> simp [tokens, SimpleTest.tokens]

/-- What becomes of printed parts when white space is cut off their end. -/
theorem cutsEnd_parts {ended : Bool} {xs : List Part} {x : Part}
    (hr : ∀ y ∈ xs ++ [x], y.Readable) (he : x.ends = true) (hl : Laid ended (xs ++ [x]) []) :
    KeepsEnd (partsText (xs ++ [x])) ∧
      outsideTokens ended ((partsText (xs ++ [x])).rdropWhile isWhiteSpace) =
        some ((partsTokens (xs ++ [x])).map Token.mended ++ [.finish]) ∨
    ¬KeepsEnd (partsText (xs ++ [x])) ∧ ∀ us,
      outsideTokens ended ((partsText (xs ++ [x])).rdropWhile isWhiteSpace) = some us →
        tokensWhite us < tokensWhite (partsTokens (xs ++ [x])) := by
  have hx := hr x (by simp)
  have hxs : ∀ y ∈ xs, y.Readable := fun y hy => hr y (by simp [hy])
  have hlaid := (laid_append.mp hl).1
  have hbegins := Part.beginsCompound hx he
  have hspace : x.chars ≠ [' '] := fun h => absurd (hbegins.1 ' ' (by rw [h]; rfl)) (by decide)
  have hkeeps : KeepsEnd (partsText xs ++ x.chars) ↔ KeepsEnd x.chars :=
    keepsEnd_append hbegins.ne_nil hspace
  have htext : partsText (xs ++ [x]) = partsText xs ++ x.chars := by simp
  have hcut (hne : x.chars.rdropWhile isWhiteSpace ≠ []) :
      outsideTokens ended ((partsText xs ++ x.chars).rdropWhile isWhiteSpace) =
        (outsideTokens (endedAfter ended xs) (x.chars.rdropWhile isWhiteSpace)).map
          ((partsTokens xs).map Token.mended ++ ·) := by
    have hhead : (partsText [x] ++ []).head? = (x.chars.rdropWhile isWhiteSpace).head? := by
      rw [head?_rdropWhile hne]
      simp
    rw [rdropWhile_append, if_neg hne, outsideTokens_parts hxs (hlaid.congr hhead)]
  rw [htext, hkeeps]
  rcases Part.cutsEnd hx he with ⟨hk, hfull⟩ | ⟨hk, hlt⟩
  · refine .inl ⟨hk, ?_⟩
    have hne : x.chars.rdropWhile isWhiteSpace ≠ [] := by
      intro hc
      have hf := hfull ended
      rw [hc, outsideTokens_nil] at hf
      simp [Part.tokens_ne_nil he] at hf
    rw [hcut hne, hfull]
    simp
  · refine .inr ⟨hk, fun us hus => ?_⟩
    have hwhite : tokensWhite (partsTokens (xs ++ [x])) =
        tokensWhite (partsTokens xs) + tokensWhite x.tokens := by simp
    rw [hwhite]
    by_cases hne : x.chars.rdropWhile isWhiteSpace = []
    · have hle : tokensWhite us ≤ tokensWhite (partsTokens xs) := by
        rw [rdropWhile_append, if_pos hne] at hus
        exact tokensWhite_cut_le hxs hlaid hus
      have hlast := hlt ended [.finish] (by rw [hne, outsideTokens_nil])
      omega
    · rw [hcut hne] at hus
      obtain ⟨vs, hvs, rfl⟩ := Option.map_eq_some_iff.mp hus
      have hlast := hlt _ vs hvs
      simp only [tokensWhite_append, tokensWhite_mended]
      omega

/-- A name in front of parts whose end is cut off. -/
theorem tokensWhite_name_cut_le {ended : Bool} {name text more : List Char} {xs : List Part}
    (h : Spells name text) (hn : name ≠ []) (hr : ∀ x ∈ xs, x.Readable) (hl : Laid true xs more)
    (hm : Breaks (partsText xs ++ more)) {us : List Token}
    (hus : outsideTokens ended ((text ++ partsText xs).rdropWhile isWhiteSpace) = some us) :
    tokensWhite us ≤ whiteCount name + tokensWhite (partsTokens xs) := by
  rw [rdropWhile_append] at hus
  split at hus
  next =>
    obtain ⟨cut, hread, hcut⟩ := h.readName_cut
    have hle : whiteCount cut ≤ whiteCount name := by
      rcases hcut with ⟨-, rfl⟩ | ⟨-, hlt⟩
      · rw [whiteCount_map_mended]
      · exact Nat.le_of_lt hlt
    by_cases hc : cut = []
    · subst hc
      rw [← eq_of_readName_nil hread, outsideTokens_nil] at hus
      cases hus
      simp [Token.white]
    · rw [outsideTokens_name hread hc, outsideTokens_nil] at hus
      cases hus
      simp only [tokensWhite_cons, tokensWhite_nil, Token.white, String.toList_ofList]
      omega
  next hne =>
    have hends : EndsName ((partsText xs).rdropWhile isWhiteSpace) := by
      intro c hc
      rw [head?_rdropWhile hne] at hc
      refine hm.1 c ?_
      rw [List.head?_append, Option.mem_def.mp hc]
      rfl
    rw [outsideTokens_name (h.reads hends) (by simpa using hn)] at hus
    obtain ⟨vs, hvs, rfl⟩ := Option.map_eq_some_iff.mp hus
    have hle := tokensWhite_cut_le hr hl hvs
    simp only [tokensWhite_cons, Token.white, String.toList_ofList, whiteCount_map_mended]
    omega

/-- White space cut off the front of a written name is missing in the name. -/
theorem Spells.trimStart {name text : List Char} (h : Spells name text) (rest : List Char) :
    ∃ short front, Spells short front ∧ whiteCount short ≤ whiteCount name ∧
      ((∃ c ∈ text.head?, isWhiteSpace c = true) → whiteCount short < whiteCount name) ∧
      DocumentQuery.trimStart (text ++ rest) =
        if short = [] then DocumentQuery.trimStart rest else front ++ rest := by
  induction h with
  | nil => exact ⟨[], [], .nil, Nat.le_refl _, by simp, rfl⟩
  | @cons c cs z zs hz hs ih =>
    have hvisible : ∀ d ds, z = d :: ds → isWhiteSpace d = false →
        ∃ short front, Spells short front ∧ whiteCount short ≤ whiteCount (c :: cs) ∧
          ((∃ e ∈ (z ++ zs).head?, isWhiteSpace e = true) →
            whiteCount short < whiteCount (c :: cs)) ∧
          DocumentQuery.trimStart (z ++ zs ++ rest) =
            if short = [] then DocumentQuery.trimStart rest else front ++ rest := by
      intro d ds hd hw
      refine ⟨c :: cs, z ++ zs, .cons hz hs, Nat.le_refl _, ?_, ?_⟩
      · rintro ⟨e, he, hwe⟩
        rw [hd] at he
        cases he
        rw [hw] at hwe
        cases hwe
      · rw [if_neg (List.cons_ne_nil c cs), hd]
        simp [DocumentQuery.trimStart, hw]
    cases hz with
    | plain hc =>
      cases hw : isWhiteSpace c with
      | false => exact hvisible c [] rfl hw
      | true =>
        obtain ⟨short, front, hspells, hle, -, htrim⟩ := ih
        have hcount : whiteCount (c :: cs) = whiteCount cs + 1 := by simp [whiteCount, hw]
        refine ⟨short, front, hspells, by omega, fun _ => by omega, ?_⟩
        rw [← htrim]
        simp [DocumentQuery.trimStart, hw]
    | code hc => exact hvisible '\\' _ rfl (by decide)
    | escaped hc hb => exact hvisible '\\' _ rfl (by decide)

/-- What trimming printed parts does to the white space in names: there is no more of it, and
less if the text begins with such a character that is no blank. -/
def TrimsTo (text : List Char) (n : Nat) : Prop :=
  ∀ ended us, outsideTokens ended (trim text) = some us →
    tokensWhite us ≤ n ∧
      ((∃ c ∈ text.head?, isWhiteSpace c = true ∧ isBlank c = false) → tokensWhite us < n)

theorem trimStart_of_head {cs : List Char} (h : ∀ c ∈ cs.head?, isWhiteSpace c = false) :
    trimStart cs = cs := by
  cases cs with
  | nil => rfl
  | cons c cs => simp [trimStart, h c rfl]

/-- Parts that do not begin with white space are cut at their end only. -/
theorem trimsTo_of_visible {ended : Bool} {x : Part} {xs : List Part} {more : List Char}
    (hr : ∀ y ∈ x :: xs, y.Readable) (hl : Laid ended (x :: xs) more)
    (hx : ∀ k, x ≠ .between k)
    (hv : ∀ c ∈ (partsText (x :: xs)).head?, isWhiteSpace c = false) :
    TrimsTo (partsText (x :: xs)) (tokensWhite (partsTokens (x :: xs))) := by
  intro e us hus
  rw [trim_eq_rdropWhile, trimStart_of_head hv] at hus
  refine ⟨tokensWhite_cut_le hr ⟨hl.1.of_ended hx e, hl.2⟩ hus, ?_⟩
  rintro ⟨c, hc, hw, -⟩
  rw [hv c hc] at hw
  cases hw

/-- Parts that begin with a name. -/
theorem trimsTo_of_name {name text more : List Char} {xs : List Part} (h : Spells name text)
    (hn : name ≠ []) (hr : ∀ x ∈ xs, x.Readable) (hl : Laid true xs more)
    (hm : Breaks (partsText xs ++ more))
    (ih : TrimsTo (partsText xs) (tokensWhite (partsTokens xs))) :
    TrimsTo (text ++ partsText xs) (whiteCount name + tokensWhite (partsTokens xs)) := by
  intro e us hus
  obtain ⟨short, front, hspells, hle, hlt, htrim⟩ := h.trimStart (partsText xs)
  have hus' : tokensWhite us ≤ whiteCount short + tokensWhite (partsTokens xs) := by
    rw [trim_eq_rdropWhile, htrim] at hus
    split at hus
    next hs =>
      have hxs := (ih e us hus).1
      omega
    next hs => exact tokensWhite_name_cut_le hspells hs hr hl hm hus
  refine ⟨by omega, ?_⟩
  rintro ⟨c, hc, hw, -⟩
  have hhead : c ∈ text.head? := by
    obtain ⟨d, ds, rfl⟩ := List.exists_cons_of_ne_nil (h.ne_nil hn)
    exact hc
  have hshort := hlt ⟨c, hhead, hw⟩
  omega

theorem trimsTo_typeTest {ended : Bool} {test : TypeTest} {xs : List Part} {more : List Char}
    (hr : ∀ y ∈ .typeTest test :: xs, y.Readable) (hl : Laid ended (.typeTest test :: xs) more)
    (ih : TrimsTo (partsText xs) (tokensWhite (partsTokens xs))) :
    TrimsTo (partsText (.typeTest test :: xs))
      (tokensWhite (partsTokens (.typeTest test :: xs))) := by
  have htest : ∀ name ∈ test.names, name ≠ "" := hr (.typeTest test) List.mem_cons_self
  have hxs : ∀ y ∈ xs, y.Readable := fun y hy => hr y (List.mem_cons_of_mem _ hy)
  have hvisible := trimsTo_of_visible hr hl (by simp)
  obtain ⟨ns, name⟩ := test
  match ns with
  | some .any =>
    exact hvisible (by rintro c ⟨⟩; decide)
  | some .without =>
    exact hvisible (by rintro c ⟨⟩; decide)
  | none =>
    cases name with
    | none => exact hvisible (by rintro c ⟨⟩; decide)
    | some name =>
      have hname : name ≠ "" := htest name (by simp [TypeTest.names])
      have ht := trimsTo_of_name (spells_identifierText name.toList) (toList_ne_nil hname) hxs
        hl.2 hl.1 ih
      have hwhite : tokensWhite (partsTokens (.typeTest ⟨none, some name⟩ :: xs)) =
          whiteCount name.toList + tokensWhite (partsTokens xs) := by
        simp [Part.tokens, typeTokens, namespaceTokens, nameToken, Token.white]
      rw [hwhite]
      exact ht
  | some (.bound nsPrefix) =>
    -- without its prefix the test still has its bar
    have hprefix : nsPrefix ≠ "" := htest nsPrefix (by simp [TypeTest.names, NamespaceTest.names])
    have hrest : ∀ y ∈ .typeTest ⟨some .without, name⟩ :: xs, y.Readable := by
      intro y hy
      rcases List.mem_cons.mp hy with rfl | hy
      · intro n hn
        exact htest n (List.mem_append_right _ hn)
      · exact hxs y hy
    have hlaid : Laid true (.typeTest ⟨some .without, name⟩ :: xs) more := ⟨hl.1, hl.2⟩
    have hbar : Breaks (partsText (.typeTest ⟨some .without, name⟩ :: xs) ++ more) :=
      ⟨by rintro c ⟨⟩; decide, by simp [Part.chars, typeTestText, namespaceText]⟩
    have ht := trimsTo_of_name (spells_identifierText nsPrefix.toList) (toList_ne_nil hprefix)
      hrest hlaid hbar (trimsTo_of_visible hrest hlaid (by simp) (by rintro c ⟨⟩; decide))
    have hwhite : tokensWhite (partsTokens (.typeTest ⟨some (.bound nsPrefix), name⟩ :: xs)) =
        whiteCount nsPrefix.toList +
          tokensWhite (partsTokens (.typeTest ⟨some .without, name⟩ :: xs)) := by
      simp [Part.tokens, typeTokens, namespaceTokens, Token.white]
    have htext : partsText (.typeTest ⟨some (.bound nsPrefix), name⟩ :: xs) =
        identifierText nsPrefix.toList ++ partsText (.typeTest ⟨some .without, name⟩ :: xs) := by
      simp [Part.chars, typeTestText, namespaceText]
    rw [hwhite, htext]
    exact ht

theorem trimsTo_leading {ended : Bool} {k : Combinator} {xs : List Part} {more : List Char}
    (hr : ∀ y ∈ xs, y.Readable) (hl : Laid ended (.leading k :: xs) more) :
    TrimsTo (partsText (.leading k :: xs)) (tokensWhite (partsTokens (.leading k :: xs))) := by
  refine trimsTo_of_visible ?_ hl (by simp) (head_leadingText_visible hl.1.1 _)
  intro y hy
  rcases List.mem_cons.mp hy with rfl | hy
  · trivial
  · exact hr y hy

/-- The space in front of a combinator goes, and with it a combinator for descendants. -/
theorem trimsTo_between {ended : Bool} {k : Combinator} {xs : List Part} {more : List Char}
    (hr : ∀ y ∈ xs, y.Readable) (hl : Laid ended (.between k :: xs) more)
    (ih : TrimsTo (partsText xs) (tokensWhite (partsTokens xs))) :
    TrimsTo (partsText (.between k :: xs)) (tokensWhite (partsTokens (.between k :: xs))) := by
  have hwhite : tokensWhite (partsTokens (.between k :: xs)) = tokensWhite (partsTokens xs) := by
    simp [Part.tokens, Token.white]
  intro e us hus
  constructor
  · by_cases hk : k = .descendant
    · subst hk
      rw [hwhite]
      exact (ih e us hus).1
    · have hsign : ∀ k, k ≠ .descendant →
          trim (partsText (.between k :: xs)) = trim (partsText (.leading k :: xs)) := by
        intro k hk
        cases k with
        | descendant => exact absurd rfl hk
        | child => rfl
        | adjacentSibling => rfl
        | generalSibling => rfl
      rw [hsign k hk] at hus
      have hlead : Laid ended (.leading k :: xs) more := ⟨⟨hk, hl.1.2.1⟩, hl.2⟩
      exact (trimsTo_leading hr hlead e us hus).1
  · rintro ⟨c, hc, -, hb⟩
    have hspace : (partsText (.between k :: xs)).head? = some ' ' := by cases k <;> rfl
    rw [hspace] at hc
    cases hc
    exact absurd hb (by decide)

/-- Trimming printed parts adds no white space to names. -/
theorem trimsTo_parts {ended : Bool} {xs : List Part} {more : List Char}
    (hr : ∀ y ∈ xs, y.Readable) (hl : Laid ended xs more) :
    TrimsTo (partsText xs) (tokensWhite (partsTokens xs)) := by
  induction xs generalizing ended with
  | nil =>
    intro e us hus
    have htrim : trim [] = [] := rfl
    rw [partsText_nil, htrim, outsideTokens_nil] at hus
    cases hus
    simp [Token.white]
  | cons x xs ih =>
    have hxs : ∀ y ∈ xs, y.Readable := fun y hy => hr y (List.mem_cons_of_mem _ hy)
    cases x with
    | typeTest test => exact trimsTo_typeTest hr hl (ih hxs hl.2)
    | simple test =>
      refine trimsTo_of_visible hr hl (by simp) ?_
      obtain ⟨c, cs, he, hc⟩ := test.chars_eq_cons
      rw [partsText_cons, Part.chars, he]
      rintro d ⟨⟩
      rcases hc with rfl | rfl | rfl | rfl <;> decide
    | comma => exact trimsTo_of_visible hr hl (by simp) (by rintro c ⟨⟩; decide)
    | leading k => exact trimsTo_leading hxs hl
    | between k => exact trimsTo_between hxs hl (ih hxs hl.2)

theorem endedAfter_laterGroupParts {gs : List Group} (h : ∀ g ∈ gs, g.Present) :
    endedAfter true (laterGroupParts gs) = true := by
  induction gs with
  | nil => rfl
  | cons g gs ih =>
    have hg := (Group.laid_parts (h g List.mem_cons_self) false breaks_nil).2
    have hparts : laterGroupParts (g :: gs) = [.comma] ++ (g.parts ++ laterGroupParts gs) := rfl
    rw [hparts, endedAfter_append, endedAfter_append]
    change endedAfter (endedAfter false g.parts) (laterGroupParts gs) = true
    rw [hg]
    exact ih fun f hf => h f (List.mem_cons_of_mem g hf)

namespace Selector

/-- A printed selector ends in a test. -/
theorem Formed.exists_last {s : Selector} (h : s.Formed) :
    ∃ xs x, s.parts = xs ++ [x] ∧ x.ends = true := by
  have hended : endedAfter false s.parts = true := by
    obtain ⟨_ | ⟨g, gs⟩⟩ := s
    · exact absurd rfl h.groups
    · have hp : ∀ f ∈ g :: gs, f.Present := fun f hf => h.present hf
      have hg := (Group.laid_parts (hp g List.mem_cons_self) false breaks_nil).2
      change endedAfter false (g.parts ++ laterGroupParts gs) = true
      rw [endedAfter_append, hg]
      exact endedAfter_laterGroupParts fun f hf => hp f (List.mem_cons_of_mem g hf)
  generalize s.parts = xs at hended
  induction xs using List.reverseRecOn with
  | nil => cases hended
  | append_singleton xs x _ =>
    rw [endedAfter_append] at hended
    exact ⟨xs, x, rfl, hended⟩

theorem AllClosed.readable {s : Selector} (hc : s.AllClosed) (h : s.Formed) :
    ∀ x ∈ s.parts, x.Readable := fun _ hx => h.readable hx fun _ ht =>
  hc.closes (mem_arguments_of_mem_parts (ht ▸ hx))

theorem Formed.cutsEnd {s : Selector} (h : s.Formed) (hc : s.AllClosed) :
    KeepsEnd s.chars ∧ outsideTokens false (s.chars.rdropWhile isWhiteSpace) =
        some (s.tokens.map Token.mended ++ [.finish]) ∨
      ¬KeepsEnd s.chars ∧ ∀ us, outsideTokens false (s.chars.rdropWhile isWhiteSpace) = some us →
        tokensWhite us < tokensWhite s.tokens := by
  obtain ⟨xs, x, hx, he⟩ := h.exists_last
  have hr := hc.readable h
  have hl := h.laid
  rw [hx] at hr hl
  rw [chars_eq, tokens, hx]
  exact cutsEnd_parts hr he hl

/-- A selector in parentheses, which is trimmed before it is read, has the tokens it was written
for if its text keeps its edges; if not, there is less white space in names. -/
theorem Formed.trimmed_tokens {s : Selector} (h : s.Formed) (hc : s.AllClosed) :
    KeepsEdges s.chars ∧
        outsideTokens false (trim s.chars) = some (s.tokens.map Token.mended ++ [.finish]) ∨
      ¬KeepsEdges s.chars ∧ ∀ us, outsideTokens false (trim s.chars) = some us →
        tokensWhite us < tokensWhite s.tokens := by
  by_cases hv : ∀ c ∈ s.chars.head?, isWhiteSpace c = false
  · rw [trim_eq_rdropWhile, trimStart_of_head hv]
    exact (h.cutsEnd hc).imp (fun hk => ⟨⟨hv, hk.1⟩, hk.2⟩) fun hk => ⟨fun he => hk.1 he.2, hk.2⟩
  · refine .inr ⟨fun he => hv he.1, fun us hus => ?_⟩
    have ht := trimsTo_parts (hc.readable h) h.laid
    rw [← chars_eq, ← tokens] at ht
    refine (ht false us hus).2 ?_
    simp only [not_forall, Bool.not_eq_false] at hv
    obtain ⟨c, hm, hw⟩ := hv
    exact ⟨c, hm, hw, h.head_chars c hm⟩

end Selector

end DocumentQuery
