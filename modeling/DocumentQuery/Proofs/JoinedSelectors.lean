import DocumentQuery.Proofs.GrammarReading
import DocumentQuery.Proofs.JoinedTokens
import DocumentQuery.SelectorEquality

namespace DocumentQuery

section

variable {nested : String → Selector → Prop} {ts us : List Token} {c : Compound}
  {steps more : List Step} {groups others : List Group} {k next : Combinator}

theorem StepsDerive.append (h : StepsDerive nested k ts steps)
    (hs : StepsDerive nested next us more) :
    StepsDerive nested k (ts ++ .combinator next :: us) (steps ++ more) := by
  induction h with
  | last hc => exact .next hc hs
  | next hc _ ih =>
    rw [List.append_assoc]
    exact .next hc ih

/-- The combinator of the first step is none of the tokens that the steps are read from. -/
theorem StepsDerive.congr (h : StepsDerive nested k ts (⟨k, c⟩ :: steps)) (next : Combinator) :
    StepsDerive nested next ts (⟨next, c⟩ :: steps) := by
  cases h with
  | last hc => exact .last hc
  | next hc hs => exact .next hc hs

theorem GroupDerives.append {g : Group} (h : GroupDerives nested ts g)
    (hs : StepsDerive nested next us more) :
    GroupDerives nested (ts ++ .combinator next :: us) ⟨g.steps ++ more⟩ := by
  cases h with
  | implicit h => exact .implicit (h.append hs)
  | explicit h => exact .explicit (h.append hs)

theorem GroupsDerive.append (h : GroupsDerive nested ts groups)
    (hs : GroupsDerive nested us others) :
    GroupsDerive nested (ts ++ .comma :: us) (groups ++ others) := by
  induction h with
  | last hg => exact .next hg hs
  | next hg _ ih =>
    rw [List.append_assoc]
    exact .next hg ih

/-- Without a combinator in front, the first step for descendants may come after any other. -/
theorem GroupDerives.steps_of_descendant (h : GroupDerives nested ts ⟨⟨.descendant, c⟩ :: steps⟩)
    (hts : ts.head? ≠ some (.combinator .descendant)) (next : Combinator) :
    StepsDerive nested next ts (⟨next, c⟩ :: steps) := by
  cases h with
  | implicit h => exact h.congr next
  | @explicit k _ _ h =>
    have hk : k = .descendant := by
      cases h <;> rfl
    exact absurd (by rw [List.head?_cons, hk]) hts

/-- The last group goes on with the first group of the tokens after a combinator. -/
theorem GroupsDerive.append_steps (h : GroupsDerive nested ts groups)
    (hs : GroupsDerive nested us (⟨⟨.descendant, c⟩ :: steps⟩ :: others))
    (hus : us.head? ≠ some (.combinator .descendant)) :
    ∃ front last, groups = front ++ [last] ∧ ∀ next,
      GroupsDerive nested (ts ++ .combinator next :: us)
        (front ++ ⟨last.steps ++ ⟨next, c⟩ :: steps⟩ :: others) := by
  induction h with
  | @last ts g hg =>
    refine ⟨[], g, rfl, fun next => ?_⟩
    cases hs with
    | last h => exact .last (hg.append (h.steps_of_descendant hus next))
    | @next vs ws _ _ h hrest =>
      have hvs : vs.head? ≠ some (.combinator .descendant) :=
        fun he => hus (by rw [List.head?_append, he, Option.some_or])
      have hlast := hg.append (h.steps_of_descendant hvs next)
      rw [← List.cons_append, ← List.append_assoc]
      exact .next hlast hrest
  | next hg _ ih =>
    obtain ⟨front, last, rfl, hd⟩ := ih
    refine ⟨_ :: front, last, rfl, fun next => ?_⟩
    rw [List.append_assoc]
    exact .next hg (hd next)

end

/-- A text that begins with no blank has no token for descendants in front. -/
theorem head?_tokensFrom_outside {p : Option Token} {cs : List Char} {ts : List Token}
    (h : tokensFrom .outside p (skipBlanks cs) = some ts) :
    ts.head? ≠ some (.combinator .descendant) := by
  cases hf : skipBlanks cs with
  | nil =>
    rw [hf, tokensFrom_of_end rfl (by simp)] at h
    cases h
    simp
  | cons c rest =>
    have hb := isBlank_of_skipBlanks_eq_cons hf
    rw [hf] at h
    cases hs : LexerMode.outside.scan p c rest with
    | fault f after =>
      rw [tokensFrom_of_fault rfl hs] at h
      cases h
    | blanks after => exact absurd (Scan.outside_blanks hs) (by simp [hb])
    | token t after =>
      rw [tokensFrom_of_token rfl hs] at h
      obtain ⟨us, -, rfl⟩ := Option.map_eq_some_iff.mp h
      intro he
      obtain rfl : t = .combinator .descendant := Option.some.inj he
      exact absurd (Scan.outside_token hs).1.begins (by simp [Token.Begins, hb])

theorem skipBlanks_append_of_isBlank {blanks : List Char} (h : ∀ c ∈ blanks, isBlank c = true)
    (cs : List Char) : skipBlanks (blanks ++ cs) = skipBlanks cs :=
  List.dropWhile_append_of_pos h

/-- Two texts with a sign between them have the tokens of both. -/
theorem outsideTokens_joined {first second before after : List Char} {d : Char} {t : Token}
    {us vs : List Token} (hd : Scan.goesOn [d] = false)
    (ht : ∀ more, Scan.sign d more = .token t (skipBlanks more)) (hend : EndsPlain first)
    (hbefore : ∀ c ∈ before, isBlank c = true) (hafter : ∀ c ∈ after, isBlank c = true)
    (hfirst : outsideTokens false (skipBlanks first) = some (us ++ [.finish]))
    (hsecond : outsideTokens false (skipBlanks second) = some vs) :
    outsideTokens false (skipBlanks (first ++ (before ++ d :: (after ++ second)))) =
      some (us ++ t :: vs) := by
  have hblank : isBlank d = false := by
    rcases Scan.goesOn_cons_eq_false.mp hd with rfl | rfl | rfl | rfl <;> decide
  have hm : SignLeads d (after ++ second) (before ++ d :: (after ++ second)) := by
    refine ⟨?_, hd⟩
    rw [skipBlanks_append_of_isBlank hbefore]
    exact skipBlanks_of_head fun c hc => Option.some.inj hc ▸ hblank
  obtain ⟨m, hm', he, -⟩ := skipBlanks_joined hm first
  have hplain := hend.suffix (skipBlanks_suffix first)
  have hjoined := tokensFrom_joined hm' (ht _) hplain (by simp) hfirst
  rw [skipBlanks_append_of_isBlank hafter, hsecond] at hjoined
  rw [he]
  exact hjoined

/-- Texts of two selectors may be joined by a comma, and by the sign of a combinator when the
second begins with none. -/
theorem parse_joined {limit : Nat} {first second before after : String} {a b : Selector}
    (ha : parse limit first = .ok a) (hb : parse limit second = .ok b)
    (hend : first.toList.getLast? ≠ some '\\')
    (hbefore : ∀ c ∈ before.toList, isBlank c = true)
    (hafter : ∀ c ∈ after.toList, isBlank c = true) :
    parse limit (first ++ before ++ "," ++ after ++ second) = .ok ⟨a.groups ++ b.groups⟩ ∧
      ∀ c steps groups, b.groups = ⟨⟨.descendant, c⟩ :: steps⟩ :: groups →
        ∃ front last, a.groups = front ++ [last] ∧ ∀ k, k ≠ .descendant →
          parse limit (first ++ before ++ k.sign ++ after ++ second) =
            .ok ⟨front ++ ⟨last.steps ++ ⟨k, c⟩ :: steps⟩ :: groups⟩ := by
  obtain ⟨us, hus, hda⟩ := parse_eq_ok_iff.mp ha
  obtain ⟨vs, hvs, hdb⟩ := parse_eq_ok_iff.mp hb
  have hjoin : ∀ (sign : String) (d : Char) (t : Token) (s : Selector), sign.toList = [d] →
      Scan.goesOn [d] = false → (∀ more, Scan.sign d more = .token t (skipBlanks more)) →
      SelectorDerives (TextDerives limit) (us ++ t :: vs) s →
      parse limit (first ++ before ++ sign ++ after ++ second) = .ok s := by
    intro sign d t s hsign hd ht hs
    refine parse_eq_ok_iff.mpr ⟨us ++ t :: vs, ?_, hs⟩
    have htokens := outsideTokens_joined hd ht hend hbefore hafter hus hvs
    simpa [hsign, outsideTokens] using htokens
  refine ⟨hjoin "," ',' .comma _ rfl rfl (fun _ => rfl) (hda.append hdb), ?_⟩
  intro c steps groups hgroups
  have hhead : vs.head? ≠ some (.combinator .descendant) := fun he =>
    head?_tokensFrom_outside hvs (by rw [List.head?_append, he, Option.some_or])
  rw [SelectorDerives, hgroups] at hdb
  obtain ⟨front, last, hfront, hd⟩ := hda.append_steps hdb hhead
  refine ⟨front, last, hfront, fun k hk => ?_⟩
  cases k with
  | descendant => exact absurd rfl hk
  | child => exact hjoin ">" '>' (.combinator .child) _ rfl rfl (fun _ => rfl) (hd .child)
  | adjacentSibling =>
    exact hjoin "+" '+' (.combinator .adjacentSibling) _ rfl rfl (fun _ => rfl) (hd .adjacentSibling)
  | generalSibling =>
    exact hjoin "~" '~' (.combinator .generalSibling) _ rfl rfl (fun _ => rfl) (hd .generalSibling)

/-- The step to the elements of a name. -/
def Combinator.to (k : Combinator) (name : String) : Step :=
  ⟨k, { typeTest := some ⟨none, some name⟩ }⟩

/-- The escape at the end of the first text takes the space after it. -/
theorem parse_joined_escaped :
    let first : List Group := [⟨[Combinator.descendant.to "a"]⟩, ⟨[Combinator.descendant.to "bA"]⟩]
    let second : List Group := [⟨[Combinator.descendant.to "c", Combinator.child.to "d"]⟩]
    parse 0 "a,b\\41" = .ok ⟨first⟩ ∧ parse 0 "c>d" = .ok ⟨second⟩ ∧
      "a,b\\41".toList.getLast? ≠ some '\\' ∧ (∀ c ∈ " ".toList, isBlank c = true) ∧
      (∀ c ∈ "\t\n".toList, isBlank c = true) ∧
      parse 0 "a,b\\41 ,\t\nc>d" = .ok ⟨first ++ second⟩ ∧
      parse 0 "a,b\\41 +\t\nc>d" = .ok ⟨[⟨[Combinator.descendant.to "a"]⟩,
        ⟨[Combinator.descendant.to "bA", Combinator.adjacentSibling.to "c",
          Combinator.child.to "d"]⟩]⟩ := by
  intro first second
  have hfirst : parse 0 "a,b\\41" = .ok ⟨first⟩ := by decide +kernel
  have hsecond : parse 0 "c>d" = .ok ⟨second⟩ := by decide +kernel
  have hend : "a,b\\41".toList.getLast? ≠ some '\\' := by decide
  have hbefore : ∀ c ∈ " ".toList, isBlank c = true := by simp [isBlank]
  have hafter : ∀ c ∈ "\t\n".toList, isBlank c = true := by simp [isBlank]
  obtain ⟨hcomma, hsign⟩ := parse_joined hfirst hsecond hend hbefore hafter
  obtain ⟨front, last, hgroups, hsign⟩ := hsign _ _ _ rfl
  have hlast : [⟨[Combinator.descendant.to "a"]⟩] ++ [⟨[Combinator.descendant.to "bA"]⟩] =
      front ++ [last] := hgroups
  obtain ⟨rfl, hlast⟩ := List.append_inj' hlast rfl
  cases hlast
  exact ⟨hfirst, hsecond, hend, hbefore, hafter, hcomma, hsign .adjacentSibling (by decide)⟩

end DocumentQuery
