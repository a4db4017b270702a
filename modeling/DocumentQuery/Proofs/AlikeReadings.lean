import DocumentQuery.Proofs.ListEndings

namespace DocumentQuery

section

open TokenReader

variable {a b : Ending} {source : String} {front rest : List Lexeme} {t : Lexeme}
  {nested : String → Except SelectorError Selector}

/-- Whether a rest is shorter than the front, and the token at the end, where it comes next, is none
that a compound could go on with. -/
def Moved (b : Ending) (front rest : List Lexeme) : Prop :=
  rest.length < front.length ∧ (rest = [] → b.token.closes = true)

theorem Moved.of_suffix {after : List Lexeme} (h : Moved b rest after) (hs : rest <:+ front) :
    Moved b front after :=
  ⟨Nat.lt_of_lt_of_le h.1 hs.length_le, h.2⟩

theorem readsAlike_readTypeName (h : TwoEnds a b front)
    (hend : front = [] → b.token = .finish ∨ b.token = .bar) :
    ReadsAlike source a b never (fun _ rest => rest = [] → b.token.closes = true) front
      (readTypeName source) := by
  cases front with
  | nil =>
    refine ReadsAlike.peek_nil h ?_
    rcases hend rfl with he | he <;> rw [he] <;> exact ReadsAlike.unexpected
  | cons t rest =>
    refine ReadsAlike.peek_cons ?_
    generalize ht : t.token = u
    cases u with
    | ident name | star =>
      exact ReadsAlike.advance h (.pure (h.of_last (p := (·.closes = true)) rfl (ht ▸ rfl)))
    | _ => exact ReadsAlike.unexpected

theorem readsAlike_readQualified_bar {ns : NamespaceTest} {plain : Option TypeTest}
    (h : TwoEnds a b (t :: rest)) (ht : t.token = .bar) :
    ReadsAlike source a b never (fun _ after => Moved b (t :: rest) after) (t :: rest)
      (readQualified source ns plain) := by
  refine ReadsAlike.peek_cons ?_
  rw [if_pos ht]
  have hend := h.of_last (p := fun u => u = .finish ∨ u = .bar) (.inl rfl) (.inr ht)
  refine ReadsAlike.advance h ((readsAlike_readTypeName h.tail hend).andThen ?_)
  intro name after hs hclose
  exact .pure ⟨Nat.lt_succ_of_le hs.length_le, hclose⟩

theorem readsAlike_readQualified {ns : NamespaceTest} {plain : Option TypeTest}
    (h : TwoEnds a b front) (hend : front = [] → b.token.closes = true) :
    ReadsAlike source a b never (fun _ rest => rest = [] → b.token.closes = true) front
      (readQualified source ns plain) := by
  cases front with
  | nil =>
    refine ReadsAlike.peek_nil h ?_
    have hbar : b.token ≠ .bar := by
      intro he
      have hclose := hend rfl
      rw [he] at hclose
      cases hclose
    rw [if_neg hbar]
    exact ReadsAlike.pure hend
  | cons t rest =>
    by_cases ht : t.token = .bar
    · exact (readsAlike_readQualified_bar h ht).mono List.suffix_rfl fun _ _ _ hm => hm.2
    · refine ReadsAlike.peek_cons ?_
      rw [if_neg ht]
      exact ReadsAlike.pure nofun

theorem readsAlike_readTypeTest (h : TwoEnds a b front)
    (hend : front = [] → b.token.endsTests = true) :
    ReadsAlike source a b never
      (fun test rest => test = none ∧ rest = front ∨ Moved b front rest) front
      (readTypeTest source) := by
  cases front with
  | nil =>
    refine ReadsAlike.peek_nil h ?_
    have hend := hend rfl
    generalize b.token = u at hend
    cases u <;> first | exact ReadsAlike.pure (.inl ⟨rfl, rfl⟩) | cases hend
  | cons t rest =>
    refine ReadsAlike.peek_cons ?_
    generalize ht : t.token = u
    have hmoved (after : List Lexeme) (hs : after <:+ rest)
        (hclose : after = [] → b.token.closes = true) : Moved b (t :: rest) after :=
      ⟨Nat.lt_succ_of_le hs.length_le, hclose⟩
    cases u with
    | ident name | star =>
      have hclose := h.of_last (p := (·.closes = true)) rfl (ht ▸ rfl)
      refine ReadsAlike.advance h ((readsAlike_readQualified h.tail hclose).mono List.suffix_rfl ?_)
      exact fun _ after hs hx => .inr (hmoved after hs hx)
    | bar =>
      refine (readsAlike_readQualified_bar h ht).mono List.suffix_rfl ?_
      exact fun _ _ _ hm => .inr hm
    | _ => exact ReadsAlike.pure (.inl ⟨rfl, rfl⟩)

theorem readsAlike_readAttributeNamespace (h : TwoEnds a b front)
    (hend : front = [] → b.token = .finish ∨ b.token = .openBracket) :
    ReadsAlike source a b never (fun _ rest => rest = [] → ∀ name, b.token ≠ .ident name) front
      (readAttributeNamespace source) := by
  cases front with
  | nil =>
    refine ReadsAlike.peek_nil h ?_
    rcases hend rfl with he | he <;> rw [he] <;> exact ReadsAlike.pure (by simp)
  | cons t rest =>
    refine ReadsAlike.peek_cons ?_
    generalize ht : t.token = u
    have hbar {t : Lexeme} {rest : List Lexeme} (h : TwoEnds a b (t :: rest))
        (ht : t.token = .bar) : rest = [] → ∀ name, b.token ≠ .ident name :=
      h.of_last (p := fun u => ∀ name, u ≠ .ident name) nofun (ht ▸ nofun)
    cases u with
    | ident name =>
      refine ReadsAlike.get ?_
      rw [h.fits_first.following_place, h.fits.following_place]
      by_cases hnext : Cursor.token rest = .bar
      · rw [if_pos hnext]
        obtain _ | ⟨u, rest⟩ := rest
        · cases hnext
        · exact ReadsAlike.advance h (.advance h.tail (.pure (hbar h.tail hnext)))
      · rw [if_neg hnext]
        exact ReadsAlike.pure nofun
    | star =>
      refine ReadsAlike.advance h ?_
      cases rest with
      | nil =>
        refine ReadsAlike.peek_nil h.tail ?_
        have hend := h.of_last (p := (· ≠ .bar)) nofun (ht ▸ nofun) rfl
        rw [if_neg hend]
        exact ReadsAlike.unexpected
      | cons u rest =>
        refine ReadsAlike.peek_cons ?_
        split
        next hu => exact ReadsAlike.advance h.tail (.pure (hbar h.tail hu))
        next => exact ReadsAlike.unexpected
    | bar => exact ReadsAlike.advance h (.pure (hbar h ht))
    | _ => exact ReadsAlike.pure nofun

theorem readsAlike_readComparison (h : TwoEnds a b front)
    (hend : front = [] → b.token = .finish ∨ ∃ name, b.token = .ident name) :
    ReadsAlike source a b never (fun _ rest => rest = [] → b.token ≠ .closeBracket) front
      (readComparison source) := by
  cases front with
  | nil =>
    refine ReadsAlike.peek_nil h ?_
    rcases hend rfl with he | ⟨name, he⟩ <;> rw [he] <;> exact ReadsAlike.pure (by simp)
  | cons t rest =>
    refine ReadsAlike.peek_cons ?_
    generalize ht : t.token = u
    cases u with
    | operator op =>
      refine ReadsAlike.advance h ?_
      cases rest with
      | nil =>
        refine ReadsAlike.peek_nil h.tail ?_
        have hend := h.of_last (p := fun u => u = .finish ∨ u = .operator op) (.inl rfl)
          (.inr ht) rfl
        rcases hend with he | he <;> rw [he] <;> exact ReadsAlike.unexpected
      | cons u rest =>
        refine ReadsAlike.peek_cons ?_
        generalize hu : u.token = v
        cases v with
        | quoted value | ident value =>
          exact ReadsAlike.advance h.tail
            (.pure (h.tail.of_last (p := (· ≠ .closeBracket)) nofun (hu ▸ nofun)))
        | _ => exact ReadsAlike.unexpected
    | _ => exact ReadsAlike.pure nofun

theorem readsAlike_readAttributeTest (h : TwoEnds a b (t :: rest)) (ht : t.token = .openBracket) :
    ReadsAlike source a b never (fun _ after => Moved b rest after) (t :: rest)
      (readAttributeTest source) := by
  have hend := h.of_last (p := fun u => u = .finish ∨ u = .openBracket) (.inl rfl) (.inr ht)
  refine ReadsAlike.advance h ((readsAlike_readAttributeNamespace h.tail hend).andThen ?_)
  intro ns named hnamed hident
  have hn := h.tail.suffix hnamed
  cases named with
  | nil =>
    refine ReadsAlike.peek_nil hn ?_
    have hident := hident rfl
    generalize b.token = u at hident
    cases u <;> first | exact ReadsAlike.unexpected | exact absurd rfl (hident _)
  | cons u compared =>
    refine ReadsAlike.peek_cons ?_
    generalize hu : u.token = v
    cases v with
    | ident name =>
      have hend := hn.of_last (p := fun u => u = .finish ∨ ∃ name, u = .ident name) (.inl rfl)
        (.inr ⟨name, hu⟩)
      refine ReadsAlike.advance hn ((readsAlike_readComparison hn.tail hend).andThen ?_)
      intro comparison closed hclosed hclose
      have hc := hn.tail.suffix hclosed
      cases closed with
      | nil =>
        refine ReadsAlike.peek_nil hc ?_
        rw [if_neg (hclose rfl)]
        exact ReadsAlike.unexpected
      | cons v after =>
        refine ReadsAlike.peek_cons ?_
        split
        next hv =>
          have hlen := (hclosed.trans (List.suffix_cons u compared)).length_le
          have hlen' := hnamed.length_le
          rw [List.length_cons] at hlen
          refine ReadsAlike.advance hc (.pure ⟨by omega, ?_⟩)
          exact hc.of_last (p := (·.closes = true)) rfl (hv ▸ rfl)
        next => exact ReadsAlike.unexpected
    | _ => exact ReadsAlike.unexpected

theorem readsAlike_readParentheses (h : TwoEnds a b front)
    (hend : front = [] → b.token = .finish ∨ ∃ name, b.token = .pseudoClass name) :
    ReadsAlike source a b never (fun _ rest => rest = front ∨ Moved b front rest) front
      readParentheses := by
  cases front with
  | nil =>
    refine ReadsAlike.peek_nil h ?_
    rcases hend rfl with he | ⟨name, he⟩ <;> rw [he] <;> exact ReadsAlike.pure (.inl rfl)
  | cons t rest =>
    refine ReadsAlike.peek_cons ?_
    generalize ht : t.token = u
    cases u with
    | arguments raw =>
      refine ReadsAlike.get ?_
      rw [Ending.position_place_cons, Ending.position_place_cons]
      have hclose := h.of_last (p := (·.closes = true)) rfl (ht ▸ rfl)
      exact ReadsAlike.advance h (.pure (.inr ⟨Nat.lt_succ_self _, hclose⟩))
    | _ => exact ReadsAlike.pure (.inl rfl)

/-- Whether a rest may be left over by a test that was found: there is less to read than before,
or nothing, and the token at the end is the test, which will be found again. -/
def Consumed (b : Ending) (front rest : List Lexeme) : Prop :=
  rest.length < front.length ∧
    ((b.place rest).length < (b.place front).length ∧ (rest = [] → b.token.closes = true) ∨
      rest = [] ∧ b.token.repeats = true ∧ b.place front = b.place [])

theorem Moved.consumed (h : Moved b rest front) : Consumed b (t :: rest) front :=
  have hlt := Nat.succ_lt_succ h.1
  ⟨Nat.lt_succ_of_lt h.1, .inl ⟨b.length_place_lt hlt, h.2⟩⟩

theorem TwoEnds.consumed (h : TwoEnds a b (t :: rest)) (ht : t.token.repeats = true) :
    Consumed b (t :: rest) rest := by
  refine ⟨Nat.lt_succ_self _, ?_⟩
  cases rest with
  | cons u rest => exact .inl ⟨by cases b <;> simp [Ending.place], nofun⟩
  | nil =>
    have hfits := h.fits
    cases b with
    | marked mark beyond =>
      have hmark : (Ending.marked mark beyond).token = .finish := hfits
      exact .inl ⟨by simp [Ending.place], fun _ => hmark ▸ rfl⟩
    | kept last =>
      rw [hfits.last_eq]
      exact .inr ⟨rfl, ht, rfl⟩

theorem readSimples_eq_none {c : Compound} {ts after : Cursor}
    (h : readSimple nested source c ts = .ok none after) :
    readSimples nested source c ts = .ok c after := by
  rw [readSimples, h]

theorem readSimples_eq_some {c more : Compound} {ts after : Cursor}
    (h : readSimple nested source c ts = .ok (some more) after) :
    readSimples nested source c ts =
      if after.length < ts.length then readSimples nested source more after
      else .error .endless after := by
  rw [readSimples, h]

/-- Reads items between separators: after each item the token there says how to go on, if at all,
once the token is passed. -/
def chained (item : TokenReader α) (last : α → β) (goOn : Token → Option (α → TokenReader β))
    (ts : Cursor) : EStateM.Result SelectorError Cursor β :=
  match item ts with
  | .error e rest => .error e rest
  | .ok x rest =>
    match goOn rest.token with
    | none => .ok (last x) rest
    | some more =>
      if rest.advance.length < ts.length then more x rest.advance else .error .endless rest

/-- Items between separators are read alike if each item is, and what follows a separator. -/
theorem readsAlike_chain {item : TokenReader α} {last : α → β}
    {goOn : Token → Option (α → TokenReader β)} {chain : TokenReader β}
    (hchain : ∀ ts, chain ts = chained item last goOn ts)
    (hcloses : ∀ t : Token, t.closes = true → goOn t = none) (h : TwoEnds a b front)
    (hitem : ReadsAlike source a b (ReadAgain b) (fun _ rest => Moved b front rest) front item)
    (hmore : ∀ t rest more x, t :: rest <:+ front → rest.length < front.length →
      goOn t.token = some more →
      ReadsAlike source a b (ReadAgain b) (fun _ after => Moved b rest after) rest (more x)) :
    ReadsAlike source a b (ReadAgain b) (fun _ rest => Moved b front rest) front chain := by
  have hfinish : goOn (a.place []).token = none := by
    rw [Ending.token_place_nil, h.token_eq]
    exact hcloses .finish rfl
  unfold ReadsAlike at hitem ⊢
  rw [hchain, hchain, chained, chained]
  generalize item (a.place front) = r at hitem
  generalize item (b.place front) = r' at hitem
  cases hitem with
  | error hs he => exact .error hs he
  | missed hx =>
    simp only [hfinish]
    exact .missed hx
  | @ok x rest hs hm =>
    cases rest with
    | nil =>
      have hclosed : goOn (b.place []).token = none := by
        rw [Ending.token_place_nil]
        exact hcloses b.token (hm.2 rfl)
      simp only [hfinish, hclosed]
      exact .ok hs hm
    | cons t rest =>
      simp only [Ending.token_place_cons]
      cases hnext : goOn t.token with
      | none => exact .ok hs hm
      | some more =>
        have hrest := h.suffix hs
        have hlen : rest.length + 1 < front.length := hm.1
        simp only [hrest.fits_first.advance_place, hrest.fits.advance_place,
          if_pos (a.length_place_lt hlen), if_pos (b.length_place_lt hlen)]
        have hs' := (List.suffix_cons t rest).trans hs
        have hlater := hmore t rest more x hs (Nat.lt_of_succ_lt hlen) hnext
        exact hlater.mono hs' fun _ _ _ hm => hm.of_suffix hs'

/-- How the steps of a group go on after the compound of a step. -/
def goOnSteps (nested : String → Except SelectorError Selector) (source : String) (k : Combinator) :
    Token → Option (Compound → TokenReader (List Step))
  | .combinator next => some fun c => do return ⟨k, c⟩ :: (← readSteps nested source next)
  | _ => none

theorem readSteps_eq_chained (k : Combinator) (ts : Cursor) :
    readSteps nested source k ts =
      chained (readCompound nested source) (fun c => [⟨k, c⟩]) (goOnSteps nested source k) ts := by
  rw [readSteps, chained]
  cases readCompound nested source ts with
  | error e rest => rfl
  | ok c rest =>
    simp only
    cases rest.token with
    | combinator next =>
      simp only [goOnSteps]
      change _ = if _ then EStateM.bind _ _ _ else _
      unfold EStateM.bind
      cases readSteps nested source next rest.advance <;> rfl
    | _ => rfl

/-- How the groups of a selector go on after a group. -/
def goOnGroups (nested : String → Except SelectorError Selector) (source : String) :
    Token → Option (Group → TokenReader (List Group))
  | .comma => some fun g => do return g :: (← readGroups nested source)
  | _ => none

theorem readGroups_eq_chained (ts : Cursor) :
    readGroups nested source ts =
      chained (readGroup nested source) (fun g => [g]) (goOnGroups nested source) ts := by
  rw [readGroups, chained]
  cases readGroup nested source ts with
  | error e rest => rfl
  | ok g rest =>
    simp only
    cases rest.token with
    | comma =>
      simp only [goOnGroups]
      change _ = if _ then EStateM.bind _ _ _ else _
      unfold EStateM.bind
      cases readGroups nested source rest.advance <;> rfl
    | _ => rfl

/-- The error of reading a selector up to a token at the end that is no end mark. -/
def endError (source : String) (b : Ending) : SelectorError :=
  if b.token.repeats then .endless
  else .malformed source b.lexeme.position (.wrongToken .endOrComma b.token)

-- No nested selector is read without an end.
variable (hn : ∀ text, nested text ≠ .error .endless)

include hn

theorem argumentOf_ne_endless (name : String) (kind : ArgumentKind)
    (written : Option (String × Nat)) :
    argumentOf nested source name kind written ≠ .error .endless := by
  obtain _ | ⟨raw, position⟩ := written
  · cases kind <;> exact nofun
  · cases kind with
    | none | ignored => exact nofun
    | text =>
      rw [argumentOf_text]
      split <;> exact nofun
    | nth =>
      rw [argumentOf_nth]
      split <;> exact nofun
    | index =>
      rw [argumentOf_index]
      split
      next => exact nofun
      next => split <;> exact nofun
    | selector =>
      rw [argumentOf_selector]
      split
      next => exact nofun
      next =>
        cases hs : nested (trimmed raw) with
        | ok s => exact nofun
        | error e =>
          intro he
          cases he
          exact hn _ hs

theorem readsAlike_readPseudoClass (name : String) (h : TwoEnds a b front)
    (hend : front = [] → b.token = .finish ∨ ∃ name, b.token = .pseudoClass name) :
    ReadsAlike source a b never (fun _ rest => rest = front ∨ Moved b front rest) front
      (readPseudoClass nested source name) := by
  unfold readPseudoClass
  cases PseudoClassName.ofName? name with
  | none => exact .throw nofun
  | some pseudo =>
    refine (readsAlike_readParentheses h hend).andThen fun written rest hs hrest => ?_
    have hne := @argumentOf_ne_endless source nested hn name pseudo.argumentKind written
    cases ha : argumentOf nested source name pseudo.argumentKind written with
    | ok argument => exact .pure hrest
    | error e =>
      rw [ha] at hne
      exact .throw fun he => hne (congrArg _ he)

theorem readsAlike_readSimple (c : Compound) (h : TwoEnds a b front)
    (hend : front = [] → b.token.beginsTest = false) :
    ReadsAlike source a b never
      (fun found rest => match found with
        | none => rest = front
        | some more => more.isEmpty = false ∧ Consumed b front rest) front
      (readSimple nested source c) := by
  cases front with
  | nil =>
    refine ReadsAlike.peek_nil h ?_
    have hend := hend rfl
    generalize b.token = u at hend
    cases u <;> first | exact ReadsAlike.pure rfl | cases hend
  | cons t rest =>
    refine ReadsAlike.peek_cons ?_
    generalize ht : t.token = u
    cases u with
    | idTest id =>
      have hadded := c.isEmpty_add (.id id)
      simp only
      split
      next => exact .fail
      next => exact .advance h (.pure ⟨hadded, h.consumed (ht ▸ rfl)⟩)
    | classTest name =>
      have hadded := c.isEmpty_add (.named name)
      exact ReadsAlike.advance h (.pure ⟨hadded, h.consumed (ht ▸ rfl)⟩)
    | openBracket =>
      refine ReadsAlike.andThen (readsAlike_readAttributeTest h ht) fun test after hs hm => ?_
      exact .pure ⟨c.isEmpty_add (.bracketed test), hm.consumed⟩
    | pseudoClass name =>
      have hend := h.of_last (p := fun u => u = .finish ∨ ∃ name, u = .pseudoClass name) (.inl rfl)
        (.inr ⟨name, ht⟩)
      refine ReadsAlike.advance h
        ((readsAlike_readPseudoClass hn name h.tail hend).andThen fun test after hs hm => ?_)
      refine .pure ⟨c.isEmpty_add (.pseudoClass test), ?_⟩
      rcases hm with rfl | hm
      · exact h.consumed (ht ▸ rfl)
      · exact hm.consumed
    | pseudoElement name =>
      refine ReadsAlike.advance h ?_
      cases PseudoElement.ofName? name with
      | some test =>
        exact .pure ⟨c.isEmpty_add (.pseudoElement test), h.consumed (ht ▸ rfl)⟩
      | none => exact .throw nofun
    | _ => exact ReadsAlike.pure rfl

theorem readsAlike_readSimples {front : List Lexeme} (c : Compound) (h : TwoEnds a b front)
    (hend : front = [] → b.token.beginsTest = false) :
    ReadsAlike source a b (fun d e => d.isEmpty = false ∧ ReadAgain b d e)
      (fun d rest => d = c ∧ rest = front ∨ Moved b front rest) front
      (readSimples nested source c) := by
  have hsimple := @readsAlike_readSimple a b source front nested hn c h hend
  unfold ReadsAlike at hsimple ⊢
  generalize hr : readSimple nested source c (a.place front) = r at hsimple
  generalize hr' : readSimple nested source c (b.place front) = r' at hsimple
  cases hsimple with
  | error hs he =>
    rw [readSimples_eq_error hr, readSimples_eq_error hr']
    exact .error hs he
  | missed hx => exact hx.elim
  | @ok found rest hs hx =>
    cases found with
    | none =>
      rw [readSimples_eq_none hr, readSimples_eq_none hr']
      exact .ok hs (.inl ⟨rfl, hx⟩)
    | some more =>
      obtain ⟨hmore, hlt, hx⟩ := hx
      have hla : (a.place rest).length < (a.place front).length := by
        obtain ⟨mark, beyond, rfl, -⟩ := h.marked
        simpa [Ending.place] using hlt
      rw [readSimples_eq_some hr, if_pos hla, readSimples_eq_some hr']
      rcases hx with ⟨hlb, hclose⟩ | ⟨rfl, hrepeats, hsame⟩
      · rw [if_pos hlb]
        have hrest := readsAlike_readSimples more (h.suffix hs) fun he =>
          Token.beginsTest_of_closes (hclose he)
        refine hrest.mono hs fun d after hs' hd => .inr ?_
        rcases hd with ⟨-, rfl⟩ | hm
        · exact ⟨hlt, hclose⟩
        · exact hm.of_suffix hs
      · -- the second reader is where it was before the test
        rw [hsame, if_neg (Nat.lt_irrefl _)]
        have hnone : readSimple nested source more (a.place []) = .ok none (a.place []) := by
          apply readSimple_none
          rw [Ending.token_place_nil, (h.suffix hs).token_eq]
          rfl
        rw [readSimples_eq_none hnone]
        exact .missed ⟨hmore, hrepeats, rfl⟩
termination_by front.length

theorem readsAlike_readCompound (h : TwoEnds a b front)
    (hend : front = [] → b.token.endsTests = true) :
    ReadsAlike source a b (ReadAgain b) (fun _ rest => Moved b front rest) front
      (readCompound nested source) := by
  refine (readsAlike_readTypeTest h hend).andThen fun typeTest rest hs htype => ?_
  have hbegins : rest = [] → b.token.beginsTest = false := by
    intro hr
    rcases htype with ⟨-, hsame⟩ | hm
    · exact Token.beginsTest_of_endsTests (hend (hsame ▸ hr))
    · exact Token.beginsTest_of_closes (hm.2 hr)
  refine (readsAlike_readSimples hn _ (h.suffix hs) hbegins).bind ?_ ?_
  · intro c after hafter hc
    split
    next => exact .unexpected
    next hne =>
      refine .pure ?_
      rcases hc with ⟨rfl, rfl⟩ | hm
      · rcases htype with ⟨rfl, -⟩ | hm
        · exact absurd rfl hne
        · exact hm
      · exact hm.of_suffix hs
  · rintro c e ⟨hne, hrepeats, he⟩
    refine ⟨c, ?_, hrepeats, he⟩
    rw [hne]
    rfl

theorem readsAlike_readSteps {front : List Lexeme} (k : Combinator) (h : TwoEnds a b front)
    (hend : front = [] → b.token.endsTests = true) :
    ReadsAlike source a b (ReadAgain b) (fun _ rest => Moved b front rest) front
      (readSteps nested source k) := by
  have hcloses (t : Token) (ht : t.closes = true) : goOnSteps nested source k t = none := by
    cases t <;> first | rfl | cases ht
  refine readsAlike_chain (readSteps_eq_chained k) hcloses h (readsAlike_readCompound hn h hend) ?_
  intro t rest more c hs hlt hmore
  generalize ht : t.token = u at hmore
  cases u with
  | combinator next =>
    cases hmore
    have hrest := h.suffix hs
    have hends := hrest.of_last (p := (·.endsTests = true)) rfl (ht ▸ rfl)
    exact (readsAlike_readSteps next hrest.tail hends).bind (fun _ _ _ hm => .pure hm)
      fun _ _ hx => ⟨_, rfl, hx⟩
  | _ => cases hmore
termination_by front.length

theorem readsAlike_readGroup (h : TwoEnds a b front)
    (hend : front = [] → b.token = .finish ∨ b.token = .comma) :
    ReadsAlike source a b (ReadAgain b) (fun _ rest => Moved b front rest) front
      (readGroup nested source) := by
  have hgroup {front : List Lexeme} (k : Combinator) (h : TwoEnds a b front)
      (hend : front = [] → b.token.endsTests = true) :
      ReadsAlike source a b (ReadAgain b) (fun _ rest => Moved b front rest) front
        (do return Group.mk (← readSteps nested source k)) :=
    (readsAlike_readSteps hn k h hend).bind (fun _ _ _ hm => .pure hm) fun _ _ hx => ⟨_, rfl, hx⟩
  cases front with
  | nil =>
    refine ReadsAlike.peek_nil h ?_
    have hends : b.token.endsTests = true := by
      rcases hend rfl with he | he <;> rw [he] <;> rfl
    have hdescend := hgroup .descendant h fun _ => hends
    rcases hend rfl with he | he <;> rw [he] <;> exact hdescend
  | cons t rest =>
    refine ReadsAlike.peek_cons ?_
    generalize ht : t.token = u
    cases u with
    | combinator first =>
      have hends := h.of_last (p := (·.endsTests = true)) rfl (ht ▸ rfl)
      refine ReadsAlike.advance h ((hgroup first h.tail hends).mono List.suffix_rfl ?_)
      exact fun _ _ _ hm => hm.of_suffix (List.suffix_cons t rest)
    | _ => exact hgroup .descendant h nofun

theorem readsAlike_readGroups {front : List Lexeme} (h : TwoEnds a b front)
    (hend : front = [] → b.token = .finish ∨ b.token = .comma) :
    ReadsAlike source a b (ReadAgain b) (fun _ rest => Moved b front rest) front
      (readGroups nested source) := by
  have hcloses (t : Token) (ht : t.closes = true) : goOnGroups nested source t = none := by
    cases t <;> first | rfl | cases ht
  refine readsAlike_chain readGroups_eq_chained hcloses h (readsAlike_readGroup hn h hend) ?_
  intro t rest more g hs hlt hmore
  generalize ht : t.token = u at hmore
  cases u with
  | comma =>
    cases hmore
    have hrest := h.suffix hs
    have hends := hrest.of_last (p := fun u => u = .finish ∨ u = .comma) (.inl rfl) (.inr ht)
    exact (readsAlike_readGroups hrest.tail hends).bind (fun _ _ _ hm => .pure hm)
      fun _ _ hx => ⟨_, rfl, hx⟩
  | _ => cases hmore
termination_by front.length

/-- Two lists with the same front are read alike up to the end of the front; what is read up to a
token there that is no end mark is an error. -/
theorem readsAlike_readSelector (h : TwoEnds a b front)
    (hend : front = [] → b.token = .finish ∨ b.token = .comma) :
    ReadsAlike source a b (fun _ e => b.token ≠ .finish ∧ e = endError source b)
      (fun _ rest => Cursor.token rest = .finish ∧ (rest = [] → b.token = .finish)) front
      (readSelector nested source) := by
  refine (readsAlike_readGroups hn h hend).bind ?_ ?_
  · intro groups rest hs hm
    have hrest := h.suffix hs
    cases rest with
    | nil =>
      refine ReadsAlike.peek_nil hrest ?_
      rw [if_pos rfl]
      by_cases hb : b.token = .finish
      · rw [if_pos hb]
        exact ReadsAlike.pure ⟨rfl, fun _ => hb⟩
      · have hclose := hm.2 rfl
        have hrepeats : b.token.repeats = false := by
          generalize b.token = u at hclose
          cases u <;> first | rfl | cases hclose
        rw [if_neg hb]
        refine .missed ⟨hb, ?_⟩
        simp [endError, hrepeats]
    | cons t rest =>
      refine ReadsAlike.peek_cons ?_
      split
      next ht => exact .pure ⟨ht, nofun⟩
      next => exact .unexpected
  · rintro groups e ⟨hrepeats, rfl⟩
    have hb : b.token ≠ .finish := by
      intro hb
      rw [hb] at hrepeats
      cases hrepeats
    refine ⟨⟨groups⟩, ?_, hb, by simp [endError, hrepeats]⟩
    rw [bind_peek, Ending.token_place_nil, h.token_eq]
    rfl

end

end DocumentQuery
