import DocumentQuery.Proofs.AlikeReadings
import DocumentQuery.Proofs.TokenPlaces

namespace DocumentQuery

namespace TokenReader

def answer (q : TokenReader α) (ts : Cursor) : Except SelectorError α :=
  match q ts with
  | .ok x _ => .ok x
  | .error e _ => .error e

def placeAfter (q : TokenReader α) (ts : Cursor) : Cursor :=
  match q ts with
  | .ok _ rest | .error _ rest => rest

end TokenReader

section

variable {nested : String → Except SelectorError Selector} {source text : String}
  {front rest : List Lexeme} {mark : Lexeme}

/-- What stands beyond an end mark counts neither for the answer of a reading nor for the place
where it ends. -/
theorem readSelector_marked (source : String) (hn : ∀ text, nested text ≠ .error .endless)
    (hmark : mark.token = .finish) (rest beyond : List Lexeme)
    (hrest : ∀ t ∈ rest, t.token ≠ .finish) :
    ∃ outcome : Except SelectorError Selector, outcome ≠ .error .endless ∧
      (readSelector nested source).answer (rest ++ mark :: beyond) = outcome ∧
      (readSelector nested source).answer (rest ++ [mark]) = outcome ∧
      ∃ after, after <:+ rest ∧ (∀ s, outcome = .ok s → after = []) ∧
        (readSelector nested source).placeAfter (rest ++ mark :: beyond) = after ++ mark :: beyond ∧
        (readSelector nested source).placeAfter (rest ++ [mark]) = after ++ [mark] := by
  have hends : TwoEnds (.marked mark beyond) (.marked mark []) rest :=
    ⟨⟨mark, beyond, rfl, hmark⟩, hmark⟩
  have halike := @readsAlike_readSelector _ _ source rest nested hn hends fun _ => .inl hmark
  unfold TokenReader.ReadsAlike at halike
  generalize hr : readSelector nested source (Ending.place (.marked mark beyond) rest) = r at halike
  generalize hr' : readSelector nested source (Ending.place (.marked mark []) rest) = r' at halike
  change readSelector nested source (rest ++ mark :: beyond) = r at hr
  change readSelector nested source (rest ++ [mark]) = r' at hr'
  simp only [TokenReader.answer, TokenReader.placeAfter, hr, hr']
  cases halike with
  | @ok s after hs hx =>
    refine ⟨.ok s, nofun, rfl, rfl, after, hs, fun _ _ => ?_, rfl, rfl⟩
    cases after with
    | nil => rfl
    | cons t after => exact absurd hx.1 (hrest t (hs.subset List.mem_cons_self))
  | @error e e' after hs he =>
    have hsame : e ≠ .endless ∧ e' = e := by
      cases he with
      | same h => exact ⟨h, rfl⟩
      | atEnd due => exact ⟨nofun, rfl⟩
    refine ⟨.error e, fun h => hsame.1 (Except.error.inj h), rfl, ?_, after, hs, nofun, rfl, rfl⟩
    rw [hsame.2]
  | missed hx => exact absurd hmark hx.1

/-- At an end mark no selector is found, and the reader stays there. -/
theorem readSelector_finish {ts : Cursor} (ht : ts.token = .finish) :
    readSelector nested source ts =
      .error (.malformed source ts.position (.wrongToken .selector .finish)) ts := by
  have htype : readTypeTest source ts = .ok none ts := by
    unfold readTypeTest
    rw [TokenReader.bind_peek, ht]
    rfl
  have hsimples (c : Compound) : readSimples nested source c ts = .ok c ts :=
    readSimples_eq_none (readSimple_none (by rw [ht]; rfl))
  have hcompound : readCompound nested source ts =
      .error (.malformed source ts.position (.wrongToken .selector .finish)) ts := by
    unfold readCompound
    rw [TokenReader.bind_of_eq_ok htype, TokenReader.bind_of_eq_ok (hsimples _), ← ht]
    rfl
  have hgroup : readGroup nested source ts =
      .error (.malformed source ts.position (.wrongToken .selector .finish)) ts := by
    unfold readGroup
    rw [TokenReader.bind_peek, ht]
    exact TokenReader.bind_eq_error (readSteps_eq_error hcompound)
  exact TokenReader.bind_eq_error (readGroups_eq_error hgroup)

theorem answer_finish {limit : Nat} {ts : Cursor} (ht : ts.token = .finish) :
    (selectorReader limit source).answer ts =
      .error (.malformed source ts.position (.wrongToken .selector .finish)) := by
  rw [TokenReader.answer, selectorReader, readSelector_finish ht]

theorem readText_of_tokenize {ts : Cursor} (h : tokenize text = .ok ts) :
    readText nested text = (readSelector nested text).answer ts := by
  unfold readText TokenReader.answer
  rw [h]
  simp only [bind, Except.bind]
  cases readSelector nested text ts <;> rfl

theorem readText_ne_endless (hn : ∀ text, nested text ≠ .error .endless) :
    readText nested text ≠ .error .endless := by
  cases ht : tokenize text with
  | error e =>
    obtain ⟨position, fault, -, rfl⟩ := tokenize_eq_error ht
    unfold readText
    rw [ht]
    exact nofun
  | ok ts =>
    obtain ⟨us, rfl, hus⟩ := (lexes_of_tokenize ht).exists_append_finish
    have hmark : (Lexeme.mk .finish text.toList.length).token = .finish := rfl
    obtain ⟨outcome, hne, -, hanswer, -⟩ := readSelector_marked text hn hmark us [] hus
    rw [readText_of_tokenize ht, hanswer]
    exact hne

theorem readNested_ne_endless (limit levels : Nat) (text : String) :
    readNested limit levels text ≠ .error .endless := by
  induction levels generalizing text with
  | zero => exact nofun
  | succ levels ih => exact readText_ne_endless ih

/-- Where a reader of selectors stands in a token list after so many calls, one after another. -/
def readingPlace (limit : Nat) (source : String) (ts : Cursor) : Nat → Cursor
  | 0 => ts
  | n + 1 => (selectorReader limit source).placeAfter (readingPlace limit source ts n)

/-- What the reader answers to the call after so many others. -/
def reading (limit : Nat) (source : String) (ts : Cursor) (n : Nat) :
    Except SelectorError Selector :=
  (selectorReader limit source).answer (readingPlace limit source ts n)

/-- A call ends and leaves the reader in front of the same part of the list, with or without the
tokens beyond the mark. -/
theorem reading_step (limit : Nat) (source : String) (beyond : List Lexeme) {n : Nat}
    (hrest : ∀ t ∈ rest, t.token ≠ .finish) (hmark : mark.token = .finish)
    (hplace : readingPlace limit source (front ++ mark :: beyond) n = rest ++ mark :: beyond)
    (hplace' : readingPlace limit source (front ++ [mark]) n = rest ++ [mark]) :
    reading limit source (front ++ mark :: beyond) n ≠ .error .endless ∧
    reading limit source (front ++ mark :: beyond) n = reading limit source (front ++ [mark]) n ∧
    ∃ after, after <:+ rest ∧
      (∀ s, reading limit source (front ++ mark :: beyond) n = .ok s → after = []) ∧
      readingPlace limit source (front ++ mark :: beyond) (n + 1) = after ++ mark :: beyond ∧
      readingPlace limit source (front ++ [mark]) (n + 1) = after ++ [mark] := by
  obtain ⟨outcome, hne, hfull, hcut, after, hafter, hok, hnext, hnext'⟩ :=
    readSelector_marked source (readNested_ne_endless limit limit) hmark rest beyond
      hrest
  have hread : reading limit source (front ++ mark :: beyond) n = outcome := by
    rw [reading, hplace]
    exact hfull
  have hread' : reading limit source (front ++ [mark]) n = outcome := by
    rw [reading, hplace']
    exact hcut
  refine ⟨hread ▸ hne, hread.trans hread'.symm, after, hafter, fun s hs => ?_, ?_, ?_⟩
  · exact hok s (hread.symm.trans hs)
  · rw [readingPlace, hplace]
    exact hnext
  · rw [readingPlace, hplace']
    exact hnext'

theorem exists_readingPlace (limit : Nat) (source : String) (beyond : List Lexeme)
    (hfront : ∀ t ∈ front, t.token ≠ .finish) (hmark : mark.token = .finish) (n : Nat) :
    ∃ rest, rest <:+ front ∧
      readingPlace limit source (front ++ mark :: beyond) n = rest ++ mark :: beyond ∧
      readingPlace limit source (front ++ [mark]) n = rest ++ [mark] := by
  induction n with
  | zero => exact ⟨front, List.suffix_rfl, rfl, rfl⟩
  | succ n ih =>
    obtain ⟨rest, hs, hplace, hplace'⟩ := ih
    have hrest : ∀ t ∈ rest, t.token ≠ .finish := fun t ht => hfront t (hs.subset ht)
    obtain ⟨-, -, after, hafter, -, hnext, hnext'⟩ :=
      reading_step limit source beyond hrest hmark hplace hplace'
    exact ⟨after, hafter.trans hs, hnext, hnext'⟩

/-- A reader at an end mark stays there. -/
theorem readingPlace_of_finish {limit : Nat} {source : String} {ts : Cursor} {n m : Nat}
    (h : (readingPlace limit source ts n).token = .finish) (hm : n ≤ m) :
    readingPlace limit source ts m = readingPlace limit source ts n := by
  induction m, hm using Nat.le_induction with
  | base => rfl
  | succ m hm ih =>
    rw [readingPlace, ih, TokenReader.placeAfter, selectorReader, readSelector_finish h]

theorem drop_append_of_suffix (h : rest <:+ front) (more : List Lexeme) :
    (front ++ more).drop (front.length - rest.length) = rest ++ more := by
  obtain ⟨pre, rfl⟩ := h
  simp

/-- Calls of one reader of selectors move it on up to the first end mark and never beyond. What
stands there counts for no answer, every call has one, and after a selector has been found none
is found again. -/
theorem readings_stop_at_mark (limit : Nat) (source : String) (beyond : List Lexeme)
    (hfront : ∀ t ∈ front, t.token ≠ .finish) (hmark : mark.token = .finish) :
    (∀ n, reading limit source (front ++ mark :: beyond) n ≠ .error .endless ∧
      reading limit source (front ++ mark :: beyond) n =
        reading limit source (front ++ [mark]) n) ∧
    (∃ place : Nat → Nat, ∀ n, place n ≤ place (n + 1) ∧ place n ≤ front.length ∧
      readingPlace limit source (front ++ mark :: beyond) n =
        (front ++ mark :: beyond).drop (place n) ∧
      readingPlace limit source (front ++ [mark]) n = (front ++ [mark]).drop (place n)) ∧
    ∀ n m s, reading limit source (front ++ mark :: beyond) n = .ok s → n < m →
      ∃ fault, reading limit source (front ++ mark :: beyond) m =
          .error (.malformed source mark.position fault) ∧
        fault.message = "expected a selector, found end of input" := by
  choose rest hsuffix hplace hplace' using exists_readingPlace limit source beyond hfront hmark
  have hstep (n : Nat) := reading_step limit source beyond
    (fun t ht => hfront t ((hsuffix n).subset ht)) hmark (hplace n) (hplace' n)
  refine ⟨fun n => ?_, ⟨fun n => front.length - (rest n).length, fun n => ⟨?_, ?_, ?_, ?_⟩⟩, ?_⟩
  · obtain ⟨hne, hsame, -⟩ := hstep n
    exact ⟨hne, hsame⟩
  · obtain ⟨-, -, after, hafter, -, hnext, -⟩ := hstep n
    have hrest : rest (n + 1) = after :=
      List.append_cancel_right ((hplace (n + 1)).symm.trans hnext)
    have hle := hafter.length_le
    rw [← hrest] at hle
    exact Nat.sub_le_sub_left hle front.length
  · exact Nat.sub_le front.length (rest n).length
  · rw [hplace, drop_append_of_suffix (hsuffix n)]
  · rw [hplace', drop_append_of_suffix (hsuffix n)]
  · intro n m s hs hm
    obtain ⟨-, -, after, -, hend, hnext, -⟩ := hstep n
    obtain rfl := hend s hs
    have hfinish : (readingPlace limit source (front ++ mark :: beyond) (n + 1)).token =
        .finish := by
      rw [hnext]
      exact hmark
    refine ⟨.wrongToken .selector .finish, ?_, by decide⟩
    rw [reading, readingPlace_of_finish hfinish hm, answer_finish hfinish, hnext]
    rfl

/-- After the selector `a` nothing is read of the tokens beyond the mark. -/
theorem readings_stop_before_more :
    (∀ t ∈ [Lexeme.mk (.ident "a") 0], t.token ≠ .finish) ∧
    (∃ s, reading 0 "a" [⟨.ident "a", 0⟩, ⟨.finish, 1⟩, ⟨.comma, 2⟩, ⟨.ident "b", 3⟩] 0 = .ok s) ∧
    ∀ m, 0 < m → ∃ fault,
      reading 0 "a" [⟨.ident "a", 0⟩, ⟨.finish, 1⟩, ⟨.comma, 2⟩, ⟨.ident "b", 3⟩] m =
        .error (.malformed "a" 1 fault) ∧
      fault.message = "expected a selector, found end of input" := by
  have hfront : ∀ t ∈ [Lexeme.mk (.ident "a") 0], t.token ≠ .finish := by decide
  have hread : reading 0 "a" [⟨.ident "a", 0⟩, ⟨.finish, 1⟩, ⟨.comma, 2⟩, ⟨.ident "b", 3⟩] 0 =
      .ok (.ofCompound { typeTest := some ⟨none, some "a"⟩ }) := by decide +kernel
  obtain ⟨-, -, hlater⟩ := @readings_stop_at_mark [⟨.ident "a", 0⟩] ⟨.finish, 1⟩ 0 "a"
    [⟨.comma, 2⟩, ⟨.ident "b", 3⟩] hfront rfl
  exact ⟨hfront, ⟨_, hread⟩, fun m hm => hlater 0 m _ hread hm⟩

end

/-- The last token of a list; an empty list reads like the end mark. -/
def Cursor.lastToken (ts : Cursor) : Token :=
  (ts.getLast?.map Lexeme.token).getD .finish

def Cursor.lastPosition (ts : Cursor) : Nat :=
  (ts.getLast?.map Lexeme.position).getD 0

/-- Without an end mark no selector is found. Where one would be found with a mark, the last token
is read over and over again or is an error; an error stays what it is, but where it names the
mark it names the last token instead. -/
theorem answer_unmarked (limit : Nat) (source : String) (position : Nat) {ts : Cursor}
    (hts : ∀ t ∈ ts, t.token ≠ .finish) :
    (∀ s, (selectorReader limit source).answer ts ≠ .ok s) ∧
    (∀ s, (selectorReader limit source).answer (ts ++ [⟨.finish, position⟩]) = .ok s →
      (selectorReader limit source).answer ts = .error (if ts.lastToken.repeats then .endless
        else .malformed source ts.lastPosition (.wrongToken .endOrComma ts.lastToken))) ∧
    ∀ e, (selectorReader limit source).answer (ts ++ [⟨.finish, position⟩]) = .error e →
      (selectorReader limit source).answer ts = .error e ∨
        ∃ due, e = .malformed source position (.wrongToken due .finish) ∧
          (selectorReader limit source).answer ts =
            .error (.malformed source ts.lastPosition (.wrongToken due ts.lastToken)) := by
  rcases ts.eq_nil_or_concat with rfl | ⟨pre, last, rfl⟩
  · have hmarked : (selectorReader limit source).answer [⟨.finish, position⟩] =
        .error (.malformed source position (.wrongToken .selector .finish)) := answer_finish rfl
    have hempty : (selectorReader limit source).answer [] =
        .error (.malformed source 0 (.wrongToken .selector .finish)) := answer_finish rfl
    rw [List.nil_append, hmarked, hempty]
    refine ⟨fun s hs => ?_, fun s hs => ?_, fun e he => .inr ⟨.selector, ?_, rfl⟩⟩
    · cases hs
    · cases hs
    · exact (Except.error.inj he).symm
  · rw [List.concat_eq_append] at hts ⊢
    have hfinish : last.token ≠ .finish := hts last (by simp)
    have hlast : Cursor.lastToken (pre ++ [last]) = last.token := by simp [Cursor.lastToken]
    have hposition : Cursor.lastPosition (pre ++ [last]) = last.position := by
      simp [Cursor.lastPosition]
    have hends : TwoEnds (.marked ⟨.finish, position⟩ []) (.kept last) (pre ++ [last]) :=
      ⟨⟨_, [], rfl, rfl⟩, fun _ => List.suffix_append pre [last]⟩
    have halike := @readsAlike_readSelector _ _ source _ _ (readNested_ne_endless limit limit)
      hends (by simp)
    unfold TokenReader.ReadsAlike at halike
    rw [Ending.place_kept (by simp), Ending.place] at halike
    rw [hlast, hposition]
    unfold TokenReader.answer selectorReader
    generalize readSelector (readNested limit limit) source (pre ++ [last]) = r at halike ⊢
    generalize readSelector (readNested limit limit) source
      (pre ++ [last] ++ [⟨.finish, position⟩]) = marked at halike ⊢
    cases halike with
    | @ok s rest hs hx =>
      cases rest with
      | nil => exact absurd (hx.2 rfl) hfinish
      | cons t rest => exact absurd hx.1 (hts t (hs.subset List.mem_cons_self))
    | error hs he =>
      refine ⟨fun s hs => ?_, fun s hs => ?_, fun e hread => ?_⟩
      · cases hs
      · cases hs
      · cases hread
        cases he with
        | same h => exact .inl rfl
        | atEnd due => exact .inr ⟨due, rfl, rfl⟩
    | missed hx =>
      obtain ⟨-, rfl⟩ := hx
      refine ⟨fun s hs => ?_, fun s hs => rfl, fun e hread => ?_⟩
      · cases hs
      · cases hread

/-- Without a mark the name `a` is an error, and the class `a` is never read to an end. -/
theorem answer_unmarked_name :
    (∀ t ∈ [Lexeme.mk (.ident "a") 0], t.token ≠ .finish) ∧
    (selectorReader 0 "a").answer [⟨.ident "a", 0⟩] =
      .error (.malformed "a" 0 (.wrongToken .endOrComma (.ident "a"))) ∧
    (∀ t ∈ [Lexeme.mk (.classTest "a") 0], t.token ≠ .finish) ∧
    (selectorReader 0 ".a").answer [⟨.classTest "a", 0⟩] = .error .endless := by
  have hname : ∀ t ∈ [Lexeme.mk (.ident "a") 0], t.token ≠ .finish := by decide
  have hclass : ∀ t ∈ [Lexeme.mk (.classTest "a") 0], t.token ≠ .finish := by decide
  have hmarkedName : (selectorReader 0 "a").answer ([⟨.ident "a", 0⟩] ++ [⟨.finish, 1⟩]) =
      .ok (.ofCompound { typeTest := some ⟨none, some "a"⟩ }) := by decide +kernel
  have hmarkedClass : (selectorReader 0 ".a").answer ([⟨.classTest "a", 0⟩] ++ [⟨.finish, 2⟩]) =
      .ok (.ofCompound { classes := ["a"] }) := by decide +kernel
  obtain ⟨-, hnamed, -⟩ := answer_unmarked 0 "a" 1 hname
  obtain ⟨-, hclassed, -⟩ := answer_unmarked 0 ".a" 2 hclass
  exact ⟨hname, hnamed _ hmarkedName, hclass, hclassed _ hmarkedClass⟩

end DocumentQuery
