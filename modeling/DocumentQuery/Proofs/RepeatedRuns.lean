import Mathlib.Data.List.Infix
import DocumentQuery.Proofs.TokenStream

namespace DocumentQuery

namespace Lexer

/-- The lexer without the blanks in front of it, which is where a run begins. -/
def atFront (l : Lexer) : Lexer :=
  { l with rest := skipBlanks l.rest }

/-- The lexer after some runs, each of which goes on where the one before it ended. -/
def afterRuns (l : Lexer) : Nat → Lexer
  | 0 => l
  | n + 1 => (l.afterRuns n).run.2

/-- Whether reading tokens one after another comes to an end with a number of steps. -/
inductive Ends : Lexer → Nat → Except SelectorError Unit → Lexer → Prop where
  | done {l last : Lexer} {outcome : Except SelectorError Unit}
      (h : l.step = .done outcome last) : Ends l 1 outcome last
  | again {l next last : Lexer} {outcome : Except SelectorError Unit} {steps : Nat}
      (h : l.step = .again next) (later : Ends next steps outcome last) :
      Ends l (steps + 1) outcome last

/-- Whether the end mark has been read only at the end of the text. -/
def Whole (l : Lexer) : Prop :=
  l.finished = true → l.rest = []

variable {l next last : Lexer} {outcome : Except SelectorError Unit} {steps : Nat}

/-- Each step but the last takes a character, so there are no more steps than characters and
one. -/
theorem exists_ends_readTokens (l : Lexer) :
    ∃ steps ≤ l.rest.length + 1, l.Ends steps l.readTokens.1 l.readTokens.2 := by
  cases hs : l.step with
  | done outcome last =>
    rw [readTokens_of_step_eq_done hs]
    exact ⟨1, by omega, .done hs⟩
  | again next =>
    have hlt := length_rest_lt_of_step_eq_again hs
    obtain ⟨steps, hle, hends⟩ := exists_ends_readTokens next
    rw [readTokens_of_step_eq_again hs]
    exact ⟨steps + 1, by omega, .again hs hends⟩
termination_by l.rest.length

theorem lexemes_suffix_of_step_eq_again (h : l.step = .again next) :
    l.lexemes <:+ next.lexemes := by
  obtain ⟨c, cs, -, ⟨t, after, -, rfl⟩ | ⟨after, -, rfl⟩⟩ := of_step_eq_again h
  · exact List.suffix_cons _ _
  · exact List.suffix_rfl

theorem finished_of_step_eq_again (h : l.step = .again next) : next.finished = false := by
  obtain ⟨c, cs, hf, ⟨t, after, hs, rfl⟩ | ⟨after, -, rfl⟩⟩ := of_step_eq_again h
  · have ht := LexerMode.token_scan_ne_finish hf hs
    simpa [finished, previous, push] using ht
  · unfold step at h
    split at h
    next => cases h
    next hn => simpa [finished, previous] using hn

theorem Stops.lexemes_suffix (h : l.Stops outcome last) : l.lexemes <:+ last.lexemes := by
  cases h with
  | finished | openBrackets | fault => exact List.suffix_rfl
  | atEnd => exact List.suffix_cons _ _

theorem Stops.source_eq (h : l.Stops outcome last) : last.source = l.source := by
  cases h <;> rfl

/-- Where a run stops, no more of the text is left than before, and less of it after an error
unless nothing was left at all. -/
theorem Stops.length_rest (h : l.Stops outcome last) :
    last.rest.length ≤ l.rest.length ∧
      (outcome ≠ .ok () → l.rest ≠ [] → last.rest.length < l.rest.length) := by
  cases h with
  | finished => exact ⟨Nat.le_refl _, fun he => absurd rfl he⟩
  | atEnd => exact ⟨Nat.zero_le _, fun he => absurd rfl he⟩
  | openBrackets => exact ⟨Nat.zero_le _, fun _ hne => List.length_pos_iff.mpr hne⟩
  | @fault c cs after f _ hf hs =>
    have hlt := LexerMode.length_rest_scan_lt hf l.previous
    rw [hs] at hlt
    exact ⟨Nat.le_of_lt hlt, fun _ _ => hlt⟩

/-- A run without an error ends with the end mark at the end of the text. -/
theorem Stops.finished_of_ok (h : l.Stops (.ok ()) last) (hw : l.Whole) :
    last.finished = true ∧ last.rest = [] := by
  cases h with
  | finished hl => exact ⟨hl, hw hl⟩
  | atEnd => exact ⟨rfl, rfl⟩

theorem Stops.whole (h : l.Stops outcome last) (hw : l.Whole) : last.Whole := by
  cases h with
  | finished => exact hw
  | atEnd => exact fun _ => rfl
  | openBrackets => exact fun _ => rfl
  | fault hn =>
    intro hl
    have hsame : l.finished = true := hl
    rw [hn] at hsame
    cases hsame

theorem whole_of_step_eq_again (h : l.step = .again next) : next.Whole := by
  intro hl
  rw [finished_of_step_eq_again h] at hl
  cases hl

namespace Ends

theorem lexemes_suffix (h : l.Ends steps outcome last) : l.lexemes <:+ last.lexemes := by
  induction h with
  | done h => exact (stops_of_step_eq_done h).lexemes_suffix
  | again h _ ih => exact (lexemes_suffix_of_step_eq_again h).trans ih

theorem source_eq (h : l.Ends steps outcome last) : last.source = l.source := by
  induction h with
  | done h => exact (stops_of_step_eq_done h).source_eq
  | again h _ ih => rw [ih, source_of_step_eq_again h]

theorem length_rest (h : l.Ends steps outcome last) :
    last.rest.length ≤ l.rest.length ∧
      (outcome ≠ .ok () → l.rest ≠ [] → last.rest.length < l.rest.length) := by
  induction h with
  | done h => exact (stops_of_step_eq_done h).length_rest
  | again h _ ih =>
    have hlt := length_rest_lt_of_step_eq_again h
    have hle := ih.1
    exact ⟨by omega, fun _ _ => by omega⟩

theorem finished_of_ok (h : l.Ends steps (.ok ()) last) (hw : l.Whole) :
    last.finished = true ∧ last.rest = [] := by
  generalize ho : Except.ok () = outcome at h
  induction h with
  | done h =>
    subst ho
    exact (stops_of_step_eq_done h).finished_of_ok hw
  | again h _ ih => exact ih (whole_of_step_eq_again h) ho

theorem whole (h : l.Ends steps outcome last) (hw : l.Whole) : last.Whole := by
  induction h with
  | done h => exact (stops_of_step_eq_done h).whole hw
  | again h _ ih => exact ih (whole_of_step_eq_again h)

end Ends

/-- Every run comes to an end, after no more steps than characters are left and one. -/
theorem exists_ends_run (l : Lexer) :
    ∃ steps ≤ l.rest.length + 1, l.atFront.Ends steps l.run.1 l.run.2 := by
  obtain ⟨steps, hle, hends⟩ := exists_ends_readTokens l.atFront
  have hskip : (skipBlanks l.rest).length ≤ l.rest.length := (skipBlanks_suffix l.rest).length_le
  have hfront : l.atFront.rest.length = (skipBlanks l.rest).length := rfl
  exact ⟨steps, by omega, hends⟩

theorem lexemes_suffix_run (l : Lexer) : l.lexemes <:+ l.run.2.lexemes := by
  obtain ⟨steps, -, hends⟩ := exists_ends_run l
  exact hends.lexemes_suffix

theorem source_run (l : Lexer) : l.run.2.source = l.source := by
  obtain ⟨steps, -, hends⟩ := exists_ends_run l
  exact hends.source_eq

theorem whole_atFront (hw : l.Whole) : l.atFront.Whole := by
  intro hl
  have hrest : l.rest = [] := hw hl
  simp [atFront, hrest, skipBlanks]

theorem whole_run (hw : l.Whole) : l.run.2.Whole := by
  obtain ⟨steps, -, hends⟩ := exists_ends_run l
  exact hends.whole (whole_atFront hw)

theorem length_rest_run_le (l : Lexer) : l.run.2.rest.length ≤ l.rest.length := by
  obtain ⟨steps, -, hends⟩ := exists_ends_run l
  have hle := hends.length_rest.1
  have hfront : l.atFront.rest.length ≤ l.rest.length := (skipBlanks_suffix l.rest).length_le
  omega

/-- A run that fails takes a character, unless none is left. -/
theorem length_rest_run_lt (l : Lexer) (he : l.run.1 ≠ .ok ()) (hne : l.rest ≠ []) :
    l.run.2.rest.length < l.rest.length := by
  obtain ⟨steps, -, hends⟩ := exists_ends_run l
  obtain ⟨hle, hlt⟩ := hends.length_rest
  have hfront : l.atFront.rest.length ≤ l.rest.length := (skipBlanks_suffix l.rest).length_le
  by_cases hblank : l.atFront.rest = []
  · have hpos : 0 < l.rest.length := List.length_pos_iff.mpr hne
    rw [hblank, List.length_nil] at hle
    omega
  · have := hlt he hblank
    omega

theorem atFront_of_rest_eq_nil (h : l.rest = []) : l.atFront = l := by
  obtain ⟨source, rest, mode, lexemes⟩ := l
  obtain rfl : rest = [] := h
  rfl

theorem run_of_finished (hl : l.finished = true) (h : l.rest = []) : l.run = (.ok (), l) := by
  have hstep : l.atFront.step = .done (.ok ()) l := by
    rw [atFront_of_rest_eq_nil h, step, if_pos hl]
  exact readTokens_of_step_eq_done hstep

/-- At the end of the text a run succeeds, or it fails because of open brackets and changes
nothing. -/
theorem run_of_rest_eq_nil (h : l.rest = []) :
    l.run.1 = .ok () ∨
      ∃ opened, l.run = (.error (.malformed l.source opened .openBrackets), l) := by
  by_cases hl : l.finished = true
  · rw [run_of_finished hl h]
    exact .inl rfl
  · have hfront : l.mode.front l.rest = [] := by
      have hsuffix := l.mode.front_suffix l.rest
      rw [h] at hsuffix ⊢
      exact List.suffix_nil.mp hsuffix
    have hstep : l.step = l.atEnd := by
      rw [step, if_neg hl, hfront]
    have hrun : l.run = l.readTokens := by
      rw [run, ← atFront, atFront_of_rest_eq_nil h]
    rw [hrun]
    cases hm : l.mode with
    | brackets opened =>
      have hsame : { l with rest := [] } = l := by rw [← h]
      have hdone : l.step =
          .done (.error (.malformed l.source opened .openBrackets)) { l with rest := [] } := by
        rw [hstep, atEnd, hm]
      rw [hsame] at hdone
      exact .inr ⟨opened, readTokens_of_step_eq_done hdone⟩
    | outside | arguments =>
      rw [atEnd, hm] at hstep
      rw [readTokens_of_step_eq_done hstep]
      exact .inl rfl

/-- A run that succeeds leaves nothing to do. -/
theorem run_run_of_ok (hw : l.Whole) (h : l.run.1 = .ok ()) : l.run.2.run = (.ok (), l.run.2) := by
  obtain ⟨steps, -, hends⟩ := exists_ends_run l
  rw [h] at hends
  obtain ⟨hl, hrest⟩ := hends.finished_of_ok (whole_atFront hw)
  exact run_of_finished hl hrest

section

variable {n m : Nat}

theorem source_afterRuns (l : Lexer) (n : Nat) : (l.afterRuns n).source = l.source := by
  induction n with
  | zero => rfl
  | succ n ih => rw [afterRuns, source_run, ih]

theorem whole_afterRuns (hw : l.Whole) (n : Nat) : (l.afterRuns n).Whole := by
  induction n with
  | zero => exact hw
  | succ n ih => exact whole_run ih

theorem length_rest_afterRuns_le (l : Lexer) (n : Nat) :
    (l.afterRuns n).rest.length ≤ l.rest.length := by
  induction n with
  | zero => exact Nat.le_refl _
  | succ n ih => exact Nat.le_trans (length_rest_run_le _) ih

theorem length_rest_afterRuns_of_failed (h : ∀ k < n, (l.afterRuns k).run.1 ≠ .ok ()) :
    (l.afterRuns n).rest.length ≤ l.rest.length - n := by
  induction n with
  | zero => exact Nat.le_refl _
  | succ n ih =>
    have hle := ih fun k hk => h k (by omega)
    have hnext : (l.afterRuns (n + 1)).rest.length ≤ (l.afterRuns n).rest.length :=
      length_rest_run_le _
    by_cases hne : (l.afterRuns n).rest = []
    · rw [hne, List.length_nil] at hnext
      omega
    · have hlt : (l.afterRuns (n + 1)).rest.length < (l.afterRuns n).rest.length :=
        length_rest_run_lt _ (h n (by omega)) hne
      omega

/-- Runs that change nothing go on to change nothing. -/
theorem afterRuns_of_fixed (h : (l.afterRuns n).run.2 = l.afterRuns n) (hm : n ≤ m) :
    l.afterRuns m = l.afterRuns n := by
  induction m, hm using Nat.le_induction with
  | base => rfl
  | succ m _ ih => rw [afterRuns, ih, h]

theorem afterRuns_of_ok (hw : l.Whole) (h : (l.afterRuns n).run.1 = .ok ()) (hm : n < m) :
    l.afterRuns m = l.afterRuns (n + 1) := by
  have hlast : (l.afterRuns (n + 1)).run = (.ok (), l.afterRuns (n + 1)) :=
    run_run_of_ok (whole_afterRuns hw n) h
  have hfixed := congrArg Prod.snd hlast
  exact afterRuns_of_fixed hfixed hm

theorem run_afterRuns_of_ok (hw : l.Whole) (h : (l.afterRuns n).run.1 = .ok ()) (hm : n < m) :
    (l.afterRuns m).run = (.ok (), l.afterRuns (n + 1)) := by
  rw [afterRuns_of_ok hw h hm]
  exact run_run_of_ok (whole_afterRuns hw n) h

end

theorem whole_ofText (text : String) : (ofText text).Whole :=
  fun h => nomatch h

/-- After as many runs as the text has characters, the next run succeeds, or it fails because of
open brackets, and the run after it changes nothing. -/
theorem exists_outcome_afterRuns (text : String) :
    ∃ outcome : Except SelectorError Unit,
      (outcome = .ok () ∨ ∃ opened, outcome = .error (.malformed text opened .openBrackets)) ∧
      ∀ n, text.length ≤ n → ((ofText text).afterRuns n).run =
        (outcome, (ofText text).afterRuns (text.length + 1)) := by
  have hwhole := whole_ofText text
  by_cases hok : ∃ k ≤ text.length, ((ofText text).afterRuns k).run.1 = .ok ()
  · obtain ⟨k, hk, hok⟩ := hok
    refine ⟨.ok (), .inl rfl, fun n hn => ?_⟩
    rw [afterRuns_of_ok hwhole hok (by omega : k < text.length + 1)]
    by_cases hkn : k < n
    · exact run_afterRuns_of_ok hwhole hok hkn
    · obtain rfl : n = k := by omega
      exact Prod.ext hok rfl
  · have hfails : ∀ k ≤ text.length, ((ofText text).afterRuns k).run.1 ≠ .ok () :=
      fun k hk he => hok ⟨k, hk, he⟩
    have hrest : ((ofText text).afterRuns text.length).rest = [] := by
      have hle := length_rest_afterRuns_of_failed fun k (hk : k < text.length) =>
        hfails k (by omega)
      have hsize : (ofText text).rest.length = text.length := String.length_toList
      exact List.length_eq_zero_iff.mp (by omega)
    obtain ⟨opened, hrun⟩ :=
      (run_of_rest_eq_nil hrest).resolve_left (hfails text.length (Nat.le_refl _))
    rw [source_afterRuns] at hrun
    have hfixed := congrArg Prod.snd hrun
    refine ⟨_, .inr ⟨opened, rfl⟩, fun n hn => ?_⟩
    rw [afterRuns_of_fixed hfixed hn, afterRuns, hfixed]
    exact hrun

/-- Runs of one lexer only ever add tokens. A run that succeeds leaves nothing to do, and one that
fails takes a character, so that with one run more than there are characters the result is final:
success, or brackets that nothing can close any more. -/
theorem runs_settle (text : String) :
    (∀ n, ((ofText text).afterRuns n).tokens <+: ((ofText text).afterRuns (n + 1)).tokens) ∧
    (∀ n, ((ofText text).afterRuns n).run.1 = .ok () → ∀ m, n < m →
      ((ofText text).afterRuns m).run = (.ok (), (ofText text).afterRuns (n + 1))) ∧
    (∀ n, ∃ steps ≤ text.length + 1, ((ofText text).afterRuns n).atFront.Ends steps
      ((ofText text).afterRuns n).run.1 ((ofText text).afterRuns (n + 1))) ∧
    ∃ outcome : Except SelectorError Unit,
      (outcome = .ok () ∨ ∃ opened fault, outcome = .error (.malformed text opened fault) ∧
        fault.message = "unterminated attribute selector") ∧
      ∀ n, text.length ≤ n → ((ofText text).afterRuns n).run =
        (outcome, (ofText text).afterRuns (text.length + 1)) := by
  refine ⟨fun n => ?_, fun n hok m hm => ?_, fun n => ?_, ?_⟩
  · exact List.reverse_prefix.mpr (lexemes_suffix_run _)
  · exact run_afterRuns_of_ok (whole_ofText text) hok hm
  · obtain ⟨steps, hle, hends⟩ := exists_ends_run ((ofText text).afterRuns n)
    have hrest := length_rest_afterRuns_le (ofText text) n
    have hsize : (ofText text).rest.length = text.length := String.length_toList
    exact ⟨steps, by omega, hends⟩
  · obtain ⟨outcome, hkind, hruns⟩ := exists_outcome_afterRuns text
    exact ⟨outcome, hkind.imp_right fun ⟨opened, he⟩ => ⟨opened, _, he, rfl⟩, hruns⟩

/-- Of the two characters of a text, the first is a fault and the second opens brackets. -/
theorem runs_settle_openBrackets :
    ((ofText "!a").afterRuns 1).run.1 = .ok () ∧
    (∀ m, 1 < m → ((ofText "!a").afterRuns m).run = (.ok (), (ofText "!a").afterRuns 2)) ∧
    ((ofText "![").afterRuns 0).run.1 = .error (.malformed "![" 0 (.strayCharacter '!')) ∧
    ∀ n, 2 ≤ n → ((ofText "![").afterRuns n).run.1 = .error (.malformed "![" 1 .openBrackets) ∧
      ((ofText "![").afterRuns (n + 1)).tokens = [⟨.openBracket, 1⟩] := by
  have hsecond : ((ofText "!a").afterRuns 1).run.1 = .ok () := by decide +kernel
  have hopen : ((ofText "![").afterRuns 2).run.1 = .error (.malformed "![" 1 .openBrackets) := by
    decide +kernel
  have htokens : ((ofText "![").afterRuns 3).tokens = [⟨.openBracket, 1⟩] := by decide +kernel
  obtain ⟨-, hok, -, -⟩ := runs_settle "!a"
  obtain ⟨-, -, -, outcome, -, hruns⟩ := runs_settle "!["
  refine ⟨hsecond, hok 1 hsecond, by decide +kernel, fun n hn => ?_⟩
  have hrun := hruns n hn
  have htwo := hruns 2 (by decide)
  rw [htwo] at hopen
  refine ⟨?_, ?_⟩
  · rw [hrun]
    exact hopen
  · rw [afterRuns, hrun]
    exact htokens

end Lexer

end DocumentQuery
