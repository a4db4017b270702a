import DocumentQuery.Proofs.NestedReading

namespace DocumentQuery

namespace Token

/-- Tokens that begin a test after the type test of a compound. -/
def beginsTest : Token → Bool
  | .idTest _ | .classTest _ | .openBracket | .pseudoClass _ | .pseudoElement _ => true
  | _ => false

/-- The end mark, and tokens that a compound may end with but no test of it begins with. -/
def closes : Token → Bool
  | .ident _ | .star | .closeBracket | .arguments _ | .finish => true
  | _ => false

/-- Tokens that may be a test by themselves, so that the test is read again and again where the
reading cannot pass the token. -/
def repeats : Token → Bool
  | .idTest _ | .classTest _ | .pseudoClass _ | .pseudoElement _ => true
  | _ => false

theorem beginsTest_of_closes {t : Token} (h : t.closes = true) : t.beginsTest = false := by
  cases t <;> first | rfl | cases h

theorem beginsTest_of_endsTests {t : Token} (h : t.endsTests = true) : t.beginsTest = false := by
  cases t <;> first | rfl | cases h

end Token

/-- How a list of tokens goes on after its front: with an end mark, behind which more tokens may
stand, or not at all, where the last token of the front is never passed. -/
inductive Ending where
  | marked (mark : Lexeme) (beyond : List Lexeme)
  | kept (last : Lexeme)

namespace Ending

/-- The token that is the current one when the whole front has been read. -/
def lexeme : Ending → Lexeme
  | .marked mark _ => mark
  | .kept last => last

def token (e : Ending) : Token :=
  e.lexeme.token

/-- The place in the list where a rest of the front is left to read. -/
def place : Ending → List Lexeme → Cursor
  | .marked mark beyond, rest => rest ++ mark :: beyond
  | .kept last, [] => [last]
  | .kept _, t :: rest => t :: rest

/-- Whether a front may have this ending. -/
def Fits : Ending → List Lexeme → Prop
  | .marked mark _, _ => mark.token = .finish
  | .kept last, front => front ≠ [] → [last] <:+ front

section

variable {e : Ending} {t : Lexeme} {front rest : List Lexeme}

@[simp]
theorem token_place_nil (e : Ending) : (e.place []).token = e.token := by
  cases e <;> rfl

@[simp]
theorem position_place_nil (e : Ending) : (e.place []).position = e.lexeme.position := by
  cases e <;> rfl

@[simp]
theorem token_place_cons (e : Ending) (t : Lexeme) (rest : List Lexeme) :
    (e.place (t :: rest)).token = t.token := by
  cases e <;> rfl

@[simp]
theorem position_place_cons (e : Ending) (t : Lexeme) (rest : List Lexeme) :
    (e.place (t :: rest)).position = t.position := by
  cases e <;> rfl

theorem place_kept {last : Lexeme} (h : front ≠ []) : (kept last).place front = front := by
  obtain ⟨t, rest, rfl⟩ := List.exists_cons_of_ne_nil h
  rfl

theorem Fits.suffix (h : e.Fits front) (hs : rest <:+ front) : e.Fits rest := by
  cases e with
  | marked mark beyond => exact h
  | kept last =>
    intro hr
    have hfront : front ≠ [] := fun hf => hr (List.suffix_nil.mp (hf ▸ hs))
    have hlen : [last].length ≤ rest.length := List.length_pos_of_ne_nil hr
    exact List.suffix_of_suffix_length_le (h hfront) hs hlen

theorem Fits.last_eq {last : Lexeme} (h : (kept last).Fits [t]) : last = t := by
  have hsuffix : [last] <:+ [t] := h (by simp)
  simpa [List.suffix_cons_iff] using hsuffix

theorem Fits.advance_place (h : e.Fits (t :: rest)) :
    (e.place (t :: rest)).advance = e.place rest := by
  cases e with
  | marked mark beyond => cases rest <;> rfl
  | kept last =>
    cases rest with
    | nil =>
      rw [h.last_eq]
      rfl
    | cons u rest => rfl

theorem Fits.following_place (h : e.Fits (t :: rest)) :
    (e.place (t :: rest)).following = Cursor.token rest := by
  cases e with
  | marked mark beyond =>
    cases rest with
    | nil => exact h
    | cons u rest => rfl
  | kept last => rfl

/-- The token at the end is the end mark or the last one of the front. -/
theorem Fits.token_of_nil (h : e.Fits [t]) : e.token = .finish ∨ e.token = t.token := by
  cases e with
  | marked mark beyond => exact .inl h
  | kept last => exact .inr (congrArg Lexeme.token h.last_eq)

theorem length_place_lt (e : Ending) (h : rest.length + 1 < front.length) :
    (e.place rest).length < (e.place front).length := by
  cases e with
  | marked mark beyond =>
    simp only [place, List.length_append]
    omega
  | kept last =>
    have hfront : front ≠ [] := List.ne_nil_of_length_pos (by omega)
    rw [place_kept hfront]
    cases rest with
    | nil => exact h
    | cons t rest => exact Nat.lt_of_succ_lt h

end

end Ending

/-- Two endings of the same front: the first with an end mark, the second any that may be. -/
structure TwoEnds (a b : Ending) (front : List Lexeme) : Prop where
  marked : ∃ mark beyond, a = .marked mark beyond ∧ mark.token = .finish
  fits : b.Fits front

section

variable (source : String) (a b : Ending)

/-- Errors of readings that end alike: the same one, or each names what stands at the end of its
list where something else is due. -/
inductive SameFault : SelectorError → SelectorError → Prop where
  | same {e : SelectorError} (h : e ≠ .endless) : SameFault e e
  | atEnd (due : Expectation) :
      SameFault (.malformed source a.lexeme.position (.wrongToken due a.token))
        (.malformed source b.lexeme.position (.wrongToken due b.token))

/-- Results of one reader over two lists with the same front: both have read up to the same place
of the front, or the first has read all of it and the second went wrong. -/
inductive ResultsAlike (missed : α → SelectorError → Prop) (post : α → List Lexeme → Prop)
    (front : List Lexeme) : EStateM.Result SelectorError Cursor α →
    EStateM.Result SelectorError Cursor α → Prop where
  | ok {x : α} {rest : List Lexeme} (hs : rest <:+ front) (hx : post x rest) :
      ResultsAlike missed post front (.ok x (a.place rest)) (.ok x (b.place rest))
  | error {e e' : SelectorError} {rest : List Lexeme} (hs : rest <:+ front)
      (he : SameFault source a b e e') :
      ResultsAlike missed post front (.error e (a.place rest)) (.error e' (b.place rest))
  | missed {x : α} {e : SelectorError} {after : Cursor} (hx : missed x e) :
      ResultsAlike missed post front (.ok x (a.place [])) (.error e after)

def TokenReader.ReadsAlike (missed : α → SelectorError → Prop) (post : α → List Lexeme → Prop)
    (front : List Lexeme) (q : TokenReader α) : Prop :=
  ResultsAlike source a b missed post front (q (a.place front)) (q (b.place front))

end

/-- No result is missed. -/
def never (_ : α) (_ : SelectorError) : Prop :=
  False

/-- A result is missed because the token at the end is read over and over again. -/
def ReadAgain (b : Ending) (_ : α) (e : SelectorError) : Prop :=
  b.token.repeats = true ∧ e = .endless

section

open TokenReader

variable {a b : Ending} {source : String} {front rest : List Lexeme} {t : Lexeme}

namespace TwoEnds

theorem suffix (h : TwoEnds a b front) (hs : rest <:+ front) : TwoEnds a b rest :=
  ⟨h.marked, h.fits.suffix hs⟩

theorem tail (h : TwoEnds a b (t :: rest)) : TwoEnds a b rest :=
  h.suffix (List.suffix_cons t rest)

theorem token_eq (h : TwoEnds a b front) : a.token = .finish := by
  obtain ⟨mark, beyond, rfl, hmark⟩ := h.marked
  exact hmark

theorem fits_first (h : TwoEnds a b front) : a.Fits front := by
  obtain ⟨mark, beyond, rfl, hmark⟩ := h.marked
  exact hmark

/-- What holds of the end mark and of the token just read holds of the token at the end. -/
theorem of_last {p : Token → Prop} (h : TwoEnds a b (t :: rest)) (hf : p .finish)
    (ht : p t.token) : rest = [] → p b.token := by
  rintro rfl
  rcases h.fits.token_of_nil with he | he
  · exact he ▸ hf
  · exact he ▸ ht

end TwoEnds

section

variable {missed : α → SelectorError → Prop} {post : α → List Lexeme → Prop}
  {missed' : β → SelectorError → Prop} {post' : β → List Lexeme → Prop}

theorem ResultsAlike.mono {post' : α → List Lexeme → Prop}
    {r r' : EStateM.Result SelectorError Cursor α}
    (h : ResultsAlike source a b missed post rest r r') (hs : rest <:+ front)
    (hp : ∀ x after, after <:+ rest → post x after → post' x after) :
    ResultsAlike source a b missed post' front r r' := by
  cases h with
  | ok hr hx => exact .ok (hr.trans hs) (hp _ _ hr hx)
  | error hr he => exact .error (hr.trans hs) he
  | missed hx => exact .missed hx

namespace TokenReader.ReadsAlike

theorem pure {x : α} (hx : post x front) : ReadsAlike source a b missed post front (pure x) :=
  .ok List.suffix_rfl hx

theorem throw {e : SelectorError} (he : e ≠ .endless) :
    ReadsAlike source a b missed post front (throw e) :=
  .error List.suffix_rfl (.same he)

theorem bind {q : TokenReader α} {f : α → TokenReader β}
    (h : ReadsAlike source a b missed post front q)
    (hf : ∀ x rest, rest <:+ front → post x rest → ReadsAlike source a b missed' post' rest (f x))
    (hm : ∀ x e, missed x e → ∃ y, f x (a.place []) = .ok y (a.place []) ∧ missed' y e) :
    ReadsAlike source a b missed' post' front (q >>= f) := by
  unfold ReadsAlike at h ⊢
  generalize hr : q (a.place front) = r at h
  generalize hr' : q (b.place front) = r' at h
  cases h with
  | ok hs hx =>
    rw [bind_of_eq_ok hr, bind_of_eq_ok hr']
    exact (hf _ _ hs hx).mono hs fun _ _ _ hy => hy
  | error hs he =>
    rw [bind_eq_error hr, bind_eq_error hr']
    exact .error hs he
  | missed hx =>
    obtain ⟨y, hy, hmissed⟩ := hm _ _ hx
    rw [bind_of_eq_ok hr, bind_eq_error hr', hy]
    exact .missed hmissed

/-- Goes on after a reader whose result is never missed. -/
theorem andThen {q : TokenReader α} {f : α → TokenReader β}
    (h : ReadsAlike source a b never post front q)
    (hf : ∀ x rest, rest <:+ front → post x rest → ReadsAlike source a b missed' post' rest (f x)) :
    ReadsAlike source a b missed' post' front (q >>= f) :=
  h.bind hf fun _ _ hx => hx.elim

theorem advance {f : Unit → TokenReader α} (h : TwoEnds a b (t :: rest))
    (hf : ReadsAlike source a b missed post rest (f ())) :
    ReadsAlike source a b missed post (t :: rest) (advance >>= f) := by
  unfold ReadsAlike
  rw [bind_advance, bind_advance, h.fits_first.advance_place, h.fits.advance_place]
  exact hf.mono (List.suffix_cons t rest) fun _ _ _ hx => hx

theorem peek_cons {f : Token → TokenReader α}
    (hf : ReadsAlike source a b missed post (t :: rest) (f t.token)) :
    ReadsAlike source a b missed post (t :: rest) (peek >>= f) := by
  unfold ReadsAlike at hf ⊢
  rwa [bind_peek, bind_peek, Ending.token_place_cons, Ending.token_place_cons]

/-- At the end the two readers go on with the end mark and with what stands there. -/
theorem peek_nil {f : Token → TokenReader α} (h : TwoEnds a b [])
    (hf : ResultsAlike source a b missed post [] (f .finish (a.place []))
      (f b.token (b.place []))) :
    ReadsAlike source a b missed post [] (peek >>= f) := by
  unfold ReadsAlike
  rwa [bind_peek, bind_peek, Ending.token_place_nil, Ending.token_place_nil, h.token_eq]

theorem get {f : Cursor → TokenReader α}
    (hf : ResultsAlike source a b missed post front (f (a.place front) (a.place front))
      (f (b.place front) (b.place front))) :
    ReadsAlike source a b missed post front (get >>= f) :=
  hf

theorem fail {fault : Fault} :
    ReadsAlike source a b missed post (t :: rest) (fail source fault : TokenReader α) := by
  have herror (e : Ending) : (TokenReader.fail source fault : TokenReader α) (e.place (t :: rest)) =
      .error (.malformed source t.position fault) (e.place (t :: rest)) := by
    cases e <;> rfl
  unfold ReadsAlike
  rw [herror, herror]
  exact .error List.suffix_rfl (.same nofun)

theorem unexpected {due : Expectation} :
    ReadsAlike source a b missed post front (unexpected source due : TokenReader α) := by
  have herror (e : Ending) : (TokenReader.unexpected source due : TokenReader α) (e.place front) =
      .error (.malformed source (e.place front).position
        (.wrongToken due (e.place front).token)) (e.place front) := rfl
  unfold ReadsAlike
  rw [herror, herror]
  cases front with
  | nil =>
    simp only [Ending.token_place_nil, Ending.position_place_nil]
    exact .error List.suffix_rfl (.atEnd due)
  | cons t rest =>
    simp only [Ending.token_place_cons, Ending.position_place_cons]
    exact .error List.suffix_rfl (.same nofun)

end TokenReader.ReadsAlike

end

end

end DocumentQuery
