import DocumentQuery.Proofs.SelectorDepth
import DocumentQuery.SelectorEquality

namespace DocumentQuery

/-- Whether a result is the other one, unless selectors were found nested deeper than a limit. -/
def CutAt (limit : Nat) (a b : Except SelectorError α) : Prop :=
  a = b ∨ a = .error (.nestedTooDeep limit)

/-- Whether a reader gives the result of the other one and ends where that one ends, unless it
found selectors nested deeper than a limit. -/
def TokenReader.CutsAt (limit : Nat) (q r : TokenReader α) : Prop :=
  ∀ ts, q ts = r ts ∨ ∃ rest, q ts = .error (.nestedTooDeep limit) rest

namespace TokenReader.CutsAt

variable {limit : Nat}

theorem refl (q : TokenReader α) : q.CutsAt limit q :=
  fun _ => .inl rfl

theorem bind {q r : TokenReader α} {f g : α → TokenReader β} (h : CutsAt limit q r)
    (hf : ∀ a, CutsAt limit (f a) (g a)) : CutsAt limit (q >>= f) (r >>= g) := by
  intro ts
  change EStateM.bind q f ts = EStateM.bind r g ts ∨ ∃ rest, EStateM.bind q f ts = .error _ rest
  unfold EStateM.bind
  rcases h ts with he | ⟨rest, he⟩
  · rw [he]
    cases r ts with
    | ok a mid => exact hf a mid
    | error e mid => exact .inl rfl
  · rw [he]
    exact .inr ⟨rest, rfl⟩

end TokenReader.CutsAt

section

open TokenReader

variable {limit : Nat} {nested other : String → Except SelectorError Selector} {source : String}

-- Every reader only passes on what the reader of nested selectors gives it.
variable (h : ∀ text, CutAt limit (nested text) (other text))

include h

theorem cutAt_argumentOf (name : String) (kind : ArgumentKind) (written : Option (String × Nat)) :
    CutAt limit (argumentOf nested source name kind written)
      (argumentOf other source name kind written) := by
  obtain _ | ⟨raw, position⟩ := written
  · cases kind <;> exact .inl rfl
  · cases kind with
    | none | ignored | text | nth => exact .inl rfl
    | index =>
      rw [argumentOf_index, argumentOf_index]
      exact .inl rfl
    | selector =>
      rw [argumentOf_selector, argumentOf_selector]
      split
      next => exact .inl rfl
      next =>
        rcases h (trimmed raw) with he | he
        · rw [he]
          exact .inl rfl
        · rw [he]
          exact .inr rfl

theorem cutsAt_readPseudoClass (name : String) :
    CutsAt limit (readPseudoClass nested source name) (readPseudoClass other source name) := by
  unfold readPseudoClass
  cases PseudoClassName.ofName? name with
  | none => exact .refl _
  | some pseudo =>
    refine (CutsAt.refl readParentheses).bind fun written => ?_
    rcases cutAt_argumentOf h name pseudo.argumentKind written with he | he
    · rw [he]
      exact .refl _
    · rw [he]
      exact fun ts => .inr ⟨ts, rfl⟩

theorem cutsAt_readSimple (c : Compound) :
    CutsAt limit (readSimple nested source c) (readSimple other source c) := by
  unfold readSimple
  refine (CutsAt.refl peek).bind fun t => ?_
  cases t with
  | pseudoClass name =>
    exact (CutsAt.refl advance).bind fun _ => (cutsAt_readPseudoClass h name).bind fun _ => .refl _
  | _ => exact .refl _

theorem cutsAt_readSimples (c : Compound) :
    CutsAt limit (readSimples nested source c) (readSimples other source c) := by
  intro ts
  rw [readSimples, readSimples.eq_def other]
  rcases cutsAt_readSimple h c ts with he | ⟨rest, he⟩
  · rw [he]
    split
    next => exact .inl rfl
    next more rest _ =>
      split
      next hlt => exact cutsAt_readSimples more rest
      next => exact .inl rfl
    next => exact .inl rfl
  · rw [he]
    exact .inr ⟨rest, rfl⟩
termination_by ts => ts.length

theorem cutsAt_readCompound :
    CutsAt limit (readCompound nested source) (readCompound other source) := by
  unfold readCompound
  exact (CutsAt.refl _).bind fun typeTest => (cutsAt_readSimples h _).bind fun c => .refl _

theorem cutsAt_readSteps (k : Combinator) :
    CutsAt limit (readSteps nested source k) (readSteps other source k) := by
  intro ts
  rw [readSteps, readSteps.eq_def other]
  rcases cutsAt_readCompound h ts with he | ⟨rest, he⟩
  · rw [he]
    split
    next => exact .inl rfl
    next c rest _ =>
      split
      next next _ =>
        split
        next hlt =>
          rcases cutsAt_readSteps next rest.advance with he | ⟨after, he⟩
          · rw [he]
            exact .inl rfl
          · rw [he]
            exact .inr ⟨after, rfl⟩
        next => exact .inl rfl
      next => exact .inl rfl
  · rw [he]
    exact .inr ⟨rest, rfl⟩
termination_by ts => ts.length

theorem cutsAt_readGroup : CutsAt limit (readGroup nested source) (readGroup other source) := by
  unfold readGroup
  refine (CutsAt.refl peek).bind fun t => ?_
  cases t with
  | combinator first =>
    exact (CutsAt.refl advance).bind fun _ => (cutsAt_readSteps h first).bind fun _ => .refl _
  | _ => exact (cutsAt_readSteps h _).bind fun _ => .refl _

theorem cutsAt_readGroups : CutsAt limit (readGroups nested source) (readGroups other source) := by
  intro ts
  rw [readGroups, readGroups.eq_def other]
  rcases cutsAt_readGroup h ts with he | ⟨rest, he⟩
  · rw [he]
    split
    next => exact .inl rfl
    next g rest _ =>
      split
      next =>
        split
        next hlt =>
          rcases cutsAt_readGroups rest.advance with he | ⟨after, he⟩
          · rw [he]
            exact .inl rfl
          · rw [he]
            exact .inr ⟨after, rfl⟩
        next => exact .inl rfl
      next => exact .inl rfl
  · rw [he]
    exact .inr ⟨rest, rfl⟩
termination_by ts => ts.length

theorem cutsAt_readSelector :
    CutsAt limit (readSelector nested source) (readSelector other source) := by
  unfold readSelector
  exact (cutsAt_readGroups h).bind fun _ => .refl _

theorem cutAt_readText (text : String) :
    CutAt limit (readText nested text) (readText other text) := by
  unfold readText
  -- without the bind, the two sides are equal before anything in them is unfolded
  cases tokenize text with
  | error e =>
    simp only [bind, Except.bind]
    exact .inl rfl
  | ok ts =>
    simp only [bind, Except.bind]
    rcases cutsAt_readSelector h ts with he | ⟨rest, he⟩
    · rw [he]
      exact .inl rfl
    · rw [he]
      exact .inr rfl

end

/-- With fewer levels left a text is read the same up to the nesting that is too deep. -/
theorem cutAt_readNested {limit more levels further : Nat} (h : levels ≤ further) (text : String) :
    CutAt limit (readNested limit levels text) (readNested more further text) := by
  induction levels generalizing further text with
  | zero => exact .inr rfl
  | succ levels ih =>
    obtain ⟨further, rfl⟩ := Nat.exists_eq_add_one_of_ne_zero (Nat.ne_zero_of_lt h)
    exact cutAt_readText (ih (Nat.le_of_succ_le_succ h)) text

theorem cutAt_parse {limit more : Nat} (h : limit ≤ more) (text : String) :
    CutAt limit (parse limit text) (parse more text) :=
  cutAt_readText (cutAt_readNested h) text

/-- A limit on nesting turns down the selectors that are deeper and nothing else. Any other
fault stays the same, unless too deep a nesting stands before it. -/
theorem parse_of_limit_le {limit more : Nat} (h : limit ≤ more) (text : String) :
    (∀ s, parse more text = .ok s → s.depth ≤ more ∧
      parse limit text = if s.depth ≤ limit then .ok s else .error (.nestedTooDeep limit)) ∧
    ∀ e, parse more text = .error e →
      parse limit text = .error e ∨ parse limit text = .error (.nestedTooDeep limit) := by
  have hcut := cutAt_parse h text
  refine ⟨fun s hs => ?_, fun e he => he ▸ hcut⟩
  obtain ⟨hdepth, -⟩ := parse_eq_ok_iff_depth.mp hs
  refine ⟨hdepth, ?_⟩
  split
  next hle => exact parse_eq_ok_iff_depth.mpr ⟨hle, more, hs⟩
  next hlt =>
    refine hcut.resolve_left fun he => hlt ?_
    exact (parse_eq_ok_iff_depth.mp (he.trans hs)).1

/-- The selector `:not(:has(a))`. -/
def nestedTwice : Selector :=
  let only (c : Compound) : Selector := ⟨[⟨[⟨.descendant, c⟩]⟩]⟩
  let inner := only { typeTest := some ⟨none, some "a"⟩ }
  only { pseudoClasses := [⟨.not, .selector (only { pseudoClasses := [⟨.has, .selector inner⟩] })⟩] }

theorem parse_nestedTwice : 1 ≤ 2 ∧ parse 2 ":not(:has(a))" = .ok nestedTwice ∧
    nestedTwice.depth = 2 ∧ parse 1 ":not(:has(a))" = .error (.nestedTooDeep 1) := by
  have hparse : parse 2 ":not(:has(a))" = .ok nestedTwice := by decide +kernel
  have hdepth : nestedTwice.depth = 2 := rfl
  obtain ⟨-, hlimit⟩ := (@parse_of_limit_le 1 2 (by decide) ":not(:has(a))").1 nestedTwice hparse
  rw [hdepth, if_neg (by decide)] at hlimit
  exact ⟨by decide, hparse, hdepth, hlimit⟩

end DocumentQuery
