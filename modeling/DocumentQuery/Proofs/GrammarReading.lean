import DocumentQuery.Proofs.Grammar
import DocumentQuery.SelectorReader

namespace DocumentQuery

/-- A token list whose last token is the end mark. -/
def Cursor.Marked (ts : Cursor) : Prop :=
  ∃ front position, ts = front ++ [⟨.finish, position⟩]

/-- The tokens `front` stand between two places of a token list. -/
def Cursor.Splits (ts : Cursor) (front : List Token) (rest : Cursor) : Prop :=
  ∃ lexemes : List Lexeme, ts = lexemes ++ rest ∧ lexemes.map Lexeme.token = front

namespace Cursor

theorem Marked.ne_nil {ts : Cursor} (h : ts.Marked) : ts ≠ [] := by
  obtain ⟨front, position, rfl⟩ := h
  simp

theorem Marked.of_cons {t : Lexeme} {ts : Cursor} (h : Marked (t :: ts))
    (ht : t.token ≠ .finish) : ts.Marked := by
  obtain ⟨front, position, he⟩ := h
  cases front with
  | nil =>
    simp only [List.nil_append, List.cons.injEq] at he
    exact absurd (he.1 ▸ rfl) ht
  | cons u front =>
    obtain ⟨rfl, rfl⟩ := List.cons.inj he
    exact ⟨front, position, rfl⟩

theorem advance_cons {t : Lexeme} {ts : Cursor} (h : ts ≠ []) : advance (t :: ts) = ts := by
  obtain ⟨u, us, rfl⟩ := List.exists_cons_of_ne_nil h
  rfl

/-- Before the end mark the place moves on by one token. -/
theorem Marked.advance {ts : Cursor} (h : ts.Marked) {t : Token} (ht : ts.token = t)
    (hn : t ≠ .finish) : ts.Splits [t] ts.advance ∧ ts.advance.Marked := by
  obtain ⟨u, us, rfl⟩ := List.exists_cons_of_ne_nil h.ne_nil
  have hu : u.token = t := ht
  have hm := h.of_cons (hu ▸ hn)
  rw [advance_cons hm.ne_nil]
  exact ⟨⟨[u], rfl, by simp [hu]⟩, hm⟩

theorem Splits.refl (ts : Cursor) : ts.Splits [] ts :=
  ⟨[], rfl, rfl⟩

theorem Splits.trans {a b c : Cursor} {front more : List Token} (h : a.Splits front b)
    (hm : b.Splits more c) : a.Splits (front ++ more) c := by
  obtain ⟨xs, rfl, rfl⟩ := h
  obtain ⟨ys, rfl, rfl⟩ := hm
  exact ⟨xs ++ ys, by simp, by simp⟩

theorem splits_append {a c : Cursor} {front more : List Token} :
    a.Splits (front ++ more) c ↔ ∃ b : Cursor, a.Splits front b ∧ b.Splits more c := by
  constructor
  · rintro ⟨xs, rfl, he⟩
    obtain ⟨ys, zs, rfl, rfl, rfl⟩ := List.map_eq_append_iff.mp he
    exact ⟨zs ++ c, ⟨ys, by simp, rfl⟩, ⟨zs, rfl, rfl⟩⟩
  · rintro ⟨b, h, hm⟩
    exact h.trans hm

theorem Splits.cons {a c : Cursor} {t : Token} {more : List Token} (h : a.Splits (t :: more) c)
    (hc : c ≠ []) : a.token = t ∧ a.advance.Splits more c := by
  obtain ⟨xs, rfl, he⟩ := h
  obtain ⟨u, us, rfl, rfl, rfl⟩ := List.map_eq_cons_iff.mp he
  refine ⟨rfl, ?_⟩
  rw [List.cons_append, advance_cons (by simp [hc])]
  exact ⟨us, rfl, rfl⟩

theorem Splits.eq_of_nil {a c : Cursor} (h : a.Splits [] c) : a = c := by
  obtain ⟨xs, rfl, he⟩ := h
  rw [List.map_eq_nil_iff.mp he, List.nil_append]

theorem Splits.length_le {a c : Cursor} {front : List Token} (h : a.Splits front c) :
    a.length = front.length + c.length := by
  obtain ⟨xs, rfl, rfl⟩ := h
  simp

end Cursor

namespace TokenReader

variable {α β : Type} {source : String} {ts rest : Cursor}

theorem bind_eq_ok {x : TokenReader α} {f : α → TokenReader β} {b : β} :
    (x >>= f) ts = .ok b rest ↔ ∃ a mid, x ts = .ok a mid ∧ f a mid = .ok b rest := by
  change EStateM.bind x f ts = .ok b rest ↔ _
  unfold EStateM.bind
  cases x ts with
  | ok a mid =>
    refine ⟨fun h => ⟨a, mid, rfl, h⟩, ?_⟩
    rintro ⟨a', mid', he, h⟩
    cases he
    exact h
  | error e mid => simp

theorem bind_of_eq_ok {x : TokenReader α} {f : α → TokenReader β} {a : α}
    (h : x ts = .ok a rest) : (x >>= f) ts = f a rest := by
  change EStateM.bind x f ts = f a rest
  unfold EStateM.bind
  rw [h]

theorem bind_eq_error {x : TokenReader α} {f : α → TokenReader β} {e : SelectorError}
    (h : x ts = .error e rest) : (x >>= f) ts = .error e rest := by
  change EStateM.bind x f ts = .error e rest
  unfold EStateM.bind
  rw [h]

theorem bind_peek (f : Token → TokenReader α) : (peek >>= f) ts = f ts.token ts :=
  rfl

theorem bind_advance (f : Unit → TokenReader α) : (advance >>= f) ts = f () ts.advance :=
  rfl

theorem bind_get (f : Cursor → TokenReader α) : (get >>= f) ts = f ts ts :=
  rfl

theorem fail_ne_ok {fault : Fault} {a : α} : (fail source fault : TokenReader α) ts ≠ .ok a rest := by
  intro h
  cases h

theorem unexpected_ne_ok {expected : Expectation} {a : α} :
    (unexpected source expected : TokenReader α) ts ≠ .ok a rest := by
  intro h
  cases h

end TokenReader

open TokenReader

section Soundness

variable {source : String} {ts rest : Cursor}

theorem readTypeName_sound {name : Option String} (hm : ts.Marked)
    (h : readTypeName source ts = .ok name rest) :
    ts.Splits [nameToken name] rest ∧ rest.Marked := by
  unfold readTypeName at h
  rw [bind_peek] at h
  generalize ht : ts.token = t at h
  cases t with
  | ident name =>
    cases h
    exact hm.advance ht (by simp [nameToken])
  | star =>
    cases h
    exact hm.advance ht (by simp [nameToken])
  | _ => exact absurd h unexpected_ne_ok

theorem readQualified_sound {ns : NamespaceTest} {plain typeTest : Option TypeTest}
    (hm : ts.Marked) (h : readQualified source ns plain ts = .ok typeTest rest) :
    (typeTest = plain ∧ ts = rest) ∨
      ∃ name, typeTest = some ⟨some ns, name⟩ ∧ ts.Splits [.bar, nameToken name] rest ∧
        rest.Marked := by
  unfold readQualified at h
  rw [bind_peek] at h
  split at h
  next ht =>
    rw [bind_advance] at h
    obtain ⟨name, mid, hn, h⟩ := bind_eq_ok.mp h
    cases h
    have hb := hm.advance ht (by simp)
    have hr := readTypeName_sound hb.2 hn
    exact Or.inr ⟨name, rfl, hb.1.trans hr.1, hr.2⟩
  next =>
    cases h
    exact Or.inl ⟨rfl, rfl⟩

theorem readTypeTest_sound {typeTest : Option TypeTest} (hm : ts.Marked)
    (h : readTypeTest source ts = .ok typeTest rest) :
    ts.Splits (typeTokens typeTest) rest ∧ rest.Marked := by
  unfold readTypeTest at h
  rw [bind_peek] at h
  generalize ht : ts.token = t at h
  cases t with
  | ident name =>
    have ha := hm.advance ht (by simp)
    rcases readQualified_sound ha.2 h with ⟨rfl, rfl⟩ | ⟨_, rfl, hs, hr⟩
    · exact ha
    · exact ⟨ha.1.trans hs, hr⟩
  | star =>
    have ha := hm.advance ht (by simp)
    rcases readQualified_sound ha.2 h with ⟨rfl, rfl⟩ | ⟨_, rfl, hs, hr⟩
    · exact ha
    · exact ⟨ha.1.trans hs, hr⟩
  | bar =>
    rcases readQualified_sound hm h with ⟨rfl, rfl⟩ | ⟨_, rfl, hs, hr⟩
    · exact ⟨.refl ts, hm⟩
    · exact ⟨hs, hr⟩
  | _ =>
    cases h
    exact ⟨.refl ts, hm⟩

theorem Cursor.Marked.token_advance (hm : ts.Marked) {t : Token} (ht : ts.token = t)
    (hn : t ≠ .finish) : ts.advance.token = ts.following := by
  obtain ⟨u, us, rfl⟩ := List.exists_cons_of_ne_nil hm.ne_nil
  have hu : u.token = t := ht
  rw [Cursor.advance_cons (hm.of_cons (hu ▸ hn)).ne_nil]
  rfl

theorem readAttributeNamespace_sound {ns : Option NamespaceTest} (hm : ts.Marked)
    (h : readAttributeNamespace source ts = .ok ns rest) :
    ts.Splits (namespaceTokens ns) rest ∧ rest.Marked := by
  unfold readAttributeNamespace at h
  rw [bind_peek] at h
  generalize ht : ts.token = t at h
  cases t with
  | ident name =>
    simp only [bind_get] at h
    split at h
    next hf =>
      cases h
      have ha := hm.advance ht (by simp)
      have hb := ha.2.advance ((hm.token_advance ht (by simp)).trans hf) (by simp)
      exact ⟨ha.1.trans hb.1, hb.2⟩
    next =>
      cases h
      exact ⟨.refl ts, hm⟩
  | star =>
    simp only [bind_advance, bind_peek] at h
    have ha := hm.advance ht (by simp)
    split at h
    next hb =>
      cases h
      have hc := ha.2.advance hb (by simp)
      exact ⟨ha.1.trans hc.1, hc.2⟩
    next => exact absurd h unexpected_ne_ok
  | bar =>
    cases h
    exact hm.advance ht (by simp)
  | _ =>
    cases h
    exact ⟨.refl ts, hm⟩

theorem readComparison_sound {op : AttributeOperator} {value : Option String} (hm : ts.Marked)
    (h : readComparison source ts = .ok (op, value) rest) :
    ∃ front, ComparisonDerives front op value ∧ ts.Splits front rest ∧ rest.Marked := by
  unfold readComparison at h
  rw [bind_peek] at h
  generalize ht : ts.token = t at h
  cases t with
  | operator o =>
    have ha := hm.advance ht (by simp)
    simp only [bind_advance, bind_peek] at h
    generalize hv : Cursor.token (Cursor.advance ts) = u at h
    cases u with
    | quoted value =>
      cases h
      have hb := ha.2.advance hv (by simp)
      exact ⟨_, .quoted _ _, ha.1.trans hb.1, hb.2⟩
    | ident value =>
      cases h
      have hb := ha.2.advance hv (by simp)
      exact ⟨_, .ident _ _, ha.1.trans hb.1, hb.2⟩
    | _ => exact absurd h unexpected_ne_ok
  | _ =>
    cases h
    exact ⟨[], .absent, .refl ts, hm⟩

theorem readAttributeTest_sound {test : AttributeTest} (hm : ts.Marked)
    (ht : ts.token = .openBracket) (h : readAttributeTest source ts = .ok test rest) :
    ∃ front, AttributeDerives front test ∧ ts.Splits front rest ∧ rest.Marked := by
  unfold readAttributeTest at h
  rw [bind_advance] at h
  have ha := hm.advance ht (by simp)
  obtain ⟨ns, mid, hn, h⟩ := bind_eq_ok.mp h
  have hb := readAttributeNamespace_sound ha.2 hn
  rw [bind_peek] at h
  generalize hname : Cursor.token mid = t at h
  cases t with
  | ident name =>
    simp only [bind_advance] at h
    have hc := hb.2.advance hname (by simp)
    obtain ⟨⟨op, value⟩, mid', hv, h⟩ := bind_eq_ok.mp h
    obtain ⟨front, hd, hs, hmid⟩ := readComparison_sound hc.2 hv
    rw [bind_peek] at h
    split at h
    next hclose =>
      cases h
      have he := hmid.advance hclose (by simp)
      refine ⟨_, @AttributeDerives.mk _ ⟨ns, name, op, value⟩ hd, ?_, he.2⟩
      simpa using ha.1.trans (hb.1.trans (hc.1.trans (hs.trans he.1)))
    next => exact absurd h unexpected_ne_ok
  | _ => exact absurd h unexpected_ne_ok

/-- What a reader of nested selectors finds in a text. -/
def finds (nested : String → Except SelectorError Selector) (text : String) (s : Selector) : Prop :=
  nested text = .ok s

theorem Compound.isEmpty_add (c : Compound) (test : SimpleTest) :
    (c.add test).isEmpty = false := by
  cases test <;> simp [Compound.add, Compound.isEmpty]

theorem Compound.isEmpty_foldl_add (c : Compound) (tests : List SimpleTest) :
    (tests.foldl Compound.add c).isEmpty = (c.isEmpty && tests.isEmpty) := by
  induction tests generalizing c with
  | nil => simp
  | cons test tests ih => simp [ih, Compound.isEmpty_add]

theorem Compound.isEmpty_collect (typeTest : Option TypeTest) (tests : List SimpleTest) :
    (Compound.collect typeTest tests).isEmpty = false ↔ typeTest.isSome = true ∨ tests ≠ [] := by
  rw [Compound.collect, Compound.isEmpty_foldl_add]
  cases typeTest <;> simp [Compound.isEmpty]

variable {nested : String → Except SelectorError Selector}

theorem argumentOf_none {name : String} {kind : ArgumentKind} {argument : Argument}
    (h : argumentOf nested source name kind none = .ok argument) :
    ArgumentDerives (finds nested) kind none argument := by
  cases kind with
  | none => cases h; exact .none
  | ignored => cases h; exact .ignored none
  | _ => cases h

theorem argumentOf_text (name raw : String) (position : Nat) :
    argumentOf nested source name .text (some (raw, position)) =
      if trimmed raw = "" then .error (.missingValue name) else .ok (.text (trimmed raw)) :=
  rfl

theorem argumentOf_nth (name raw : String) (position : Nat) :
    argumentOf nested source name .nth (some (raw, position)) =
      if trimmed raw = "" then .error (.missingValue name) else .ok (.nth (NthRule.read raw)) :=
  rfl

theorem argumentOf_index (name raw : String) (position : Nat) :
    argumentOf nested source name .index (some (raw, position)) =
      if trimmed raw = "" then .error (.missingValue name)
      else match readWord (trimmed raw).toList with
        | some value => .ok (.index value)
        | none => .error (.malformed source position (.noInteger name (trimmed raw))) := by
  unfold argumentOf
  show (if _ then _ else _) = _
  cases readWord (trimmed raw).toList <;> rfl

theorem argumentOf_selector (name raw : String) (position : Nat) :
    argumentOf nested source name .selector (some (raw, position)) =
      if trimmed raw = "" then .error (.malformed source position (.blankArgument name))
      else (nested (trimmed raw)).map .selector :=
  rfl

theorem argumentOf_some {name raw : String} {position : Nat} {kind : ArgumentKind}
    {argument : Argument}
    (h : argumentOf nested source name kind (some (raw, position)) = .ok argument) :
    ArgumentDerives (finds nested) kind (some raw) argument := by
  cases kind with
  | none => cases h
  | ignored => cases h; exact .ignored _
  | text =>
    rw [argumentOf_text] at h
    split at h
    next => cases h
    next ht => cases h; exact .text ht
  | nth =>
    rw [argumentOf_nth] at h
    split at h
    next => cases h
    next ht => cases h; exact .nth ht
  | index =>
    rw [argumentOf_index] at h
    split at h
    next => cases h
    next ht =>
      split at h
      next hv => cases h; exact .index ht hv
      next => cases h
  | selector =>
    rw [argumentOf_selector] at h
    split at h
    next => cases h
    next ht =>
      cases hs : nested (trimmed raw) with
      | error e => rw [hs] at h; cases h
      | ok s => rw [hs] at h; cases h; exact .selector ht hs

theorem readParentheses_sound {written : Option (String × Nat)} (hm : ts.Marked)
    (h : readParentheses ts = .ok written rest) :
    ts.Splits (argumentTokens (written.map Prod.fst)) rest ∧ rest.Marked := by
  unfold readParentheses at h
  rw [bind_peek] at h
  generalize ht : ts.token = t at h
  cases t with
  | arguments raw =>
    cases h
    exact hm.advance ht (by simp)
  | _ =>
    cases h
    exact ⟨.refl ts, hm⟩

theorem readPseudoClass_sound {name : String} {test : PseudoClass} (hm : ts.Marked)
    (h : readPseudoClass nested source name ts = .ok test rest) :
    ∃ raw, PseudoClassName.ofName? name = some test.name ∧
      ArgumentDerives (finds nested) test.name.argumentKind raw test.argument ∧
      ts.Splits (argumentTokens raw) rest ∧ rest.Marked := by
  unfold readPseudoClass at h
  cases hp : PseudoClassName.ofName? name with
  | none => simp only [hp] at h; cases h
  | some pseudo =>
    simp only [hp] at h
    obtain ⟨written, mid, hw, h⟩ := bind_eq_ok.mp h
    have hr := readParentheses_sound hm hw
    cases ha : argumentOf nested source name pseudo.argumentKind written with
    | error e => simp only [ha] at h; cases h
    | ok argument =>
      simp only [ha] at h
      cases h
      refine ⟨_, rfl, ?_, hr⟩
      cases written with
      | none => exact argumentOf_none ha
      | some w => exact argumentOf_some ha

/-- One simple test is read, or none follows. -/
theorem readSimple_sound {c : Compound} {more : Option Compound} (hm : ts.Marked)
    (h : readSimple nested source c ts = .ok more rest) :
    (more = none ∧ ts = rest) ∨
      ∃ front test, more = some (c.add test) ∧ SimpleDerives (finds nested) front test ∧
        (∀ a b, c.id = some a → test = .id b → a = b) ∧ ts.Splits front rest ∧ rest.Marked := by
  unfold readSimple at h
  rw [bind_peek] at h
  generalize ht : ts.token = t at h
  cases t with
  | idTest id =>
    simp only at h
    split at h
    next => exact absurd h fail_ne_ok
    next hc =>
      cases h
      have ha := hm.advance ht (by simp)
      refine Or.inr ⟨_, .id id, rfl, .id id, ?_, ha⟩
      rintro a b hca hb
      cases hb
      simpa [hca] using hc
  | classTest name =>
    cases h
    exact Or.inr ⟨_, .named name, rfl, .named name, by simp, hm.advance ht (by simp)⟩
  | openBracket =>
    obtain ⟨test, mid, hr, h⟩ := bind_eq_ok.mp h
    cases h
    obtain ⟨front, hd, hs⟩ := readAttributeTest_sound hm ht hr
    exact Or.inr ⟨front, .bracketed test, rfl, .bracketed hd, by simp, hs⟩
  | pseudoClass name =>
    simp only [bind_advance] at h
    obtain ⟨test, mid, hr, h⟩ := bind_eq_ok.mp h
    cases h
    have ha := hm.advance ht (by simp)
    obtain ⟨raw, hn, hd, hs, hmid⟩ := readPseudoClass_sound ha.2 hr
    obtain ⟨pseudo, argument⟩ := test
    exact Or.inr ⟨_, .pseudoClass ⟨pseudo, argument⟩, rfl, .pseudoClass hn hd, by simp,
      ha.1.trans hs, hmid⟩
  | pseudoElement name =>
    simp only [bind_advance] at h
    have ha := hm.advance ht (by simp)
    cases hn : PseudoElement.ofName? name with
    | none => simp only [hn] at h; cases h
    | some test =>
      simp only [hn] at h
      cases h
      exact Or.inr ⟨_, .pseudoElement test, rfl, .pseudoElement hn, by simp, ha⟩
  | _ =>
    cases h
    exact Or.inl ⟨rfl, rfl⟩

/-- Different ids are refused as soon as the second one is met. -/
theorem AgreeOnId.cons {test : SimpleTest} {tests : List SimpleTest} (h : AgreeOnId tests)
    (hi : ∀ a b, test = .id a → .id b ∈ tests → a = b) : AgreeOnId (test :: tests) := by
  intro a b ha hb
  rcases List.mem_cons.mp ha with ha | ha
  · rcases List.mem_cons.mp hb with hb | hb
    · exact SimpleTest.id.inj (ha.trans hb.symm)
    · exact hi a b ha.symm hb
  · rcases List.mem_cons.mp hb with hb | hb
    · exact (hi b a hb.symm ha).symm
    · exact h a b ha hb

theorem readSimples_sound {source : String} {ts rest : Cursor} {c d : Compound} (hm : ts.Marked)
    (h : readSimples nested source c ts = .ok d rest) :
    ∃ front tests, d = tests.foldl Compound.add c ∧ SimplesDerive (finds nested) front tests ∧
      AgreeOnId tests ∧ (∀ a b, c.id = some a → .id b ∈ tests → a = b) ∧
      ts.Splits front rest ∧ rest.Marked := by
  rw [readSimples] at h
  cases hr : readSimple nested source c ts with
  | error e mid => simp only [hr] at h; cases h
  | ok more mid =>
    rcases readSimple_sound hm hr with ⟨rfl, rfl⟩ | ⟨front, test, rfl, hd, hi, hs, hmid⟩
    · simp only [hr] at h
      cases h
      exact ⟨[], [], rfl, .nil, by simp [AgreeOnId], by simp, .refl ts, hm⟩
    · simp only [hr] at h
      split at h
      next hl =>
        obtain ⟨us, tests, rfl, hds, hag, hid, hsp, hrest⟩ := readSimples_sound hmid h
        refine ⟨front ++ us, test :: tests, rfl, .cons hd hds, hag.cons ?_, ?_, hs.trans hsp, hrest⟩
        · rintro a b rfl hb
          exact hid a b rfl hb
        · intro a b ha hb
          rcases List.mem_cons.mp hb with he | ht
          · exact hi a b ha he.symm
          · cases test with
            | id name => exact (hi a name ha rfl).trans (hid name b rfl ht)
            | _ => exact hid a b ha ht
      next => cases h
termination_by ts.length

theorem readCompound_sound {c : Compound} (hm : ts.Marked)
    (h : readCompound nested source ts = .ok c rest) :
    ∃ front, CompoundDerives (finds nested) front c ∧ ts.Splits front rest ∧ rest.Marked := by
  unfold readCompound at h
  obtain ⟨typeTest, mid, ht, h⟩ := bind_eq_ok.mp h
  obtain ⟨hst, hmid⟩ := readTypeTest_sound hm ht
  obtain ⟨d, mid', hs, h⟩ := bind_eq_ok.mp h
  obtain ⟨front, tests, rfl, hd, hag, -, hsp, hrest⟩ := readSimples_sound hmid hs
  split at h
  next => exact absurd h unexpected_ne_ok
  next he =>
    cases h
    have hn := (Compound.isEmpty_collect typeTest tests).mp (Bool.eq_false_iff.mpr he)
    exact ⟨_, .mk hd hag hn, hst.trans hsp, hrest⟩

theorem readSteps_sound {source : String} {ts rest : Cursor} {k : Combinator} {steps : List Step}
    (hm : ts.Marked) (h : readSteps nested source k ts = .ok steps rest) :
    ∃ front, StepsDerive (finds nested) k front steps ∧ ts.Splits front rest ∧ rest.Marked := by
  rw [readSteps] at h
  cases hc : readCompound nested source ts with
  | error e mid => simp only [hc] at h; cases h
  | ok c mid =>
    obtain ⟨front, hd, hs, hmid⟩ := readCompound_sound hm hc
    simp only [hc] at h
    split at h
    next next hk =>
      split at h
      next hl =>
        split at h
        next more after hr =>
          cases h
          have ha := hmid.advance hk (by simp)
          obtain ⟨us, hds, hsp, hrest⟩ := readSteps_sound ha.2 hr
          exact ⟨_, .next hd hds, hs.trans (ha.1.trans hsp), hrest⟩
        next => cases h
      next => cases h
    next =>
      cases h
      exact ⟨front, .last hd, hs, hmid⟩
termination_by ts.length

theorem readGroup_sound {g : Group} (hm : ts.Marked) (h : readGroup nested source ts = .ok g rest) :
    ∃ front, GroupDerives (finds nested) front g ∧ ts.Splits front rest ∧ rest.Marked := by
  unfold readGroup at h
  rw [bind_peek] at h
  generalize ht : ts.token = t at h
  cases t with
  | combinator k =>
    simp only [bind_advance] at h
    obtain ⟨steps, mid, hs, h⟩ := bind_eq_ok.mp h
    cases h
    have ha := hm.advance ht (by simp)
    obtain ⟨front, hd, hsp, hrest⟩ := readSteps_sound ha.2 hs
    exact ⟨_, .explicit hd, ha.1.trans hsp, hrest⟩
  | _ =>
    obtain ⟨steps, mid, hs, h⟩ := bind_eq_ok.mp h
    cases h
    obtain ⟨front, hd, hsp, hrest⟩ := readSteps_sound hm hs
    exact ⟨_, .implicit hd, hsp, hrest⟩

theorem readGroups_sound {source : String} {ts rest : Cursor} {gs : List Group} (hm : ts.Marked)
    (h : readGroups nested source ts = .ok gs rest) :
    ∃ front, GroupsDerive (finds nested) front gs ∧ ts.Splits front rest ∧ rest.Marked := by
  rw [readGroups] at h
  cases hg : readGroup nested source ts with
  | error e mid => simp only [hg] at h; cases h
  | ok g mid =>
    obtain ⟨front, hd, hs, hmid⟩ := readGroup_sound hm hg
    simp only [hg] at h
    split at h
    next hc =>
      split at h
      next hl =>
        split at h
        next more after hr =>
          cases h
          have ha := hmid.advance hc (by simp)
          obtain ⟨us, hds, hsp, hrest⟩ := readGroups_sound ha.2 hr
          exact ⟨_, .next hd hds, hs.trans (ha.1.trans hsp), hrest⟩
        next => cases h
      next => cases h
    next =>
      cases h
      exact ⟨front, .last hd, hs, hmid⟩
termination_by ts.length

/-- What is read up to the end mark is derived by the grammar. -/
theorem readSelector_sound {s : Selector} (hm : ts.Marked)
    (h : readSelector nested source ts = .ok s rest) :
    ∃ front, SelectorDerives (finds nested) front s ∧ ts.Splits front rest ∧ rest.Marked ∧
      rest.token = .finish := by
  unfold readSelector at h
  obtain ⟨gs, mid, hg, h⟩ := bind_eq_ok.mp h
  obtain ⟨front, hd, hs, hmid⟩ := readGroups_sound hm hg
  rw [bind_peek] at h
  split at h
  next hf =>
    cases h
    exact ⟨front, hd, hs, hmid, hf⟩
  next => exact absurd h unexpected_ne_ok

end Soundness

/-- Tokens that a type test may begin with or go on with. -/
def Token.isTypePart : Token → Bool
  | .ident _ | .star | .bar => true
  | _ => false

/-- Tokens after a compound. -/
def Token.endsTests : Token → Bool
  | .combinator _ | .comma | .finish => true
  | _ => false

section Completeness

variable {source : String} {ts rest : Cursor}

theorem readTypeName_complete {name : Option String} (h : ts.Splits [nameToken name] rest)
    (hr : rest ≠ []) : readTypeName source ts = .ok name rest := by
  obtain ⟨ht, hs⟩ := h.cons hr
  obtain rfl := hs.eq_of_nil
  unfold readTypeName
  rw [bind_peek, ht]
  cases name <;> rfl

theorem readQualified_complete {ns : NamespaceTest} {plain : Option TypeTest}
    {name : Option String} (h : ts.Splits [.bar, nameToken name] rest) (hr : rest ≠ []) :
    readQualified source ns plain ts = .ok (some ⟨some ns, name⟩) rest := by
  obtain ⟨ht, hs⟩ := h.cons hr
  unfold readQualified
  rw [bind_peek, if_pos ht, bind_advance, bind_eq_ok]
  exact ⟨name, rest, readTypeName_complete hs hr, rfl⟩

theorem readQualified_plain {ns : NamespaceTest} {plain : Option TypeTest} (h : ts.token ≠ .bar) :
    readQualified source ns plain ts = .ok plain ts := by
  unfold readQualified
  rw [bind_peek, if_neg h]
  rfl

theorem readTypeTest_complete {typeTest : Option TypeTest}
    (h : ts.Splits (typeTokens typeTest) rest) (hr : rest ≠ [])
    (hn : rest.token.isTypePart = false) : readTypeTest source ts = .ok typeTest rest := by
  have hbar : rest.token ≠ .bar := by
    intro hb
    simp [hb, Token.isTypePart] at hn
  unfold readTypeTest
  rw [bind_peek]
  match typeTest, h with
  | none, h =>
    obtain rfl := h.eq_of_nil
    generalize Cursor.token ts = t at hn
    cases t <;> first | rfl | cases hn
  | some ⟨none, some name⟩, h =>
    obtain ⟨ht, hs⟩ := h.cons hr
    obtain rfl := hs.eq_of_nil
    simp only [nameToken] at ht
    simp only [ht, bind_advance]
    exact readQualified_plain hbar
  | some ⟨none, none⟩, h =>
    obtain ⟨ht, hs⟩ := h.cons hr
    obtain rfl := hs.eq_of_nil
    simp only [nameToken] at ht
    simp only [ht, bind_advance]
    exact readQualified_plain hbar
  | some ⟨some .any, name⟩, h =>
    obtain ⟨ht, hs⟩ := h.cons hr
    simp only [ht, bind_advance]
    exact readQualified_complete hs hr
  | some ⟨some .without, name⟩, h =>
    obtain ⟨ht, -⟩ := h.cons hr
    simp only [ht]
    exact readQualified_complete h hr
  | some ⟨some (.bound nsPrefix), name⟩, h =>
    obtain ⟨ht, hs⟩ := h.cons hr
    simp only [ht, bind_advance]
    exact readQualified_complete hs hr

theorem Cursor.Splits.token {t : Token} {more : List Token} (h : ts.Splits (t :: more) rest) :
    ts.token = t := by
  obtain ⟨xs, rfl, he⟩ := h
  obtain ⟨x, ys, rfl, hx, -⟩ := List.map_eq_cons_iff.mp he
  exact hx

theorem Cursor.Splits.following {t u : Token} {more : List Token}
    (h : ts.Splits (t :: u :: more) rest) : ts.following = u := by
  obtain ⟨xs, rfl, he⟩ := h
  obtain ⟨x, ys, rfl, -, hy⟩ := List.map_eq_cons_iff.mp he
  obtain ⟨y, zs, rfl, rfl, -⟩ := List.map_eq_cons_iff.mp hy
  rfl

/-- A name counts as a prefix only with a bar after it. -/
theorem readAttributeNamespace_complete {ns : Option NamespaceTest} {name : String} {u : Token}
    {more : List Token} {mid : Cursor} (h : ts.Splits (namespaceTokens ns) mid)
    (hm : mid.Splits (.ident name :: u :: more) rest) (hu : u ≠ .bar) (hr : mid ≠ []) :
    readAttributeNamespace source ts = .ok ns mid := by
  unfold readAttributeNamespace
  rw [bind_peek]
  match ns, h with
  | none, h =>
    obtain rfl := h.eq_of_nil
    simp only [hm.token, bind_get, hm.following, hu, if_false]
    rfl
  | some .any, h =>
    obtain ⟨ht, hs⟩ := h.cons hr
    obtain ⟨hb, hs⟩ := hs.cons hr
    obtain rfl := hs.eq_of_nil
    simp only [ht, bind_advance, bind_peek, hb, if_true]
    rfl
  | some .without, h =>
    obtain ⟨ht, hs⟩ := h.cons hr
    obtain rfl := hs.eq_of_nil
    simp only [ht, bind_advance]
    rfl
  | some (.bound nsPrefix), h =>
    have hf := h.following
    obtain ⟨ht, hs⟩ := h.cons hr
    obtain ⟨-, hs⟩ := hs.cons hr
    obtain rfl := hs.eq_of_nil
    simp only [ht, bind_get, hf, if_true, bind_advance]
    rfl

theorem readComparison_complete {front : List Token} {op : AttributeOperator}
    {value : Option String} (hd : ComparisonDerives front op value) (h : ts.Splits front rest)
    (hr : rest ≠ []) (hn : rest.token = .closeBracket) :
    readComparison source ts = .ok (op, value) rest := by
  unfold readComparison
  rw [bind_peek]
  cases hd with
  | absent =>
    obtain rfl := h.eq_of_nil
    simp only [hn]
    rfl
  | ident op value =>
    obtain ⟨ht, hs⟩ := h.cons hr
    obtain ⟨hv, hs⟩ := hs.cons hr
    obtain rfl := hs.eq_of_nil
    simp only [ht, bind_advance, bind_peek, hv]
    rfl
  | quoted op value =>
    obtain ⟨ht, hs⟩ := h.cons hr
    obtain ⟨hv, hs⟩ := hs.cons hr
    obtain rfl := hs.eq_of_nil
    simp only [ht, bind_advance, bind_peek, hv]
    rfl

theorem ComparisonDerives.exists_cons {front : List Token} {op : AttributeOperator}
    {value : Option String} (hd : ComparisonDerives front op value) :
    ∃ u more, front ++ [.closeBracket] = u :: more ∧ u ≠ .bar := by
  cases hd <;> exact ⟨_, _, rfl, by simp⟩

theorem Cursor.Splits.ne_nil {front : List Token} (h : ts.Splits front rest) (hr : rest ≠ []) :
    ts ≠ [] := by
  obtain ⟨xs, rfl, -⟩ := h
  simp [hr]

theorem readAttributeTest_complete {front : List Token} {test : AttributeTest}
    (hd : AttributeDerives front test) (h : ts.Splits front rest) (hr : rest ≠ []) :
    readAttributeTest source ts = .ok test rest := by
  obtain ⟨hc⟩ := hd
  rename_i cmp
  obtain ⟨-, hs⟩ := h.cons hr
  rw [List.append_assoc] at hs
  obtain ⟨mid, hns, hs⟩ := Cursor.splits_append.mp hs
  obtain ⟨u, more, hu, hub⟩ := hc.exists_cons
  have hfollow : mid.Splits (.ident test.name :: u :: more) rest := by
    rw [← hu]
    exact hs
  have hmid := hfollow.ne_nil hr
  obtain ⟨hname, hs⟩ := hs.cons hr
  obtain ⟨mid', hcmp, hs⟩ := Cursor.splits_append.mp hs
  have hmid' := hs.ne_nil hr
  obtain ⟨hclose, hs⟩ := hs.cons hr
  obtain rfl := hs.eq_of_nil
  unfold readAttributeTest
  rw [bind_advance, bind_eq_ok]
  refine ⟨test.ns, mid, readAttributeNamespace_complete hns hfollow hub hmid, ?_⟩
  simp only [bind_peek, hname, bind_advance, bind_eq_ok]
  refine ⟨_, mid', readComparison_complete hc hcmp hmid' hclose, ?_⟩
  simp only [hclose, if_true]
  rfl

variable {nested : String → Except SelectorError Selector}

theorem argumentOf_complete {name : String} {position : Nat} {kind : ArgumentKind}
    {raw : Option String} {argument : Argument}
    (hd : ArgumentDerives (finds nested) kind raw argument) :
    argumentOf nested source name kind (raw.map (·, position)) = .ok argument := by
  cases hd with
  | none => rfl
  | ignored => rfl
  | text h => simp only [Option.map_some, argumentOf_text, h, if_false]
  | nth h => simp only [Option.map_some, argumentOf_nth, h, if_false]
  | index h hv => simp only [Option.map_some, argumentOf_index, h, if_false, hv]
  | selector h hs =>
    have hs : nested _ = .ok _ := hs
    simp only [Option.map_some, argumentOf_selector, h, if_false, hs]
    rfl

theorem readParentheses_complete {raw : Option String} (h : ts.Splits (argumentTokens raw) rest)
    (hr : rest ≠ []) (hn : ∀ text, rest.token ≠ .arguments text) :
    ∃ position, readParentheses ts = .ok (raw.map (·, position)) rest := by
  unfold readParentheses
  cases raw with
  | none =>
    obtain rfl := h.eq_of_nil
    refine ⟨0, ?_⟩
    rw [bind_peek]
    generalize Cursor.token ts = t at hn
    cases t with
    | arguments raw => exact absurd rfl (hn raw)
    | _ => rfl
  | some raw =>
    obtain ⟨ht, hs⟩ := h.cons hr
    obtain rfl := hs.eq_of_nil
    refine ⟨ts.position, ?_⟩
    rw [bind_peek, ht]
    rfl

theorem readPseudoClass_complete {name : String} {pseudo : PseudoClassName} {raw : Option String}
    {argument : Argument} (hp : PseudoClassName.ofName? name = some pseudo)
    (ha : ArgumentDerives (finds nested) pseudo.argumentKind raw argument)
    (h : ts.Splits (argumentTokens raw) rest) (hr : rest ≠ [])
    (hn : ∀ text, rest.token ≠ .arguments text) :
    readPseudoClass nested source name ts = .ok ⟨pseudo, argument⟩ rest := by
  obtain ⟨position, hw⟩ := readParentheses_complete h hr hn
  unfold readPseudoClass
  simp only [hp, bind_eq_ok]
  refine ⟨_, rest, hw, ?_⟩
  simp only [argumentOf_complete ha]
  rfl

theorem readSimple_complete {c : Compound} {front : List Token} {test : SimpleTest}
    (hd : SimpleDerives (finds nested) front test) (h : ts.Splits front rest) (hr : rest ≠ [])
    (hn : ∀ text, rest.token ≠ .arguments text)
    (hi : ∀ a b, c.id = some a → test = .id b → a = b) :
    readSimple nested source c ts = .ok (some (c.add test)) rest := by
  unfold readSimple
  rw [bind_peek]
  cases hd with
  | id name =>
    obtain ⟨ht, hs⟩ := h.cons hr
    obtain rfl := hs.eq_of_nil
    have hc : ¬(c.id.isSome ∧ c.id ≠ some name) := by
      rintro ⟨hsome, hne⟩
      obtain ⟨a, ha⟩ := Option.isSome_iff_exists.mp hsome
      exact hne (ha.trans (congrArg some (hi a name ha rfl)))
    simp only [ht]
    rw [if_neg hc]
    rfl
  | named name =>
    obtain ⟨ht, hs⟩ := h.cons hr
    obtain rfl := hs.eq_of_nil
    simp only [ht]
    rfl
  | bracketed hd =>
    have ht : ts.token = .openBracket := by
      obtain ⟨hc⟩ := hd
      exact (h.cons hr).1
    simp only [ht, bind_eq_ok]
    exact ⟨_, rest, readAttributeTest_complete hd h hr, rfl⟩
  | pseudoClass hp ha =>
    obtain ⟨ht, hs⟩ := h.cons hr
    simp only [ht, bind_advance, bind_eq_ok]
    exact ⟨_, rest, readPseudoClass_complete hp ha hs hr hn, rfl⟩
  | pseudoElement hp =>
    obtain ⟨ht, hs⟩ := h.cons hr
    obtain rfl := hs.eq_of_nil
    simp only [ht, bind_advance, hp]
    rfl

theorem SimpleDerives.exists_cons {nested : String → Selector → Prop} {front : List Token}
    {test : SimpleTest} (hd : SimpleDerives nested front test) :
    ∃ t more, front = t :: more ∧ t.endsTests = false ∧ t.isTypePart = false ∧
      ∀ text, t ≠ .arguments text := by
  cases hd with
  | bracketed hd =>
    obtain ⟨hc⟩ := hd
    exact ⟨_, _, rfl, rfl, rfl, by simp⟩
  | _ => exact ⟨_, _, rfl, rfl, rfl, by simp⟩

/-- Whatever follows tests, it is neither a part of a type test nor an argument. -/
theorem SimplesDerive.token_of_splits {nested : String → Selector → Prop} {front : List Token}
    {tests : List SimpleTest} (hd : SimplesDerive nested front tests) (h : ts.Splits front rest)
    (hn : rest.token.endsTests = true) :
    ts.token.isTypePart = false ∧ ∀ text, ts.token ≠ .arguments text := by
  cases hd with
  | nil =>
    obtain rfl := h.eq_of_nil
    generalize Cursor.token ts = t at hn
    cases t <;> simp_all [Token.endsTests, Token.isTypePart]
  | cons hd hs =>
    obtain ⟨t, more, rfl, -, ht⟩ := hd.exists_cons
    rw [List.cons_append] at h
    rw [h.token]
    exact ht

theorem readSimple_none {c : Compound} (hn : ts.token.endsTests = true) :
    readSimple nested source c ts = .ok none ts := by
  unfold readSimple
  rw [bind_peek]
  generalize Cursor.token ts = t at hn
  cases t <;> first | rfl | cases hn

theorem readSimples_complete {source : String} {ts rest : Cursor} {c : Compound}
    {front : List Token} {tests : List SimpleTest} (hd : SimplesDerive (finds nested) front tests)
    (h : ts.Splits front rest) (hr : rest ≠ []) (hn : rest.token.endsTests = true)
    (hag : AgreeOnId tests) (hi : ∀ a b, c.id = some a → .id b ∈ tests → a = b) :
    readSimples nested source c ts = .ok (tests.foldl Compound.add c) rest := by
  induction hd generalizing ts c with
  | nil =>
    obtain rfl := h.eq_of_nil
    rw [readSimples, readSimple_none hn]
    rfl
  | @cons front us test tests hd hs ih =>
    obtain ⟨mid, hf, hu⟩ := Cursor.splits_append.mp h
    have htoken := hs.token_of_splits hu hn
    have hread : readSimple nested source c ts = .ok (some (c.add test)) mid :=
      readSimple_complete hd hf (hu.ne_nil hr) htoken.2
        (fun a b ha hb => hi a b ha (hb ▸ List.mem_cons_self))
    have hlen : mid.length < ts.length := by
      obtain ⟨t, more, rfl, -⟩ := hd.exists_cons
      have := hf.length_le
      simp only [List.length_cons] at this
      omega
    rw [readSimples, hread]
    simp only [hlen, if_true]
    refine ih hu (fun a b ha hb => hag a b (List.mem_cons_of_mem _ ha) (List.mem_cons_of_mem _ hb)) ?_
    intro a b ha hb
    cases test with
    | id name => exact Option.some.inj ha ▸ hag name b List.mem_cons_self (List.mem_cons_of_mem _ hb)
    | _ => exact hi a b ha (List.mem_cons_of_mem _ hb)

theorem readCompound_complete {front : List Token} {c : Compound}
    (hd : CompoundDerives (finds nested) front c) (h : ts.Splits front rest) (hr : rest ≠ [])
    (hn : rest.token.endsTests = true) : readCompound nested source ts = .ok c rest := by
  obtain ⟨hs, hag, hne⟩ := hd
  rename_i typeTest us tests
  obtain ⟨mid, ht, hu⟩ := Cursor.splits_append.mp h
  have htoken := hs.token_of_splits hu hn
  unfold readCompound
  refine bind_eq_ok.mpr ⟨typeTest, mid, readTypeTest_complete ht (hu.ne_nil hr) htoken.1, ?_⟩
  refine bind_eq_ok.mpr ⟨Compound.collect typeTest tests, rest,
    readSimples_complete hs hu hr hn hag (by simp), ?_⟩
  rw [(Compound.isEmpty_collect typeTest tests).mpr hne]
  rfl

theorem CompoundDerives.exists_cons {nested : String → Selector → Prop} {front : List Token}
    {c : Compound} (hd : CompoundDerives nested front c) :
    ∃ t more, front = t :: more ∧ t.endsTests = false := by
  obtain ⟨hs, -, hne⟩ := hd
  rename_i typeTest us tests
  match typeTest with
  | some ⟨none, none⟩ => exact ⟨_, _, rfl, rfl⟩
  | some ⟨none, some _⟩ => exact ⟨_, _, rfl, rfl⟩
  | some ⟨some .any, _⟩ => exact ⟨_, _, rfl, rfl⟩
  | some ⟨some .without, _⟩ => exact ⟨_, _, rfl, rfl⟩
  | some ⟨some (.bound _), _⟩ => exact ⟨_, _, rfl, rfl⟩
  | none =>
    cases hs with
    | nil => simp at hne
    | cons hd _ =>
      obtain ⟨t, more, rfl, ht, -⟩ := hd.exists_cons
      exact ⟨t, _, rfl, ht⟩

theorem readSteps_complete {source : String} {ts rest : Cursor} {k : Combinator}
    {front : List Token} {steps : List Step} (hd : StepsDerive (finds nested) k front steps)
    (h : ts.Splits front rest) (hr : rest ≠ []) (hn : rest.token = .comma ∨ rest.token = .finish) :
    readSteps nested source k ts = .ok steps rest := by
  induction hd generalizing ts with
  | @last k front c hc =>
    have hends : rest.token.endsTests = true := by
      rcases hn with hn | hn <;> rw [hn] <;> rfl
    have hread : readCompound nested source ts = .ok c rest := readCompound_complete hc h hr hends
    rw [readSteps, hread]
    rcases hn with hn | hn <;> simp only [hn]
  | @next k next front us c steps hc hs ih =>
    obtain ⟨mid, hf, hu⟩ := Cursor.splits_append.mp h
    obtain ⟨hk, hu'⟩ := hu.cons hr
    have hread : readCompound nested source ts = .ok c mid :=
      readCompound_complete hc hf (hu.ne_nil hr) (by rw [hk]; rfl)
    have hlen : mid.advance.length < ts.length := by
      have h1 := hf.length_le
      have h2 : 0 < front.length := by
        obtain ⟨t, more, rfl, -⟩ := hc.exists_cons
        simp
      have h3 := Cursor.length_advance_le mid
      omega
    rw [readSteps, hread]
    simp only [hk, hlen, if_true, ih hu']

theorem StepsDerive.exists_cons {nested : String → Selector → Prop} {k : Combinator}
    {front : List Token} {steps : List Step} (hd : StepsDerive nested k front steps) :
    ∃ t more, front = t :: more ∧ t.endsTests = false := by
  cases hd with
  | last hc => exact hc.exists_cons
  | next hc hs =>
    obtain ⟨t, more, rfl, ht⟩ := hc.exists_cons
    exact ⟨t, _, rfl, ht⟩

theorem readGroup_complete {front : List Token} {g : Group}
    (hd : GroupDerives (finds nested) front g) (h : ts.Splits front rest) (hr : rest ≠ [])
    (hn : rest.token = .comma ∨ rest.token = .finish) :
    readGroup nested source ts = .ok g rest := by
  unfold readGroup
  rw [bind_peek]
  cases hd with
  | implicit hs =>
    have hread : readSteps nested source .descendant ts = .ok _ rest :=
      readSteps_complete hs h hr hn
    obtain ⟨t, more, rfl, ht⟩ := hs.exists_cons
    rw [h.token]
    cases t with
    | combinator k => cases ht
    | _ => exact bind_eq_ok.mpr ⟨_, rest, hread, rfl⟩
  | explicit hs =>
    obtain ⟨hk, hrest⟩ := h.cons hr
    simp only [hk, bind_advance]
    exact bind_eq_ok.mpr ⟨_, rest, readSteps_complete hs hrest hr hn, rfl⟩

theorem readGroups_complete {source : String} {ts rest : Cursor} {front : List Token}
    {gs : List Group} (hd : GroupsDerive (finds nested) front gs) (h : ts.Splits front rest)
    (hr : rest ≠ []) (hn : rest.token = .finish) : readGroups nested source ts = .ok gs rest := by
  induction hd generalizing ts with
  | last hg =>
    rw [readGroups, readGroup_complete hg h hr (Or.inr hn)]
    simp only [hn]
    rfl
  | next hg hs ih =>
    obtain ⟨mid, hf, hu⟩ := Cursor.splits_append.mp h
    obtain ⟨hk, hu'⟩ := hu.cons hr
    have hlen : mid.advance.length < ts.length := by
      have h1 := hf.length_le
      have h2 := hu.length_le
      have h3 := hu'.length_le
      simp only [List.length_cons] at h2
      omega
    rw [readGroups, readGroup_complete hg hf (hu.ne_nil hr) (Or.inl hk)]
    simp only [hk, hlen, if_true, ih hu']

theorem readSelector_complete {front : List Token} {s : Selector}
    (hd : SelectorDerives (finds nested) front s) (h : ts.Splits front rest) (hr : rest ≠ [])
    (hn : rest.token = .finish) : readSelector nested source ts = .ok s rest := by
  unfold readSelector
  refine bind_eq_ok.mpr ⟨s.groups, rest, readGroups_complete hd h hr hn, ?_⟩
  rw [bind_peek, if_pos hn]
  cases s
  rfl

end Completeness

theorem eq_of_append_singleton_eq {us vs ws : List Token} {x : Token} (hx : x ∉ us)
    (h : us ++ [x] = vs ++ x :: ws) : us = vs := by
  rcases List.append_eq_append_iff.mp h with ⟨as, rfl, he⟩ | ⟨as, rfl, he⟩
  · cases as with
    | nil => simp
    | cons a as => simp at he
  · cases as with
    | nil => simp
    | cons a as =>
      obtain ⟨rfl, -⟩ := List.cons.inj he
      simp at hx

/-- From tokens up to an end mark exactly what the grammar derives from them is read. -/
theorem readSelector_eq_ok_iff {nested : String → Except SelectorError Selector}
    {source : String} {lexemes : List Lexeme} {position : Nat} {s : Selector}
    (hn : .finish ∉ lexemes.map Lexeme.token) :
    (∃ rest, readSelector nested source (lexemes ++ [⟨.finish, position⟩]) = .ok s rest) ↔
      SelectorDerives (finds nested) (lexemes.map Lexeme.token) s := by
  constructor
  · rintro ⟨rest, hr⟩
    obtain ⟨front, hd, ⟨pre, hpre, rfl⟩, hm, hend⟩ := readSelector_sound ⟨lexemes, position, rfl⟩ hr
    obtain ⟨r, more, rfl⟩ := List.exists_cons_of_ne_nil hm.ne_nil
    obtain ⟨r, place⟩ := r
    obtain rfl : r = .finish := hend
    have htokens := congrArg (List.map Lexeme.token) hpre
    simp only [List.map_append, List.map_cons, List.map_nil] at htokens
    rwa [eq_of_append_singleton_eq hn htokens]
  · intro hd
    exact ⟨[⟨.finish, position⟩], readSelector_complete hd ⟨lexemes, rfl, rfl⟩ (by simp) rfl⟩

theorem readText_eq_ok_iff {nested : String → Except SelectorError Selector} {text : String}
    {s : Selector} :
    readText nested text = .ok s ↔
      ∃ us, tokensFrom .outside none (skipBlanks text.toList) = some (us ++ [.finish]) ∧
        SelectorDerives (finds nested) us s := by
  have hstream := tokenize_tokens text
  unfold readText
  cases ht : tokenize text with
  | error e =>
    rw [ht] at hstream
    simp only [Except.toOption, Option.map_none] at hstream
    simp [← hstream, bind, Except.bind]
  | ok ts =>
    rw [ht] at hstream
    simp only [Except.toOption, Option.map_some] at hstream
    obtain ⟨us, hus, hfinish⟩ := exists_append_finish hstream.symm
    obtain ⟨lexemes, ends, rfl, rfl, hends⟩ := List.map_eq_append_iff.mp hus
    obtain ⟨⟨t, position⟩, rfl, rfl⟩ := List.map_eq_singleton_iff.mp hends
    have hiff := @readSelector_eq_ok_iff nested text lexemes position s hfinish
    simp only [← hstream, hus, Option.some.injEq, List.append_cancel_right_eq, exists_eq_left',
      ← hiff, bind, Except.bind]
    constructor
    · intro h
      split at h
      next selector rest hr =>
        cases h
        exact ⟨rest, hr⟩
      next => cases h
    · rintro ⟨rest, hr⟩
      rw [hr]

/-- Reading a text succeeds exactly with the selector that the grammar derives from it. -/
theorem readNested_eq_ok_iff {limit levels : Nat} {text : String} {s : Selector} :
    readNested limit levels text = .ok s ↔ TextDerives levels text s := by
  induction levels generalizing text s with
  | zero => simp [readNested, TextDerives]
  | succ levels ih =>
    have hn : finds (readNested limit levels) = TextDerives levels := by
      funext text s
      exact propext ih
    rw [readNested, readText_eq_ok_iff, hn]
    rfl

theorem parse_eq_ok_iff {limit : Nat} {text : String} {s : Selector} :
    parse limit text = .ok s ↔ TextDerives (limit + 1) text s :=
  @readNested_eq_ok_iff limit (limit + 1) text s

end DocumentQuery
