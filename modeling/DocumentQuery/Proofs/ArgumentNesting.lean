import DocumentQuery.ArgumentText
import DocumentQuery.Proofs.NameText
import DocumentQuery.Proofs.TrimmedText

namespace DocumentQuery

/-- The place after a text that leaves the outermost parenthesis open. -/
def Enclosure.after (e : Enclosure) : List Char → Option Enclosure
  | [] => some e
  | c :: cs => (e.next c).bind fun inside => inside.after cs

theorem Enclosure.after_append {e : Enclosure} {cs ds : List Char} :
    e.after (cs ++ ds) = (e.after cs).bind fun inside => inside.after ds := by
  induction cs generalizing e with
  | nil => rfl
  | cons c cs ih =>
    simp only [List.cons_append, after]
    cases e.next c with
    | none => rfl
    | some inside => exact ih

theorem readArguments_append {e inside : Enclosure} {cs : List Char} (h : e.after cs = some inside)
    (ds : List Char) :
    readArguments e (cs ++ ds) =
      (readArguments inside ds).map fun (raw, rest) => (cs ++ raw, rest) := by
  induction cs generalizing e with
  | nil =>
    cases h
    simp
  | cons c cs ih =>
    obtain ⟨next, hn, h⟩ := Option.bind_eq_some_iff.mp h
    simp only [List.cons_append, readArguments, hn, ih h, Option.map_map]
    rfl

/-- A text that leaves the outermost parenthesis open is not the text of an argument. -/
theorem readArguments_of_after {e inside : Enclosure} {cs : List Char}
    (h : e.after cs = some inside) : readArguments e cs = none := by
  have hr := readArguments_append h []
  rwa [List.append_nil] at hr

theorem after_of_readArguments {e : Enclosure} {cs raw rest : List Char}
    (h : readArguments e cs = some (raw, rest)) : e.after raw = some {} := by
  induction cs generalizing e raw with
  | nil => cases h
  | cons c cs ih =>
    rw [readArguments] at h
    split at h
    next hn =>
      cases h
      rw [(Enclosure.eq_of_next_eq_none hn).2, Enclosure.after]
    next inside hn =>
      obtain ⟨⟨r, s⟩, hr, he⟩ := Option.map_eq_some_iff.mp h
      cases he
      simp only [Enclosure.after, hn]
      exact ih hr

/-- A text that the argument scanner gives back as it is. -/
def ClosedArgument (text : List Char) : Prop :=
  readArguments {} (text ++ [')']) = some (text, [])

theorem closedArgument_iff {text : List Char} :
    ClosedArgument text ↔ Enclosure.after {} text = some {} := by
  refine ⟨after_of_readArguments, fun h => ?_⟩
  rw [ClosedArgument, readArguments_append h]
  simp [readArguments, Enclosure.next]

/-- Further parentheses around a text change nothing in it. -/
theorem Enclosure.next_add {depth : Nat} {quote : Option Char} {escaped : Bool} {c : Char}
    {e : Enclosure} (h : next ⟨depth, quote, escaped⟩ c = some e) (k : Nat) :
    next ⟨depth + k, quote, escaped⟩ c = some ⟨e.depth + k, e.quote, e.escaped⟩ := by
  unfold next at h ⊢
  simp only at h ⊢
  split at h
  next he => cases h; rw [if_pos he]
  next he =>
    rw [if_neg he]
    split at h
    next hb => cases h; rw [if_pos hb]
    next hb =>
      rw [if_neg hb]
      cases quote with
      | some q => cases h; rfl
      | none =>
        simp only at h ⊢
        split at h
        next hq => cases h; rw [if_pos hq]
        next hq =>
          rw [if_neg hq]
          split at h
          next ho =>
            cases h
            rw [if_pos ho, Nat.add_right_comm]
          next ho =>
            rw [if_neg ho]
            split at h
            next hc =>
              rw [if_pos hc]
              cases depth with
              | zero => cases h
              | succ depth =>
                cases h
                rw [Nat.add_right_comm]
            next hc => cases h; rw [if_neg hc]

theorem Enclosure.after_add {depth : Nat} {quote : Option Char} {escaped : Bool} {cs : List Char}
    {e : Enclosure} (h : after ⟨depth, quote, escaped⟩ cs = some e) (k : Nat) :
    after ⟨depth + k, quote, escaped⟩ cs = some ⟨e.depth + k, e.quote, e.escaped⟩ := by
  induction cs generalizing depth quote escaped with
  | nil => cases h; rfl
  | cons c cs ih =>
    obtain ⟨⟨d, q, b⟩, hn, h⟩ := Option.bind_eq_some_iff.mp h
    simp only [after, next_add hn, Option.bind_some]
    exact ih h

/-- A text between quotes and escapes that opens some parentheses more than it closes. -/
def Opens (n : Nat) (cs : List Char) : Prop :=
  ∀ depth, Enclosure.after ⟨depth, none, false⟩ cs = some ⟨depth + n, none, false⟩

theorem Opens.nil : Opens 0 [] := fun _ => rfl

theorem Opens.append {m n : Nat} {cs ds : List Char} (hc : Opens m cs) (hd : Opens n ds) :
    Opens (m + n) (cs ++ ds) := by
  intro depth
  rw [Enclosure.after_append, hc, Option.bind_some, hd, Nat.add_assoc]

theorem Opens.flatMap {α : Type} {text : α → List Char} {xs : List α}
    (h : ∀ x ∈ xs, Opens 0 (text x)) : Opens 0 (xs.flatMap text) := by
  induction xs with
  | nil => exact .nil
  | cons x xs ih =>
    exact (h x List.mem_cons_self).append (ih fun y hy => h y (List.mem_cons_of_mem x hy))

theorem ClosedArgument.opens {text : List Char} (h : ClosedArgument text) : Opens 0 text := by
  intro depth
  have ha := Enclosure.after_add (closedArgument_iff.mp h) depth
  simpa using ha

theorem Opens.closedArgument {text : List Char} (h : Opens 0 text) : ClosedArgument text :=
  closedArgument_iff.mpr (h 0)

/-- A character that stands for itself between parentheses. -/
def isPlain (c : Char) : Bool :=
  !(c == '\\' || c == '"' || c == '\'' || c == '(' || c == ')')

theorem Enclosure.next_of_isPlain {c : Char} (h : isPlain c = true) (depth : Nat) :
    next ⟨depth, none, false⟩ c = some ⟨depth, none, false⟩ := by
  simp only [isPlain, Bool.not_eq_true', Bool.or_eq_false_iff, beq_eq_false_iff_ne] at h
  simp [next, h]

theorem opens_of_isPlain {cs : List Char} (h : cs.all isPlain = true) : Opens 0 cs := by
  intro depth
  induction cs with
  | nil => rfl
  | cons c cs ih =>
    rw [List.all_cons, Bool.and_eq_true] at h
    rw [Enclosure.after, Enclosure.next_of_isPlain h.1, Option.bind_some, ih h.2]

theorem isPlain_of_test {test : Char → Bool}
    (hsigns : ['\\', '"', '\'', '(', ')'].any test = false) {c : Char}
    (h : test c = true) : isPlain c = true := by
  have hne : ∀ sign ∈ ['\\', '"', '\'', '(', ')'], c ≠ sign := by
    rintro sign hs rfl
    exact List.any_eq_false.mp hsigns c hs h
  simpa [isPlain, and_assoc] using hne

theorem isPlain_of_isNameChar {c : Char} (h : isNameChar c = true) : isPlain c = true :=
  isPlain_of_test (by decide) h

theorem opens_escaped (c : Char) : Opens 0 ['\\', c] := by
  intro depth
  simp [Enclosure.after, Enclosure.next]

theorem opens_codeEscape {c : Char} (h : c.toNat < 128) : Opens 0 (codeEscape c) := by
  obtain ⟨hall, -, hne, -⟩ := hexDigits_of_ascii c.toNat h
  obtain ⟨d, ds, he⟩ := List.exists_cons_of_ne_nil hne
  rw [he, List.all_cons, Bool.and_eq_true] at hall
  have hds : (ds ++ [' ']).all isPlain = true := by
    rw [List.all_append, Bool.and_eq_true]
    refine ⟨List.all_eq_true.mpr fun x hx => ?_, by decide⟩
    exact isPlain_of_isNameChar (isNameChar_of_isHexDigit (List.all_eq_true.mp hall.2 x hx))
  have hs : codeEscape c = ['\\', d] ++ (ds ++ [' ']) := by simp [codeEscape, he]
  rw [hs]
  exact (opens_escaped d).append (opens_of_isPlain hds)

theorem SpellsChar.opens {c : Char} {z : List Char} (h : SpellsChar c z) : Opens 0 z := by
  cases h with
  | plain h => exact opens_of_isPlain (by simp [isPlain_of_isNameChar h])
  | code h => exact opens_codeEscape h
  | escaped h hb => exact opens_escaped c

theorem Spells.opens {name text : List Char} (h : Spells name text) : Opens 0 text := by
  induction h with
  | nil => exact .nil
  | cons hc _ ih => exact hc.opens.append ih

theorem opens_quotedText (value : List Char) : Opens 0 (quotedText value) := by
  intro depth
  have hv : ∀ cs : List Char, Enclosure.after ⟨depth, some '"', false⟩ (quotedBody cs) =
      some ⟨depth, none, false⟩ := by
    intro cs
    unfold quotedBody
    induction cs with
    | nil => simp [Enclosure.after, Enclosure.next]
    | cons c cs ih =>
      rw [List.flatMap_cons, List.append_assoc, Enclosure.after_append]
      have hc : Enclosure.after ⟨depth, some '"', false⟩
          (if c = '"' ∨ c = '\\' then ['\\', c] else [c]) = some ⟨depth, some '"', false⟩ := by
        split
        next => simp [Enclosure.after, Enclosure.next]
        next h =>
          obtain ⟨hq, hb⟩ := not_or.mp h
          simp [Enclosure.after, Enclosure.next, hq, hb]
      rw [hc, Option.bind_some, ih]
  simp [quotedText, Enclosure.after, Enclosure.next, hv]

theorem isPlain_of_isWhiteSpace {c : Char} (h : isWhiteSpace c = true) : isPlain c = true :=
  isPlain_of_test (by decide) h

/-- Only the two quotes of the grammar are ever open. -/
def Enclosure.Quoted (e : Enclosure) : Prop :=
  ∀ q ∈ e.quote, q = '"' ∨ q = '\''

theorem Enclosure.Quoted.next {e inside : Enclosure} {c : Char} (h : e.Quoted)
    (hn : e.next c = some inside) : inside.Quoted := by
  obtain ⟨depth, quote, escaped⟩ := e
  unfold Enclosure.next at hn
  split at hn
  next => cases hn; exact h
  next =>
    split at hn
    next => cases hn; exact h
    next =>
      split at hn
      next q hq =>
        cases hn
        intro x hx
        simp only [Option.mem_def] at hx
        split at hx
        next => cases hx
        next => exact h x (hq.trans hx)
      next =>
        split at hn
        next hc => cases hn; intro x hx; cases hx; exact hc
        next =>
          split at hn
          next => cases hn; exact h
          next =>
            split at hn
            next => split at hn <;> cases hn; exact h
            next => cases hn; exact h

theorem Enclosure.Quoted.after {e inside : Enclosure} {cs : List Char} (h : e.Quoted)
    (ha : e.after cs = some inside) : inside.Quoted := by
  induction cs generalizing e with
  | nil => cases ha; exact h
  | cons c cs ih =>
    obtain ⟨next, hn, ha⟩ := Option.bind_eq_some_iff.mp ha
    exact ih (h.next hn) ha

theorem Enclosure.after_whiteSpace {e : Enclosure} (he : e.Quoted) (hn : e.escaped = false)
    {cs : List Char} (h : cs.all isWhiteSpace = true) : e.after cs = some e := by
  induction cs with
  | nil => rfl
  | cons c cs ih =>
    rw [List.all_cons, Bool.and_eq_true] at h
    have hp := isPlain_of_isWhiteSpace h.1
    have hc : e.next c = some e := by
      obtain ⟨depth, quote, escaped⟩ := e
      cases hn
      cases quote with
      | none => exact next_of_isPlain hp depth
      | some q =>
        have hq : c ≠ q := by
          rintro rfl
          rcases he c rfl with rfl | rfl <;> exact absurd hp (by decide)
        have hb : c ≠ '\\' := by
          rintro rfl
          exact absurd hp (by decide)
        simp [next, hq, hb]
    rw [after, hc, Option.bind_some, ih h.2]

/-- Trimming can cut off no more than the white space that a last backslash escapes. -/
theorem after_trim {raw : List Char} (h : ClosedArgument raw) :
    Enclosure.after {} (trim raw) = some {} ∨
      Enclosure.after {} (trim raw) = some { escaped := true } := by
  obtain ⟨front, back, hr, hf, hb⟩ := trim_parts raw
  have hq : Enclosure.Quoted {} := by simp [Enclosure.Quoted]
  rw [closedArgument_iff, hr, Enclosure.after_append, Enclosure.after_append,
    Enclosure.after_whiteSpace hq rfl hf, Option.bind_some] at h
  obtain ⟨e, he, h⟩ := Option.bind_eq_some_iff.mp h
  have heq := hq.after he
  cases hx : e.escaped with
  | false =>
    rw [Enclosure.after_whiteSpace heq hx hb] at h
    rw [← h]
    exact .inl he
  | true =>
    obtain ⟨depth, quote, escaped⟩ := e
    cases hx
    cases back with
    | nil => cases h
    | cons b bs =>
      rw [List.all_cons, Bool.and_eq_true] at hb
      have hn : Enclosure.Quoted ⟨depth, quote, false⟩ := heq
      change Enclosure.after ⟨depth, quote, false⟩ bs = some {} at h
      rw [Enclosure.after_whiteSpace hn rfl hb.2] at h
      cases h
      exact .inr he

/-- A last backslash escapes the parenthesis that would close the argument. -/
theorem opens_dangling {text : List Char}
    (h : Enclosure.after {} text = some { escaped := true }) : Opens 0 (text ++ [')']) := by
  intro depth
  have ha : Enclosure.after ⟨depth, none, false⟩ text = some ⟨depth, none, true⟩ := by
    simpa using Enclosure.after_add h depth
  simp [Enclosure.after_append, ha, Enclosure.after, Enclosure.next]

theorem opens_parenthesized {text : List Char} (h : Opens 0 text) :
    Opens 0 ('(' :: text ++ [')']) := by
  intro depth
  rw [List.cons_append, Enclosure.after]
  simp [Enclosure.next, Enclosure.after_append, h (depth + 1), Enclosure.after]

theorem readArguments_of_opens {text : List Char} (h : Opens 0 text) (rest : List Char) :
    readArguments {} (text ++ ')' :: rest) = some (text, rest) := by
  rw [readArguments_append (h 0)]
  simp [readArguments, Enclosure.next]

/-- The text of an argument is one that ends where its parenthesis closes, and that parenthesis
is the first character after it. -/
theorem readArguments_eq_some_iff {cs raw rest : List Char} :
    readArguments {} cs = some (raw, rest) ↔ cs = raw ++ ')' :: rest ∧ ClosedArgument raw := by
  constructor
  · intro h
    exact ⟨readArguments_eq_some h, closedArgument_iff.mpr (after_of_readArguments h)⟩
  · rintro ⟨rfl, hc⟩
    exact readArguments_of_opens hc.opens rest

end DocumentQuery
