import Mathlib.Data.List.Infix
import Mathlib.Data.List.Induction
import DocumentQuery.QueryState

namespace DocumentQuery

/-- What a log of warnings can be called for: to take down a warning, to begin anew, and to say
whether a warning has been taken down. -/
inductive WarningCall where
  | warn (component message : String)
  | clear
  | ask (component message : String)

/-- Whether a warning was given in a list of calls after the log was cleared for the last time. -/
def GivenLately (calls : List WarningCall) (component message : String) : Prop :=
  ∃ before after, calls = before ++ .warn component message :: after ∧ .clear ∉ after

/-- Whether a text holds the two characters that stand between component and message. -/
def HoldsSeparator (text : String) : Prop :=
  [']', ' '] <:+: text.toList

instance (text : String) : Decidable (HoldsSeparator text) :=
  inferInstanceAs (Decidable ([']', ' '] <:+: text.toList))

namespace WarningLog

/-- The log after a call. Questions leave it as it is. -/
def afterCall (log : WarningLog) : WarningCall → WarningLog
  | .warn component message => log.add component message
  | .clear => {}
  | .ask _ _ => log

def afterCalls (log : WarningLog) (calls : List WarningCall) : WarningLog :=
  calls.foldl afterCall log

variable {component message : String}

theorem mem_entries_add {log : WarningLog} {e : String} :
    e ∈ (log.add component message).entries ↔ e = entry component message ∨ e ∈ log.entries := by
  unfold add
  split
  next h =>
    have hm : entry component message ∈ log.entries := by simpa [contains] using h
    constructor
    · exact .inr
    · rintro (rfl | he)
      · exact hm
      · exact he
  next => exact List.mem_cons

theorem afterCalls_concat (log : WarningLog) (calls : List WarningCall) (call : WarningCall) :
    log.afterCalls (calls ++ [call]) = (log.afterCalls calls).afterCall call := by
  simp [afterCalls]

end WarningLog

section

variable {calls : List WarningCall} {component message : String}

theorem not_givenLately_nil : ¬GivenLately [] component message := by
  rintro ⟨before, after, h, -⟩
  simp at h

/-- What a call changes of the warnings given lately. -/
theorem givenLately_concat {call : WarningCall} :
    GivenLately (calls ++ [call]) component message ↔
      call = .warn component message ∨ call ≠ .clear ∧ GivenLately calls component message := by
  constructor
  · rintro ⟨before, after, h, hclear⟩
    rcases List.eq_nil_or_concat after with rfl | ⟨after, last, rfl⟩
    · obtain ⟨-, hlast⟩ := List.append_inj' h rfl
      exact .inl (List.cons.inj hlast).1
    · rw [List.concat_eq_append] at h hclear
      rw [← List.cons_append, ← List.append_assoc] at h
      obtain ⟨hcalls, hlast⟩ := List.append_inj' h rfl
      obtain rfl : call = last := (List.cons.inj hlast).1
      rw [List.mem_append, List.mem_singleton, not_or] at hclear
      exact .inr ⟨Ne.symm hclear.2, before, after, hcalls, hclear.1⟩
  · rintro (rfl | ⟨hne, before, after, rfl, hclear⟩)
    · exact ⟨calls, [], rfl, List.not_mem_nil⟩
    · refine ⟨before, after ++ [call], by simp, ?_⟩
      simp [hclear, Ne.symm hne]

theorem givenLately_singleton {call : WarningCall} :
    GivenLately [call] component message ↔ call = .warn component message := by
  have h := @givenLately_concat [] component message call
  simpa [not_givenLately_nil] using h

end

namespace WarningLog

variable {component message : String}

/-- The log holds the entries of the warnings given lately. -/
theorem mem_entries_afterCalls (calls : List WarningCall) (e : String) :
    e ∈ (({} : WarningLog).afterCalls calls).entries ↔
      ∃ component message, GivenLately calls component message ∧ entry component message = e := by
  induction calls using List.reverseRecOn with
  | nil => simp [afterCalls, not_givenLately_nil]
  | append_singleton calls call ih =>
    rw [afterCalls_concat]
    simp only [givenLately_concat]
    cases call with
    | warn c m =>
      rw [afterCall, mem_entries_add, ih]
      constructor
      · rintro (rfl | ⟨component, message, hgiven, he⟩)
        · exact ⟨c, m, .inl rfl, rfl⟩
        · exact ⟨component, message, .inr ⟨nofun, hgiven⟩, he⟩
      · rintro ⟨component, message, heq | ⟨-, hgiven⟩, he⟩
        · obtain ⟨rfl, rfl⟩ := WarningCall.warn.inj heq
          exact .inl he.symm
        · exact .inr ⟨component, message, hgiven, he⟩
    | clear => simp [afterCall]
    | ask c m => simp [afterCall, ih]

theorem toList_entry (component message : String) :
    (entry component message).toList =
      '[' :: (component.toList ++ ']' :: ' ' :: message.toList) := by
  simp [entry]

/-- Where a separator begins in front of another one, it is that one or lies before it. -/
theorem separator_cases {between ys vs : List Char}
    (h : ']' :: ' ' :: ys = between ++ ']' :: ' ' :: vs) :
    between = [] ∧ ys = vs ∨
      ∃ more, between = ']' :: ' ' :: more ∧ ys = more ++ ']' :: ' ' :: vs := by
  match between with
  | [] =>
    simp only [List.nil_append, List.cons.injEq, true_and] at h
    exact .inl ⟨rfl, h⟩
  | [x] => simp at h
  | x :: y :: more =>
    simp only [List.cons_append, List.cons.injEq] at h
    obtain ⟨rfl, rfl, hys⟩ := h
    exact .inr ⟨more, rfl, hys⟩

/-- Without the separator in a component and a message, their entry is that of no other warning. -/
theorem entry_eq_iff (hc : ¬HoldsSeparator component) (hm : ¬HoldsSeparator message)
    {c m : String} : entry c m = entry component message ↔ c = component ∧ m = message := by
  constructor
  · intro h
    have hlist := congrArg String.toList h
    rw [toList_entry, toList_entry] at hlist
    rcases List.append_eq_append_iff.mp (List.cons.inj hlist).2 with
      ⟨between, hcomponent, hrest⟩ | ⟨between, hcomponent, hrest⟩
    · rcases separator_cases hrest with ⟨rfl, hmessage⟩ | ⟨more, rfl, -⟩
      · rw [List.append_nil] at hcomponent
        exact ⟨String.toList_inj.mp hcomponent.symm, String.toList_inj.mp hmessage⟩
      · exact absurd ⟨c.toList, more, by simp [hcomponent]⟩ hc
    · rcases separator_cases hrest with ⟨rfl, hmessage⟩ | ⟨more, rfl, hmessage⟩
      · rw [List.append_nil] at hcomponent
        exact ⟨String.toList_inj.mp hcomponent, String.toList_inj.mp hmessage.symm⟩
      · exact absurd ⟨more, m.toList, by simp [hmessage]⟩ hm
  · rintro ⟨rfl, rfl⟩
    rfl

/-- With a separator in a component or a message, another warning has the same entry. -/
theorem exists_entry_eq (h : HoldsSeparator component ∨ HoldsSeparator message) :
    ∃ c m, entry c m = entry component message ∧ c ≠ component := by
  rcases h with ⟨us, vs, h⟩ | ⟨us, vs, h⟩
  · refine ⟨String.ofList us, String.ofList (vs ++ ']' :: ' ' :: message.toList), ?_, ?_⟩
    · rw [← String.toList_inj, toList_entry, toList_entry, ← h]
      simp
    · intro he
      have hlength := congrArg List.length (he ▸ h)
      simp at hlength
  · refine ⟨String.ofList (component.toList ++ ']' :: ' ' :: us), String.ofList vs, ?_, ?_⟩
    · rw [← String.toList_inj, toList_entry, toList_entry, ← h]
      simp
    · intro he
      have hlength := congrArg (fun text => text.toList.length) he
      simp at hlength

theorem contains_afterCalls (calls : List WarningCall) (component message : String) :
    (({} : WarningLog).afterCalls calls).contains component message = true ↔
      ∃ c m, GivenLately calls c m ∧ entry c m = entry component message := by
  rw [contains, List.contains_iff_mem, mem_entries_afterCalls]

theorem entry_eq_entry_iff {c m : String} :
    entry c m = entry component message ↔ c ++ "] " ++ m = component ++ "] " ++ message := by
  rw [← String.toList_inj, ← String.toList_inj, toList_entry, toList_entry]
  simp

/-- The log knows a warning by its component and message joined by a separator. So it tells
exactly whether a warning has been given since it was cleared if and only if the separator stands
neither in the component nor in the message. -/
theorem contains_afterCalls_iff (component message : String) :
    (∀ calls, (({} : WarningLog).afterCalls calls).contains component message = true ↔
      ∃ c m, GivenLately calls c m ∧ c ++ "] " ++ m = component ++ "] " ++ message) ∧
    ((∀ calls, (({} : WarningLog).afterCalls calls).contains component message = true ↔
      GivenLately calls component message) ↔
        ¬HoldsSeparator component ∧ ¬HoldsSeparator message) := by
  constructor
  · intro calls
    simp only [contains_afterCalls, entry_eq_entry_iff]
  constructor
  · intro hexact
    rw [← not_or]
    intro hsep
    obtain ⟨c, m, he, hne⟩ := exists_entry_eq hsep
    -- the other warning alone makes the log say that this one was given
    have hgiven : GivenLately [.warn c m] c m := givenLately_singleton.mpr rfl
    have hthis := (hexact [.warn c m]).mp ((contains_afterCalls _ _ _).mpr ⟨c, m, hgiven, he⟩)
    exact hne (WarningCall.warn.inj (givenLately_singleton.mp hthis)).1
  · rintro ⟨hc, hm⟩ calls
    simp only [contains_afterCalls, entry_eq_iff hc hm]
    constructor
    · rintro ⟨c, m, hgiven, rfl, rfl⟩
      exact hgiven
    · intro hgiven
      exact ⟨component, message, hgiven, rfl, rfl⟩

/-- The log takes one warning for another one that was never given. -/
theorem contains_joinedWarning :
    (({} : WarningLog).afterCalls [.warn "A] B" "c"]).contains "A" "B] c" = true ∧
    ¬GivenLately [.warn "A] B" "c"] "A" "B] c" ∧
    ∀ calls, (({} : WarningLog).afterCalls calls).contains "A" "c" = true ↔
      GivenLately calls "A" "c" := by
  have hgiven : GivenLately [.warn "A] B" "c"] "A] B" "c" := givenLately_singleton.mpr rfl
  have hknown := ((contains_afterCalls_iff "A" "B] c").1 _).mpr ⟨_, _, hgiven, rfl⟩
  have hexact := (contains_afterCalls_iff "A" "c").2.mpr (by decide)
  refine ⟨hknown, ?_, hexact⟩
  rw [givenLately_singleton]
  simp

end WarningLog

end DocumentQuery
