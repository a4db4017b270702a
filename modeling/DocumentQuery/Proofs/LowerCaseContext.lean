import DocumentQuery.LowerCase
import Mathlib.Data.List.Infix
import Mathlib.Data.List.TakeWhile

namespace DocumentQuery

/-- What a text comes to in lower case where it stands between two others; `before` holds the
characters in front of it, nearest first. -/
def lowerBetween (before after : List Char) : List Char → List Char
  | [] => []
  | c :: cs =>
    (if c = 'Σ' then [lowerSigma before (cs ++ after)] else lowerForm c)
      ++ lowerBetween (c :: before) after cs

/-- Whether every capital sigma of a text keeps its form where the text stands between two
others. -/
def SigmasKept (before text after : List Char) : Prop :=
  ∀ u w, text = u ++ 'Σ' :: w →
    lowerSigma (before ++ u).reverse (w ++ after) = lowerSigma u.reverse w

/-- Whether a text has a capital sigma whose form depends on what surrounds the text: a letter in
front of the text may make it final, or one after the text may keep it from that. -/
def HasOpenSigma (text : List Char) : Prop :=
  ∃ u w, text = u ++ 'Σ' :: w ∧
    (u.all isCaseIgnorable = true ∧ meetsCased w = false ∨
      w.all isCaseIgnorable = true ∧ meetsCased u.reverse = true)

section

variable {before after before' after' cs : List Char}

theorem lowerAfter_append (before cs ds : List Char) :
    lowerAfter before (cs ++ ds) =
      lowerBetween before ds cs ++ lowerAfter (cs.reverse ++ before) ds := by
  induction cs generalizing before with
  | nil => rfl
  | cons c cs ih =>
    have hrest := ih (c :: before)
    rw [List.cons_append, lowerAfter, hrest, lowerBetween, List.append_assoc]
    simp

theorem lowerBetween_nil (before cs : List Char) :
    lowerBetween before [] cs = lowerAfter before cs := by
  have h := lowerAfter_append before cs []
  rw [List.append_nil] at h
  rw [h, lowerAfter, List.append_nil]

theorem lowerBetween_append (before after cs ds : List Char) :
    lowerBetween before after (cs ++ ds) =
      lowerBetween before (ds ++ after) cs ++ lowerBetween (cs.reverse ++ before) after ds := by
  induction cs generalizing before with
  | nil => rfl
  | cons c cs ih =>
    have hrest := ih (c :: before)
    rw [List.cons_append, lowerBetween, hrest, lowerBetween, List.append_assoc]
    simp

/-- What surrounds a text counts for its capital sigmas only. -/
theorem lowerBetween_eq_iff :
    lowerBetween before after cs = lowerBetween before' after' cs ↔
      ∀ u w, cs = u ++ 'Σ' :: w →
        lowerSigma (u.reverse ++ before) (w ++ after) =
          lowerSigma (u.reverse ++ before') (w ++ after') := by
  induction cs generalizing before before' with
  | nil => simp [lowerBetween]
  | cons c cs ih =>
    have hsplit : (∀ u w, c :: cs = u ++ 'Σ' :: w → lowerSigma (u.reverse ++ before) (w ++ after) =
          lowerSigma (u.reverse ++ before') (w ++ after')) ↔
        (c = 'Σ' → lowerSigma before (cs ++ after) = lowerSigma before' (cs ++ after')) ∧
        ∀ u w, cs = u ++ 'Σ' :: w → lowerSigma (u.reverse ++ c :: before) (w ++ after) =
          lowerSigma (u.reverse ++ c :: before') (w ++ after') := by
      constructor
      · intro h
        refine ⟨fun hc => h [] cs (by rw [hc, List.nil_append]), fun u w hu => ?_⟩
        have hcons := h (c :: u) w (by rw [hu, List.cons_append])
        simpa using hcons
      · rintro ⟨hfirst, hlater⟩ u w h
        cases u with
        | nil =>
          obtain ⟨rfl, rfl⟩ := List.cons.inj h
          exact hfirst rfl
        | cons d u =>
          obtain ⟨rfl, hu⟩ := List.cons.inj h
          simpa using hlater u w hu
    rw [hsplit, ← ih, lowerBetween, lowerBetween]
    by_cases hc : c = 'Σ'
    · simp [hc]
    · simp [hc]

theorem sigmasKept_iff {text : List Char} :
    SigmasKept before text after ↔ lowerBetween before.reverse after text = lowerCase text := by
  rw [lowerCase, ← lowerBetween_nil, lowerBetween_eq_iff, SigmasKept]
  simp

theorem lowerCase_append_append (before text after : List Char) :
    lowerCase (before ++ text ++ after) =
      lowerBetween [] (text ++ after) before ++ lowerBetween before.reverse after text ++
        lowerAfter (before ++ text).reverse after := by
  rw [lowerCase, lowerAfter_append, lowerBetween_append]
  simp

/-- Where its sigmas keep their forms, a text is found in lower case at the place where it
stands. -/
theorem infix_lowerCase_of_sigmasKept {text : List Char} (h : SigmasKept before text after) :
    lowerCase text <:+: lowerCase (before ++ text ++ after) := by
  have hplace := lowerCase_append_append before text after
  rw [sigmasKept_iff.mp h] at hplace
  exact ⟨_, _, hplace.symm⟩

end

section

variable {cs : List Char}

theorem meetsCased_of_all (h : cs.all isCaseIgnorable = true) : meetsCased cs = false := by
  have hnone : cs.dropWhile isCaseIgnorable = [] :=
    List.dropWhile_eq_nil_iff.mpr (List.all_eq_true.mp h)
  rw [meetsCased, hnone]
  rfl

theorem meetsCased_append (cs ds : List Char) :
    meetsCased (cs ++ ds) = if cs.all isCaseIgnorable then meetsCased ds else meetsCased cs := by
  unfold meetsCased
  rw [List.dropWhile_append]
  split
  next h =>
    have hall : cs.all isCaseIgnorable = true :=
      List.all_eq_true.mpr (List.dropWhile_eq_nil_iff.mp (List.isEmpty_iff.mp h))
    rw [if_pos hall]
  next h =>
    have hall : ¬cs.all isCaseIgnorable = true := fun ha =>
      h (List.isEmpty_iff.mpr (List.dropWhile_eq_nil_iff.mpr (List.all_eq_true.mp ha)))
    rw [if_neg hall, List.head?_append_of_ne_nil _ (mt List.isEmpty_iff.mpr h)]

theorem isCaseIgnorable_sigma : isCaseIgnorable 'Σ' = false := by
  decide +kernel

theorem meetsCased_sigma (cs : List Char) : meetsCased ('Σ' :: cs) = true := by
  have hcased : isCased 'Σ' = true := by decide +kernel
  simp [meetsCased, isCaseIgnorable_sigma, hcased]

/-- Beyond a sigma nothing counts for the characters on this side of it. -/
theorem meetsCased_append_sigma (front cs ds : List Char) :
    meetsCased (front ++ 'Σ' :: cs) = meetsCased (front ++ 'Σ' :: ds) := by
  rw [meetsCased_append, meetsCased_append, meetsCased_sigma, meetsCased_sigma]

theorem lowerSigma_congr {before after before' after' : List Char}
    (hb : meetsCased before = meetsCased before') (ha : meetsCased after = meetsCased after') :
    lowerSigma before after = lowerSigma before' after' := by
  rw [lowerSigma, hb, ha, ← lowerSigma]

theorem lowerSigma_eq_final {before after : List Char} (hb : meetsCased before = true)
    (ha : meetsCased after = false) : lowerSigma before after = 'ς' := by
  rw [lowerSigma, hb, ha]
  rfl

theorem lowerSigma_eq_plain {before after : List Char}
    (h : meetsCased before = false ∨ meetsCased after = true) :
    lowerSigma before after = 'σ' := by
  rcases h with h | h <;> simp [lowerSigma, h]

end

theorem sigmasKept_of_not_hasOpenSigma {text : List Char} (h : ¬HasOpenSigma text)
    (before after : List Char) : SigmasKept before text after := by
  intro u w htext
  have hfront : u.all isCaseIgnorable = true → meetsCased w = true := by
    intro hu
    by_contra hw
    exact h ⟨u, w, htext, .inl ⟨hu, Bool.eq_false_iff.mpr hw⟩⟩
  have hback : w.all isCaseIgnorable = true → meetsCased u.reverse = false := by
    intro hw
    by_contra hu
    exact h ⟨u, w, htext, .inr ⟨hw, Bool.not_eq_false _ ▸ hu⟩⟩
  have hbefore := meetsCased_append u.reverse before.reverse
  have hafter := meetsCased_append w after
  rw [List.all_reverse] at hbefore
  rw [List.reverse_append]
  by_cases hu : u.all isCaseIgnorable = true
  · -- a cased letter after the sigma decides for the plain form
    have hw := hfront hu
    have hall : ¬w.all isCaseIgnorable = true := fun ha => by
      rw [meetsCased_of_all ha] at hw
      cases hw
    rw [if_neg hall, hw] at hafter
    rw [lowerSigma_eq_plain (.inr hafter), lowerSigma_eq_plain (.inr hw)]
  · rw [if_neg hu] at hbefore
    by_cases hw : w.all isCaseIgnorable = true
    · have hnone := hback hw
      rw [hnone] at hbefore
      rw [lowerSigma_eq_plain (.inl hbefore), lowerSigma_eq_plain (.inl hnone)]
    · rw [if_neg hw] at hafter
      exact lowerSigma_congr hbefore hafter

section

variable {u w : List Char}

/-- A sigma divides the lower case of a text in two. -/
theorem lowerBetween_sigma (before after u w : List Char) :
    lowerBetween before after (u ++ 'Σ' :: w) =
      lowerBetween before ('Σ' :: (w ++ after)) u ++
        lowerSigma (u.reverse ++ before) (w ++ after) ::
          lowerBetween ('Σ' :: (u.reverse ++ before)) after w := by
  rw [lowerBetween_append, lowerBetween]
  simp

/-- What stands beyond the sigma does not count for the part in front of it. -/
theorem lowerBetween_before_sigma (before after after' u : List Char) :
    lowerBetween before ('Σ' :: after) u = lowerBetween before ('Σ' :: after') u := by
  rw [lowerBetween_eq_iff]
  intro v x _
  exact lowerSigma_congr rfl (meetsCased_append_sigma x _ _)

theorem lowerBetween_after_sigma (before before' after w : List Char) :
    lowerBetween ('Σ' :: before) after w = lowerBetween ('Σ' :: before') after w := by
  rw [lowerBetween_eq_iff]
  intro v x _
  exact lowerSigma_congr (meetsCased_append_sigma v.reverse _ _) rfl

/-- Without a sigma in it, a text has the same lower case everywhere. -/
theorem lowerBetween_of_all {cs : List Char} (h : cs.all isCaseIgnorable = true)
    (before after before' after' : List Char) :
    lowerBetween before after cs = lowerBetween before' after' cs := by
  rw [lowerBetween_eq_iff]
  intro u w he
  have hsigma : isCaseIgnorable 'Σ' = true := List.all_eq_true.mp h 'Σ' (by simp [he])
  rw [isCaseIgnorable_sigma] at hsigma
  cases hsigma

theorem lowerCase_sigma (u w : List Char) :
    lowerCase (u ++ 'Σ' :: w) = lowerBetween [] ('Σ' :: w) u ++
      lowerSigma u.reverse w :: lowerBetween ('Σ' :: u.reverse) [] w := by
  rw [lowerCase, ← lowerBetween_nil, lowerBetween_sigma]
  simp

theorem not_infix_of_count_lt {xs ys : List Char} (c : Char) (h : ys.count c < xs.count c) :
    ¬xs <:+: ys := by
  intro hi
  have hle := hi.sublist.count_le c
  omega

/-- A letter in front makes the sigma final, and then the text has a plain sigma too many. -/
theorem not_infix_lowerCase_after_letter (hu : u.all isCaseIgnorable = true)
    (hw : meetsCased w = false) :
    ¬lowerCase (u ++ 'Σ' :: w) <:+: lowerCase ('a' :: (u ++ 'Σ' :: w)) := by
  have hnone : meetsCased u.reverse = false := meetsCased_of_all (by rwa [List.all_reverse])
  have hcased : meetsCased (u.reverse ++ ['a']) = true := by
    rw [meetsCased_append, List.all_reverse, if_pos hu]
    decide +kernel
  have ha : lowerForm 'a' = ['a'] := by decide +kernel
  have hinside : lowerCase ('a' :: (u ++ 'Σ' :: w)) = 'a' :: (lowerBetween [] ('Σ' :: w) u ++
      'ς' :: lowerBetween ('Σ' :: u.reverse) [] w) := by
    have hfront := lowerBetween_of_all hu ['a'] ('Σ' :: w) [] ('Σ' :: w)
    have hback := lowerBetween_after_sigma (u.reverse ++ ['a']) u.reverse [] w
    rw [lowerCase, lowerAfter, if_neg (by decide), ha, ← lowerBetween_nil, lowerBetween_sigma,
      List.append_nil, lowerSigma_eq_final hcased hw, hfront, hback, List.singleton_append]
  apply not_infix_of_count_lt 'σ'
  rw [lowerCase_sigma, lowerSigma_eq_plain (.inl hnone), hinside]
  simp

/-- A letter after the sigma keeps it plain, and then the text has a final sigma too many. -/
theorem not_infix_lowerCase_before_letter (hw : w.all isCaseIgnorable = true)
    (hu : meetsCased u.reverse = true) :
    ¬lowerCase (u ++ 'Σ' :: w) <:+: lowerCase (u ++ 'Σ' :: w ++ ['a']) := by
  have hnone : meetsCased w = false := meetsCased_of_all hw
  have hcased : meetsCased (w ++ ['a']) = true := by
    rw [meetsCased_append, if_pos hw]
    decide +kernel
  have ha : lowerForm 'a' = ['a'] := by decide +kernel
  have hinside : lowerCase (u ++ 'Σ' :: w ++ ['a']) = lowerBetween [] ('Σ' :: w) u ++
      'σ' :: (lowerBetween ('Σ' :: u.reverse) [] w ++ ['a']) := by
    have hfront := lowerBetween_before_sigma [] (w ++ ['a']) w u
    have hback := lowerBetween_of_all hw ('Σ' :: u.reverse) ['a'] ('Σ' :: u.reverse) []
    have hlast (before : List Char) : lowerAfter before ['a'] = ['a'] := by
      rw [lowerAfter, if_neg (by decide), ha]
      rfl
    rw [lowerCase, lowerAfter_append, lowerBetween_sigma, hlast, List.append_nil,
      lowerSigma_eq_plain (.inr hcased), hfront, hback, List.append_assoc, List.cons_append]
  apply not_infix_of_count_lt 'ς'
  rw [lowerCase_sigma, lowerSigma_eq_final hu hnone, hinside]
  simp

/-- A text is found in lower case wherever it stands, unless it has an open sigma. -/
theorem infix_lowerCase_iff {text : List Char} :
    (∀ before after, lowerCase text <:+: lowerCase (before ++ text ++ after)) ↔
      ¬HasOpenSigma text := by
  constructor
  · rintro h ⟨u, w, rfl, ⟨hu, hw⟩ | ⟨hw, hu⟩⟩
    · have hfound := h ['a'] []
      rw [List.append_nil] at hfound
      exact not_infix_lowerCase_after_letter hu hw hfound
    · exact not_infix_lowerCase_before_letter hw hu (h [] ['a'])
  · intro h before after
    exact infix_lowerCase_of_sigmasKept (sigmasKept_of_not_hasOpenSigma h before after)

end

end DocumentQuery
