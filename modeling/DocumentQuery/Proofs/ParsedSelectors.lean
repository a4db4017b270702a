import DocumentQuery.Proofs.NestingLimit

namespace DocumentQuery

/-- The selectors in a selector, each with the number of arguments it stands in: the selector
itself and those that stand as arguments in them. -/
inductive Selector.Nests (s : Selector) : Nat → Selector → Prop where
  | self : s.Nests 0 s
  | argument {k : Nat} {m n : Selector} (h : s.Nests k m) (hn : .selector n ∈ m.arguments) :
      s.Nests (k + 1) n

namespace Selector

variable {s n : Selector} {k levels : Nat}

theorem Nests.shaped (hn : s.Nests k n) (hs : s.Shaped levels) : n.Shaped (levels - k) := by
  induction hn with
  | self => exact hs
  | argument _ hmem ih =>
    obtain ⟨-, -, -, nested⟩ := ih
    simpa [Nat.sub_sub] using nested _ hmem

theorem Nests.add_depth_le (hn : s.Nests k n) : k + n.depth ≤ s.depth := by
  induction hn with
  | self => exact Nat.le_of_eq (Nat.zero_add _)
  | @argument k m n _ hmem ih =>
    have harg : n.depth + 1 ≤ m.depth := depth_le_iff.mp Nat.le.refl _ hmem
    omega

end Selector

/-- A selector that was read is formed as selectors are, and so are all those nested in it, which
go no deeper than the limit. -/
theorem parse_formed {limit : Nat} {text : String} {s : Selector}
    (h : parse limit text = .ok s) :
    s.Formed ∧ s.depth ≤ limit ∧ ∀ k n, s.Nests k n → k + n.depth ≤ limit ∧ n.Formed := by
  have hshaped := (parse_eq_ok_iff.mp h).shaped
  have hdepth := (parse_eq_ok_iff_depth.mp h).1
  refine ⟨hshaped.formed, hdepth, fun k n hn => ⟨?_, (hn.shaped hshaped).formed⟩⟩
  exact Nat.le_trans hn.add_depth_le hdepth

theorem formed_nestedTwice : parse 2 ":not(:has(a))" = .ok nestedTwice ∧
    ∃ n, nestedTwice.Nests 2 n ∧ n.names = ["a"] ∧ n.Formed := by
  have hparse : parse 2 ":not(:has(a))" = .ok nestedTwice := by decide +kernel
  obtain ⟨-, -, hformed⟩ := parse_formed hparse
  have hnests := Selector.Nests.argument (.argument (.self (s := nestedTwice))
    (List.mem_singleton_self _)) (List.mem_singleton_self _)
  exact ⟨hparse, _, hnests, rfl, (hformed 2 _ hnests).2⟩

end DocumentQuery
