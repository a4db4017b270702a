import DocumentQuery.Proofs.DocumentRelations

namespace DocumentQuery

namespace Document

variable {doc : Document} {between : List NodeId} {p x y : NodeId}

namespace Linked

/-- A node with a link to a sibling stands among the children of its parent. -/
theorem exists_children_of_sibling (h : doc.Linked)
    (hs : doc.next? x = some y ∨ doc.previous? x = some y) :
    ∃ p before rest, doc.children p = before ++ x :: rest := by
  cases hp : doc.parent? x with
  | none => simp [h.single hp] at hs
  | some p => exact ⟨p, h.exists_children_of_parent hp⟩

/-- The link to the next sibling leads to the node that comes right after among the children of
the parent. -/
theorem next?_eq_some (h : doc.Linked) : doc.next? x = some y ↔ doc.Follows x [] y := by
  constructor
  · intro hn
    obtain ⟨p, before, rest, hc⟩ := h.exists_children_of_sibling (.inl hn)
    rw [(h.siblings hc).1] at hn
    obtain ⟨after, rfl⟩ := List.head?_eq_some_iff.mp hn
    exact ⟨p, before, after, hc⟩
  · rintro ⟨p, before, rest, hc⟩
    exact (h.siblings hc).1

theorem previous?_eq_some (h : doc.Linked) : doc.previous? y = some x ↔ doc.Follows x [] y := by
  constructor
  · intro hn
    obtain ⟨p, before, rest, hc⟩ := h.exists_children_of_sibling (.inr hn)
    rw [(h.siblings hc).2] at hn
    obtain ⟨front, rfl⟩ := List.getLast?_eq_some_iff.mp hn
    exact ⟨p, front, rest, by simpa using hc⟩
  · rintro ⟨p, before, rest, hc⟩
    rw [List.nil_append, List.append_cons] at hc
    rw [(h.siblings hc).2, List.getLast?_concat]

theorem lt_size_of_follows (h : doc.Linked) (hf : doc.Follows x between y) :
    x < doc.size ∧ y < doc.size := by
  obtain ⟨p, before, rest, hc⟩ := hf
  have hin : ∀ c ∈ doc.children p, c < doc.size :=
    fun c hm => lt_size_of_parent? (h.mem_children.mp hm)
  exact ⟨hin x (by simp [hc]), hin y (by simp [hc])⟩

/-- No link leads out of the tree. -/
theorem lt_size_of_link (h : doc.Linked) (hl : doc.parent? x = some y ∨ y ∈ doc.children x ∨
    doc.next? x = some y ∨ doc.previous? x = some y) : x < doc.size ∧ y < doc.size := by
  rcases hl with hp | hc | hn | hn
  · exact ⟨lt_size_of_parent? hp, h.inside hp⟩
  · have hp := h.mem_children.mp hc
    exact ⟨h.inside hp, lt_size_of_parent? hp⟩
  · exact h.lt_size_of_follows (h.next?_eq_some.mp hn)
  · exact (h.lt_size_of_follows (h.previous?_eq_some.mp hn)).symm

end Linked

/-- However a tree was built, its links agree: those to the parents with the children, and those
to the siblings with each other and with the order of the children. The links to the parents end,
and the links to the siblings run through the children on either side. -/
theorem Built.links_agree (built : doc.Built) :
    (∀ c p, doc.parent? c = some p ↔ c ∈ doc.children p) ∧
    (∀ p, ∀ c ∈ doc.children p, (doc.children p).count c = 1) ∧
    (∀ x y, doc.next? x = some y ↔ doc.previous? y = some x) ∧
    (∀ x y, doc.next? x = some y ↔ ∃ p before rest, doc.children p = before ++ x :: y :: rest) ∧
    (∀ x, doc.parent? x = none → doc.next? x = none ∧ doc.previous? x = none ∧
      doc.followingSiblings x = [] ∧ doc.precedingSiblings x = []) ∧
    (∀ x y, doc.parent? x = some y ∨ y ∈ doc.children x ∨ doc.next? x = some y ∨
      doc.previous? x = some y → x < doc.size ∧ y < doc.size) ∧
    (∀ x, doc.Ascent x (doc.ancestors x)) ∧
    ∀ p before x rest, doc.children p = before ++ x :: rest →
      doc.followingSiblings x = rest ∧ doc.precedingSiblings x = before.reverse := by
  have hlinked := built.linked
  refine ⟨fun c p => hlinked.mem_children.symm, ?_, ?_, fun x y => hlinked.next?_eq_some, ?_,
    fun x y => hlinked.lt_size_of_link, hlinked.ascent_ancestors, ?_⟩
  · exact fun p c hc => List.count_eq_one_of_mem (hlinked.nodup p) hc
  · exact fun x y => hlinked.next?_eq_some.trans hlinked.previous?_eq_some.symm
  · intro x hp
    exact ⟨(hlinked.single hp).1, (hlinked.single hp).2, hlinked.siblings_of_single hp⟩
  · exact fun p before x rest hc =>
      ⟨hlinked.followingSiblings_eq hc, hlinked.precedingSiblings_eq hc⟩

end Document

/-- The document without children and so many elements apart. -/
def looseElements : Nat → Document
  | 0 => .blank
  | n + 1 => (looseElements n).alloc (.element ⟨"a", none, none, .empty⟩)

theorem built_looseElements (n : Nat) : (looseElements n).Built := by
  induction n with
  | zero => exact .blank
  | succ n ih => exact ih.alloc _

/-- Elements 1 and 2 below 3, which came below the document node, before its sibling 6, only
after it had got them; apart from them, 4 below 5. -/
def lateBranch : Document :=
  let element (parent : Option NodeId) (children : List NodeId) (previous next : Option NodeId) :
      Node := { kind := .element ⟨"a", none, none, .empty⟩, parent, children, previous, next }
  ⟨#[{ kind := .document, children := [3, 6] }, element (some 3) [] none (some 2),
    element (some 3) [] (some 1) none, element (some 0) [1, 2] none (some 6),
    element (some 5) [] none none, element none [4] none none, element (some 0) [] (some 3) none]⟩

theorem built_lateBranch : lateBranch.Built := by
  have hnodes := built_looseElements 6
  have hfirst := @Document.Built.append _ _ 3 1 hnodes (by decide) rfl (by decide) rfl rfl
  have hsecond := @Document.Built.append _ _ 3 2 hfirst (by decide) rfl (by decide) rfl rfl
  have hbranch := @Document.Built.append _ _ 0 3 hsecond (by decide) rfl (by decide) rfl rfl
  have hapart := @Document.Built.append _ _ 5 4 hbranch (by decide) rfl (by decide) rfl rfl
  exact @Document.Built.append _ _ 0 6 hapart (by decide) rfl (by decide) rfl rfl

theorem links_lateBranch : lateBranch.Built ∧ lateBranch.parent? 2 = some 3 ∧
    lateBranch.next? 3 = some 6 ∧ lateBranch.previous? 6 = some 3 ∧
    lateBranch.followingSiblings 1 = [2] ∧ lateBranch.precedingSiblings 2 = [1] ∧
    lateBranch.Ascent 2 [3, 0] := by
  obtain ⟨hparent, -, hsiblings, hnext, -, -, hascent, hlists⟩ := built_lateBranch.links_agree
  have hthree : lateBranch.next? 3 = some 6 := (hnext 3 6).mpr ⟨0, [], [], rfl⟩
  exact ⟨built_lateBranch, (hparent 2 3).mpr (by decide), hthree, (hsiblings 3 6).mp hthree,
    (hlists 3 [] 1 [2] rfl).1, (hlists 3 [1] 2 [] rfl).2, hascent 2⟩

end DocumentQuery
