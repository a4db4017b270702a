import DocumentQuery.Proofs.LoneCompounds
import DocumentQuery.Proofs.TreeWalk

namespace DocumentQuery

/-- Whether a node of this kind is a text, a comment or an instruction. -/
def NodeKind.isLeaf : NodeKind → Bool
  | .text _ | .comment _ | .instruction _ _ => true
  | .document | .element _ => false

namespace Document

variable {doc after : Document} {parent child c x y : NodeId}

/-- Whether texts, comments and instructions have no children and only node 0 is a document. -/
structure Regular (doc : Document) : Prop where
  leaves : ∀ ⦃x n⦄, doc.node? x = some n → n.kind.isLeaf = true → n.children = []
  single : ∀ ⦃x n⦄, doc.node? x = some n → n.kind = .document → x = 0

theorem regular_blank : blank.Regular := by
  have hnode : ∀ ⦃x n⦄, blank.node? x = some n → x = 0 ∧ n = { kind := .document } := by
    intro x n hn
    cases x with
    | zero => exact ⟨rfl, (Option.some.inj hn).symm⟩
    | succ x => cases hn
  refine ⟨fun x n hn _ => ?_, fun x n hn _ => (hnode hn).1⟩
  rw [(hnode hn).2]

namespace Regular

theorem alloc (h : doc.Regular) {kind : NodeKind} (hk : kind ≠ .document) :
    (doc.alloc kind).Regular := by
  have hnode : ∀ ⦃x n⦄, (doc.alloc kind).node? x = some n →
      n = { kind } ∨ doc.node? x = some n := by
    intro x n hn
    rw [node?_alloc] at hn
    split at hn
    next => exact .inl (Option.some.inj hn).symm
    next => exact .inr hn
  constructor
  · intro x n hn hleaf
    rcases hnode hn with rfl | hn
    · rfl
    · exact h.leaves hn hleaf
  · intro x n hn hdocument
    rcases hnode hn with rfl | hn
    · exact absurd hdocument hk
    · exact h.single hn hdocument

theorem append (h : doc.Regular) (done : doc.append parent child = some after)
    (hparent : (doc.node? parent).any (fun n => n.kind.isLeaf) = false) : after.Regular := by
  have hnode : ∀ ⦃x n⦄, after.node? x = some n →
      ∃ old, doc.node? x = some old ∧ n = doc.relinked parent child x old := by
    intro x n hn
    rw [node?_append done] at hn
    obtain ⟨old, hold, hn⟩ := Option.map_eq_some_iff.mp hn
    exact ⟨old, hold, hn.symm⟩
  constructor
  · intro x n hn hleaf
    obtain ⟨old, hold, rfl⟩ := hnode hn
    have hne : x ≠ parent := by
      rintro rfl
      rw [hold] at hparent
      cases hparent.symm.trans hleaf
    have hkept : (doc.relinked parent child x old).children = old.children := if_neg hne
    rw [hkept]
    exact h.leaves hold hleaf
  · intro x n hn hdocument
    obtain ⟨old, hold, rfl⟩ := hnode hn
    exact h.single hold hdocument

/-- A new node that is no document may be appended to an element or to a document. -/
theorem grow (h : doc.Regular) {kind : NodeKind} (hk : kind ≠ .document)
    (done : (doc.alloc kind).append parent doc.size = some after)
    (hparent : ((doc.alloc kind).node? parent).any (fun n => n.kind.isLeaf) = false) :
    after.Regular :=
  (h.alloc hk).append done hparent

theorem children_of_text? (h : doc.Regular) {data : String} (hx : doc.text? x = some data) :
    doc.children x = [] := by
  unfold text? at hx
  split at hx
  next hn => rw [children, hn, Option.map_some, Option.getD_some, h.leaves hn rfl]
  next => cases hx

end Regular

theorem text?_of_isElement (h : doc.isElement x = true) : doc.text? x = none := by
  obtain ⟨e, he⟩ := Option.isSome_iff_exists.mp h
  unfold element? at he
  split at he
  next hn => rw [text?, hn]
  next => cases he

/-- The data of a text node, nothing for another node. -/
def ownText (doc : Document) (x : NodeId) : List Char :=
  ((doc.text? x).getD "").toList

theorem textContent_of_none (h : doc.text? x = none) :
    doc.textContent x = (doc.descendants x).flatMap doc.ownText := by
  rw [textContent, h]
  rfl

theorem descendants_of_children (h : doc.children x = []) : doc.descendants x = [] := by
  rw [descendants, h, List.foldr_nil]

namespace Regular

variable (regular : doc.Regular)

include regular

theorem flatMap_ownText (x : NodeId) :
    (x :: doc.descendants x).flatMap doc.ownText = doc.textContent x := by
  rw [List.flatMap_cons]
  cases hx : doc.text? x with
  | none =>
    have hown : doc.ownText x = [] := by
      rw [ownText, hx]
      rfl
    rw [hown, List.nil_append, textContent_of_none hx]
  | some data =>
    rw [descendants_of_children (regular.children_of_text? hx), List.flatMap_nil, List.append_nil,
      ownText, textContent, hx, Option.getD_some]

/-- The text content of a node other than a text is that of its children, one after the other. -/
theorem textContent_eq (linked : doc.Linked) (hx : doc.text? x = none) :
    doc.textContent x = (doc.children x).flatMap doc.textContent := by
  rw [textContent_of_none hx, linked.descendants_eq, List.flatMap_assoc]
  simp only [regular.flatMap_ownText]

theorem textContent_infix_of_child (linked : doc.Linked) (hx : x ∈ doc.children y) :
    doc.textContent x <:+: doc.textContent y := by
  have hy : doc.text? y = none := by
    by_contra htext
    obtain ⟨data, hdata⟩ := Option.ne_none_iff_exists'.mp htext
    rw [regular.children_of_text? hdata] at hx
    cases hx
  -- so the text of `y` is put together from its children, of which `x` is one
  obtain ⟨before, rest, hchildren⟩ := List.append_of_mem hx
  rw [regular.textContent_eq linked hy, hchildren, List.flatMap_append, List.flatMap_cons]
  exact ⟨_, _, List.append_assoc ..⟩

/-- The text content of a node is a part of that of every node above it. -/
theorem textContent_infix (linked : doc.Linked) (h : doc.Below x y) :
    doc.textContent x <:+: doc.textContent y := by
  induction h with
  | single hp => exact regular.textContent_infix_of_child linked (linked.mem_children.mpr hp)
  | tail _ hp ih =>
    exact ih.trans (regular.textContent_infix_of_child linked (linked.mem_children.mpr hp))

/-- A node is empty if none of its children is an element or has text content. -/
theorem isEmptyNode_iff_forall (linked : doc.Linked) : doc.isEmptyNode x = true ↔
    ∀ c ∈ doc.children x, doc.isElement c = false ∧ doc.textContent c = [] := by
  unfold isEmptyNode
  rw [List.all_eq_true]
  refine forall₂_congr fun c hc => ?_
  have hp := linked.mem_children.mp hc
  obtain ⟨⟨kind, above, children, next, previous⟩, hn⟩ :=
    node?_of_contains (decide_eq_true (lt_size_of_parent? hp))
  have hempty : kind.isLeaf = true → doc.text? c = none → doc.textContent c = [] := by
    intro hleaf hnone
    have hchildren : doc.children c = [] := by
      rw [Document.children, hn]
      exact regular.leaves hn hleaf
    rw [regular.textContent_eq linked hnone, hchildren, List.flatMap_nil]
  cases kind with
  | document =>
    -- the only document is node 0, which has no parent
    obtain rfl := regular.single hn rfl
    cases linked.root.symm.trans hp
  | element e => simp [isElement, element?, hn]
  | text data => simp [isElement, element?, textContent, text?, hn]
  | comment data =>
    have hnone : doc.text? c = none := by rw [text?, hn]
    simp [isElement, element?, hn, hempty rfl hnone]
  | instruction target data =>
    have hnone : doc.text? c = none := by rw [text?, hn]
    simp [isElement, element?, hn, hempty rfl hnone]

/-- A node other than a text is empty if it has no element child and no text content. -/
theorem isEmptyNode_iff (linked : doc.Linked) (hx : doc.text? x = none) :
    doc.isEmptyNode x = true ↔ doc.elementChildren x = [] ∧ doc.textContent x = [] := by
  rw [regular.isEmptyNode_iff_forall linked, regular.textContent_eq linked hx, elementChildren,
    List.filter_eq_nil_iff, List.flatMap_eq_nil_iff, ← forall₂_and]
  simp only [Bool.not_eq_true]

end Regular

end Document

namespace Engine

variable {doc : Document}

/-- Where only elements and the document node hold others, text content is put together child by
child. An element is empty if it has no element child and no text content, so it meets no
pseudo-element then; the elements above one that meets a pseudo-element meet it too. -/
theorem textContent_composes (engine : Engine) (built : doc.Built) (regular : doc.Regular) :
    (∀ x, doc.text? x = none → doc.textContent x = (doc.children x).flatMap doc.textContent) ∧
    ∀ scope x, doc.contains scope = true → doc.isElement x = true →
      (∀ argument st,
        engine.matchesAlone doc scope { pseudoClasses := [⟨.empty, argument⟩] } x st = .ok true ↔
          doc.elementChildren x = [] ∧ doc.textContent x = []) ∧
      (∀ argument p st st',
        ¬(engine.matchesAlone doc scope { pseudoClasses := [⟨.empty, argument⟩] } x st =
            .ok true ∧
          engine.matchesAlone doc scope { pseudoElements := [p] } x st' = .ok true)) ∧
      ∀ p st st', engine.matchesAlone doc scope { pseudoElements := [p] } x st = .ok true →
        ∀ y ∈ doc.ancestors x, doc.isElement y = true →
          engine.matchesAlone doc scope { pseudoElements := [p] } y st' = .ok true := by
  have linked := built.linked
  refine ⟨fun x hx => regular.textContent_eq linked hx, fun scope x hscope hx => ?_⟩
  have hempty (argument : Argument) (st : QueryState) :
      engine.matchesAlone doc scope { pseudoClasses := [⟨.empty, argument⟩] } x st = .ok true ↔
        doc.elementChildren x = [] ∧ doc.textContent x = [] := by
    have hasks : PseudoClassName.empty.asksNode = true := rfl
    rw [matchesAlone_pseudoClass_iff hscope hx hasks]
    exact regular.isEmptyNode_iff linked (Document.text?_of_isElement hx)
  refine ⟨hempty, fun argument p st st' h => ?_, fun p st st' hp y hy helement => ?_⟩
  · obtain ⟨he, hp⟩ := h
    have hnot := (matchesAlone_pseudoElement_iff hscope hx p st').mp hp
    exact hnot ((hempty argument st).mp he).2
  · rw [matchesAlone_pseudoElement_iff hscope hx] at hp
    rw [matchesAlone_pseudoElement_iff hscope helement]
    have hpart := regular.textContent_infix linked (linked.mem_ancestors.mp hy)
    intro hnil
    rw [hnil, List.infix_nil] at hpart
    exact hp hpart

end Engine

/-- The document of an element `p` that holds `b` with a text and `i` with an empty text and a
comment. -/
def nestedTexts : Document :=
  let element (tag : String) : NodeKind := .element ⟨tag, none, none, .empty⟩
  ⟨#[{ kind := .document, children := [1] },
    { kind := element "p", parent := some 0, children := [2, 4] },
    { kind := element "b", parent := some 1, children := [3], next := some 4 },
    { kind := .text "x", parent := some 2 },
    { kind := element "i", parent := some 1, children := [5, 6], previous := some 2 },
    { kind := .text "", parent := some 4, next := some 6 },
    { kind := .comment "c", parent := some 4, previous := some 5 }]⟩

theorem built_nestedTexts : nestedTexts.Built := by
  have hp := @Document.Built.grow _ _ 0 .blank (.element ⟨"p", none, none, .empty⟩) (by decide) rfl
  have hb := @Document.Built.grow _ _ 1 hp (.element ⟨"b", none, none, .empty⟩) (by decide) rfl
  have hx := @Document.Built.grow _ _ 2 hb (.text "x") (by decide) rfl
  have hi := @Document.Built.grow _ _ 1 hx (.element ⟨"i", none, none, .empty⟩) (by decide) rfl
  have htext := @Document.Built.grow _ _ 4 hi (.text "") (by decide) rfl
  exact @Document.Built.grow _ _ 4 htext (.comment "c") (by decide) rfl

theorem regular_nestedTexts : nestedTexts.Regular := by
  have hp := @Document.Regular.grow _ _ 0 Document.regular_blank
    (.element ⟨"p", none, none, .empty⟩) nofun rfl rfl
  have hb := @Document.Regular.grow _ _ 1 hp (.element ⟨"b", none, none, .empty⟩) nofun rfl rfl
  have hx := @Document.Regular.grow _ _ 2 hb (.text "x") nofun rfl rfl
  have hi := @Document.Regular.grow _ _ 1 hx (.element ⟨"i", none, none, .empty⟩) nofun rfl rfl
  have htext := @Document.Regular.grow _ _ 4 hi (.text "") nofun rfl rfl
  exact @Document.Regular.grow _ _ 4 htext (.comment "c") nofun rfl rfl

theorem textContent_nestedTexts : nestedTexts.Built ∧ nestedTexts.Regular ∧
    nestedTexts.text? 1 = none ∧ nestedTexts.contains 0 = true ∧
    nestedTexts.textContent 1 = nestedTexts.textContent 2 ++ nestedTexts.textContent 4 ∧
    (∀ st, ({} : Engine).matchesAlone nestedTexts 0 { pseudoClasses := [⟨.empty, .none⟩] } 4 st =
      .ok true) ∧
    (∀ st, ({} : Engine).matchesAlone nestedTexts 0 { pseudoElements := [.firstLine] } 4 st ≠
      .ok true) ∧
    ({} : Engine).matchesAlone nestedTexts 0 { pseudoElements := [.before] } 2 {} = .ok true ∧
    (∀ st, ({} : Engine).matchesAlone nestedTexts 0 { pseudoElements := [.before] } 1 st =
      .ok true) := by
  have hbefore : ({} : Engine).matchesAlone nestedTexts 0 { pseudoElements := [.before] } 2 {} =
      .ok true := by decide +kernel
  obtain ⟨hchildren, helements⟩ :=
    Engine.textContent_composes {} built_nestedTexts regular_nestedTexts
  obtain ⟨hempty, hneither, -⟩ := helements 0 4 rfl rfl
  obtain ⟨-, -, habove⟩ := helements 0 2 rfl rfl
  have hfour (st : QueryState) : ({} : Engine).matchesAlone nestedTexts 0
      { pseudoClasses := [⟨.empty, .none⟩] } 4 st = .ok true :=
    (hempty .none st).mpr ⟨rfl, by decide +kernel⟩
  refine ⟨built_nestedTexts, regular_nestedTexts, rfl, rfl, ?_, hfour,
    fun st hp => hneither .none .firstLine {} st ⟨hfour {}, hp⟩, hbefore,
    fun st => habove .before {} st hbefore 1 (by decide) rfl⟩
  have hparts : nestedTexts.children 1 = [2, 4] := rfl
  rw [hchildren 1 rfl, hparts, List.flatMap_cons, List.flatMap_cons, List.flatMap_nil,
    List.append_nil]

end DocumentQuery
