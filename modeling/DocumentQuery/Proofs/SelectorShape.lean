import DocumentQuery.Proofs.ArgumentNesting
import DocumentQuery.SelectorText

namespace DocumentQuery

/-- The names before and after the bar of a qualified name. -/
def NamespaceTest.names : NamespaceTest → List String
  | .bound nsPrefix => [nsPrefix]
  | _ => []

def TypeTest.names (test : TypeTest) : List String :=
  (test.ns.map NamespaceTest.names).getD [] ++ test.name.toList

def AttributeTest.names (test : AttributeTest) : List String :=
  (test.ns.map NamespaceTest.names).getD [] ++ [test.name]

def Compound.names (c : Compound) : List String :=
  (c.typeTest.map TypeTest.names).getD [] ++ c.id.toList ++ c.classes ++
    c.attributes.flatMap AttributeTest.names

namespace Selector

def compounds (s : Selector) : List Compound :=
  s.groups.flatMap fun g => g.steps.map Step.compound

/-- All names of a selector, but not those of selectors nested in it. -/
def names (s : Selector) : List String :=
  s.compounds.flatMap Compound.names

def attributes (s : Selector) : List AttributeTest :=
  s.compounds.flatMap Compound.attributes

def pseudoClasses (s : Selector) : List PseudoClass :=
  s.compounds.flatMap Compound.pseudoClasses

def arguments (s : Selector) : List Argument :=
  s.pseudoClasses.map PseudoClass.argument

theorem mem_compounds {s : Selector} {g : Group} {t : Step} (hg : g ∈ s.groups)
    (ht : t ∈ g.steps) : t.compound ∈ s.compounds :=
  List.mem_flatMap.mpr ⟨g, hg, List.mem_map_of_mem ht⟩

theorem mem_pseudoClasses {s : Selector} {g : Group} {t : Step} {p : PseudoClass}
    (hg : g ∈ s.groups) (ht : t ∈ g.steps) (hp : p ∈ t.compound.pseudoClasses) :
    p ∈ s.pseudoClasses :=
  List.mem_flatMap.mpr ⟨t.compound, mem_compounds hg ht, hp⟩

end Selector

/-- Whether an argument is of the form that a kind asks for. -/
def Argument.suits : Argument → ArgumentKind → Bool
  | .none, .none | .none, .ignored => true
  | .text _, .text | .nth _, .nth | .index _, .index | .selector _, .selector => true
  | _, _ => false

/-- What has to hold of a selector for its text to be a selector text, apart from the selectors
nested in it. -/
structure Selector.Formed (s : Selector) : Prop where
  groups : s.groups ≠ []
  steps : ∀ g ∈ s.groups, g.steps ≠ []
  compounds : ∀ c ∈ s.compounds, c.isEmpty = false
  names : ∀ name ∈ s.names, name ≠ ""
  operators : ∀ test ∈ s.attributes, test.value = none → test.operator = .exactly
  kinds : ∀ p ∈ s.pseudoClasses, p.argument.suits p.name.argumentKind = true
  rules : ∀ rule, .nth rule ∈ s.arguments → ¬(rule.step ≠ 0 ∧ rule.offset = Int64.minValue)
  texts : ∀ text, .text text ∈ s.arguments → text ≠ "" ∧ trimmed text = text

/-- The selectors that a text may mean, where selectors are nested at most so deep. A text
argument may end in a backslash when white space behind it has been cut off. -/
inductive Selector.Shaped : Nat → Selector → Prop where
  | mk {levels : Nat} {s : Selector} (formed : s.Formed)
      (scanned : ∀ text, .text text ∈ s.arguments →
        Enclosure.after {} text.toList = some {} ∨
          Enclosure.after {} text.toList = some { escaped := true })
      (room : ∀ n, .selector n ∈ s.arguments → 0 < levels)
      (nested : ∀ n, .selector n ∈ s.arguments → Shaped (levels - 1) n) : Shaped levels s

/-- Whether a text keeps its meaning when white space is cut off its end: there is none, or it
is the blank that ends a code escape. -/
def KeepsEnd (cs : List Char) : Prop :=
  (∀ c ∈ cs.getLast?, isWhiteSpace c = false) ∨
    ∃ front digit, cs = front ++ [digit, ' '] ∧ isHexDigit digit = true

/-- Whether a text keeps its meaning when it is trimmed. -/
def KeepsEdges (cs : List Char) : Prop :=
  (∀ c ∈ cs.head?, isWhiteSpace c = false) ∧ KeepsEnd cs

/-- Where the written form of a selector has the meaning that it was written for: no name holds
the null character, each text argument ends where its parenthesis closes, and no selector in
parentheses begins or ends in white space of a name. -/
inductive Selector.PrintsBack : Selector → Prop where
  | mk {s : Selector} (names : ∀ name ∈ s.names, '\x00' ∉ name.toList)
      (texts : ∀ text, .text text ∈ s.arguments → ClosedArgument text.toList)
      (edges : ∀ n, .selector n ∈ s.arguments → KeepsEdges n.chars)
      (nested : ∀ n, .selector n ∈ s.arguments → PrintsBack n) : PrintsBack s

/-- Selectors with selectors nested at most so deep whose written form is free of doubt. -/
inductive Selector.WellFormed : Nat → Selector → Prop where
  | mk {levels : Nat} {s : Selector} (formed : s.Formed)
      (names : ∀ name ∈ s.names, '\x00' ∉ name.toList)
      (texts : ∀ text, .text text ∈ s.arguments → ClosedArgument text.toList)
      (edges : ∀ n, .selector n ∈ s.arguments → trimmed n.text = n.text)
      (room : ∀ n, .selector n ∈ s.arguments → 0 < levels)
      (nested : ∀ n, .selector n ∈ s.arguments → WellFormed (levels - 1) n) : WellFormed levels s

namespace Selector

theorem toList_text (s : Selector) : s.text.toList = s.chars := by
  rw [text, String.toList_ofList]

theorem Shaped.formed {levels : Nat} {s : Selector} (h : s.Shaped levels) : s.Formed := by
  obtain ⟨formed⟩ := h
  exact formed

theorem WellFormed.shaped {levels : Nat} {s : Selector} (h : s.WellFormed levels) :
    s.Shaped levels := by
  induction h with
  | mk formed _ texts _ room _ ih =>
    exact .mk formed (fun t ht => .inl (closedArgument_iff.mp (texts t ht))) room ih

theorem WellFormed.printsBack {levels : Nat} {s : Selector} (h : s.WellFormed levels) :
    s.PrintsBack := by
  induction h with
  | mk _ names texts edges _ _ ih =>
    refine .mk names texts (fun n hn => ?_) ih
    have he := trimmed_eq_self_iff.mp (edges n hn)
    rw [toList_text] at he
    obtain ⟨hfirst, hlast⟩ := trim_eq_self_iff.mp he
    exact ⟨hfirst, .inl hlast⟩

end Selector

end DocumentQuery
