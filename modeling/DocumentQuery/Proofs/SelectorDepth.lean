import DocumentQuery.Proofs.DerivedSelectors

namespace DocumentQuery

mutual

/-- On how many levels selectors are nested in a selector. -/
def Selector.depth : Selector → Nat
  | ⟨groups⟩ => groupsDepth groups

def groupsDepth : List Group → Nat
  | [] => 0
  | g :: gs => max g.depth (groupsDepth gs)

def Group.depth : Group → Nat
  | ⟨steps⟩ => stepsDepth steps

def stepsDepth : List Step → Nat
  | [] => 0
  | ⟨_, c⟩ :: ss => max c.depth (stepsDepth ss)

def Compound.depth : Compound → Nat
  | ⟨_, _, _, _, pseudoClasses, _⟩ => pseudoClassesDepth pseudoClasses

def pseudoClassesDepth : List PseudoClass → Nat
  | [] => 0
  | ⟨_, argument⟩ :: ps => max argument.depth (pseudoClassesDepth ps)

def Argument.depth : Argument → Nat
  | .selector nested => nested.depth + 1
  | _ => 0

end

section

variable {levels : Nat}

theorem pseudoClassesDepth_le_iff {ps : List PseudoClass} :
    pseudoClassesDepth ps ≤ levels ↔ ∀ p ∈ ps, p.argument.depth ≤ levels := by
  induction ps with
  | nil => simp [pseudoClassesDepth]
  | cons p ps ih =>
    obtain ⟨name, argument⟩ := p
    rw [pseudoClassesDepth, Nat.max_le, ih, List.forall_mem_cons]

theorem Compound.depth_le_iff {c : Compound} :
    c.depth ≤ levels ↔ ∀ p ∈ c.pseudoClasses, p.argument.depth ≤ levels := by
  obtain ⟨_, _, _, _, ps, _⟩ := c
  rw [depth, pseudoClassesDepth_le_iff]

theorem stepsDepth_le_iff {steps : List Step} :
    stepsDepth steps ≤ levels ↔ ∀ t ∈ steps, t.compound.depth ≤ levels := by
  induction steps with
  | nil => simp [stepsDepth]
  | cons t steps ih =>
    obtain ⟨k, c⟩ := t
    rw [stepsDepth, Nat.max_le, ih, List.forall_mem_cons]

theorem Group.depth_le_iff {g : Group} :
    g.depth ≤ levels ↔ ∀ t ∈ g.steps, t.compound.depth ≤ levels := by
  obtain ⟨steps⟩ := g
  rw [depth, stepsDepth_le_iff]

theorem groupsDepth_le_iff {gs : List Group} :
    groupsDepth gs ≤ levels ↔ ∀ g ∈ gs, g.depth ≤ levels := by
  induction gs with
  | nil => simp [groupsDepth]
  | cons g gs ih => rw [groupsDepth, Nat.max_le, ih, List.forall_mem_cons]

/-- A selector is as deep as the deepest argument in it. -/
theorem Selector.depth_le_iff {s : Selector} :
    s.depth ≤ levels ↔ ∀ a ∈ s.arguments, a.depth ≤ levels := by
  rw [arguments, List.forall_mem_map, pseudoClasses_eq]
  simp only [List.forall_mem_flatMap, ← Compound.depth_le_iff, ← Group.depth_le_iff]
  obtain ⟨gs⟩ := s
  exact groupsDepth_le_iff

end

section

variable {nested other : String → Selector → Prop}

/-- Whether a text that may hold the selector in an argument for one reader of nested selectors
may hold it for another one. -/
def Argument.Carried (nested other : String → Selector → Prop) : Argument → Prop
  | .selector n => ∀ text, nested text n → other text n
  | _ => True

theorem ArgumentDerives.mono {kind : ArgumentKind} {raw : Option String} {a : Argument}
    (h : ArgumentDerives nested kind raw a) (ha : a.Carried nested other) :
    ArgumentDerives other kind raw a := by
  cases h with
  | none => exact .none
  | ignored => exact .ignored raw
  | text ht => exact .text ht
  | nth ht => exact .nth ht
  | index ht hv => exact .index ht hv
  | selector ht hs => exact .selector ht (ha _ hs)

theorem SimpleDerives.mono {ts : List Token} {test : SimpleTest}
    (h : SimpleDerives nested ts test)
    (hp : ∀ p ∈ test.pseudoClasses, p.argument.Carried nested other) :
    SimpleDerives other ts test := by
  cases h with
  | id name => exact .id name
  | named name => exact .named name
  | bracketed h => exact .bracketed h
  | pseudoClass hn ha => exact .pseudoClass hn (ha.mono (hp _ (List.mem_singleton.mpr rfl)))
  | pseudoElement hn => exact .pseudoElement hn

theorem SimplesDerive.mono {ts : List Token} {tests : List SimpleTest}
    (h : SimplesDerive nested ts tests)
    (hp : ∀ test ∈ tests, ∀ p ∈ test.pseudoClasses, p.argument.Carried nested other) :
    SimplesDerive other ts tests := by
  induction h with
  | nil => exact .nil
  | cons h _ ih =>
    obtain ⟨htest, htests⟩ := List.forall_mem_cons.mp hp
    exact .cons (h.mono htest) (ih htests)

theorem CompoundDerives.mono {ts : List Token} {c : Compound} (h : CompoundDerives nested ts c)
    (hp : ∀ p ∈ c.pseudoClasses, p.argument.Carried nested other) :
    CompoundDerives other ts c := by
  obtain ⟨hs, hi, hn⟩ := h
  rw [Compound.collect, Compound.pseudoClasses_foldl, List.nil_append,
    List.forall_mem_flatMap] at hp
  exact .mk (hs.mono hp) hi hn

theorem StepsDerive.mono {k : Combinator} {ts : List Token} {steps : List Step}
    (h : StepsDerive nested k ts steps)
    (hp : ∀ t ∈ steps, ∀ p ∈ t.compound.pseudoClasses, p.argument.Carried nested other) :
    StepsDerive other k ts steps := by
  induction h with
  | last hc => exact .last (hc.mono (List.forall_mem_singleton.mp hp))
  | next hc _ ih =>
    obtain ⟨hfirst, hlater⟩ := List.forall_mem_cons.mp hp
    exact .next (hc.mono hfirst) (ih hlater)

theorem GroupDerives.mono {ts : List Token} {g : Group} (h : GroupDerives nested ts g)
    (hp : ∀ t ∈ g.steps, ∀ p ∈ t.compound.pseudoClasses, p.argument.Carried nested other) :
    GroupDerives other ts g := by
  cases h with
  | implicit h => exact .implicit (h.mono hp)
  | explicit h => exact .explicit (h.mono hp)

theorem GroupsDerive.mono {ts : List Token} {gs : List Group} (h : GroupsDerive nested ts gs)
    (hp : ∀ g ∈ gs, ∀ t ∈ g.steps, ∀ p ∈ t.compound.pseudoClasses,
      p.argument.Carried nested other) : GroupsDerive other ts gs := by
  induction h with
  | last h => exact .last (h.mono (List.forall_mem_singleton.mp hp))
  | next h _ ih =>
    obtain ⟨hfirst, hlater⟩ := List.forall_mem_cons.mp hp
    exact .next (h.mono hfirst) (ih hlater)

theorem SelectorDerives.mono {ts : List Token} {s : Selector} (h : SelectorDerives nested ts s)
    (ha : ∀ a ∈ s.arguments, a.Carried nested other) : SelectorDerives other ts s := by
  rw [Selector.arguments, List.forall_mem_map, Selector.pseudoClasses_eq] at ha
  simp only [List.forall_mem_flatMap] at ha
  exact GroupsDerive.mono h ha

end

namespace TextDerives

variable {levels other : Nat} {text : String} {s : Selector}

/-- A selector that a text means has fewer levels than there are. -/
theorem depth_lt (h : TextDerives levels text s) : s.depth < levels := by
  induction levels generalizing text s with
  | zero => exact h.elim
  | succ levels ih =>
    obtain ⟨ts, -, hd⟩ := h
    refine Nat.lt_succ_of_le (Selector.depth_le_iff.mpr fun a ha => ?_)
    obtain ⟨kind, raw, ha, -⟩ := hd.argument ha
    cases ha with
    | selector _ hn => exact ih hn
    | _ => exact Nat.zero_le levels

/-- What a text means on many levels it means on any levels that are enough for the selector. -/
theorem of_depth_lt (h : TextDerives levels text s) (hs : s.depth < other) :
    TextDerives other text s := by
  induction levels generalizing other text s with
  | zero => exact h.elim
  | succ levels ih =>
    obtain ⟨ts, hlex, hd⟩ := h
    obtain ⟨other, rfl⟩ := Nat.exists_eq_add_one_of_ne_zero (Nat.ne_zero_of_lt hs)
    have hdepth := Selector.depth_le_iff.mp (Nat.le_of_lt_succ hs)
    refine ⟨ts, hlex, hd.mono fun a ha => ?_⟩
    cases a with
    | selector n => exact fun text hn => ih hn (hdepth _ ha)
    | none | text | nth | index => trivial

end TextDerives

/-- Under a limit a text means the selectors that it means at all and that are not deeper. -/
theorem parse_eq_ok_iff_depth {limit : Nat} {text : String} {s : Selector} :
    parse limit text = .ok s ↔ s.depth ≤ limit ∧ ∃ more, parse more text = .ok s := by
  constructor
  · intro h
    exact ⟨Nat.le_of_lt_succ (parse_eq_ok_iff.mp h).depth_lt, limit, h⟩
  · rintro ⟨hs, more, h⟩
    exact parse_eq_ok_iff.mpr ((parse_eq_ok_iff.mp h).of_depth_lt (Nat.lt_succ_of_le hs))

end DocumentQuery
