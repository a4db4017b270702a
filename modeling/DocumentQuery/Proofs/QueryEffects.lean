import DocumentQuery.Proofs.ForwardSearch
import DocumentQuery.Proofs.ParsedSelectors
import DocumentQuery.Proofs.RelatedRuns
import DocumentQuery.Proofs.WarningRuns

namespace DocumentQuery

open Query

namespace Selector

/-- Whether a pseudo-class stands in a selector or in one nested in it. -/
def Mentions (s : Selector) (name : PseudoClassName) : Prop :=
  ∃ k n, s.Nests k n ∧ ∃ p ∈ n.pseudoClasses, p.name = name

/-- Whether a namespace prefix stands in a selector or in one nested in it. -/
def MentionsPrefix (s : Selector) (nsPrefix : String) : Prop :=
  ∃ k n, s.Nests k n ∧ ∃ c ∈ n.compounds, .bound nsPrefix ∈ c.namespaces

/-- The warnings that a selector is a cause of, where some prefixes are bound for the query. -/
inductive Warns (s : Selector) (prefixes : Bindings) : String → Prop where
  | withoutUserAgent {name : PseudoClassName} (h : s.Mentions name)
      (hstate : name.isUserAgentState = true) : Warns s prefixes name.withoutUserAgent
  | randomAnswer (h : s.Mentions .indeterminate) : Warns s prefixes randomAnswer
  | undeclaredPrefix {nsPrefix : String} (h : s.MentionsPrefix nsPrefix)
      (hfree : prefixes.get? nsPrefix = none) : Warns s prefixes (undeclaredPrefix nsPrefix)

variable {s n : Selector} {prefixes : Bindings} {name : PseudoClassName}

theorem Nests.inside {k : Nat} {m : Selector} (hn : .selector n ∈ s.arguments)
    (h : n.Nests k m) : s.Nests (k + 1) m := by
  induction h with
  | self => exact .argument .self hn
  | argument _ hm ih => exact .argument ih hm

theorem Nests.eq_or_inside {k : Nat} {m : Selector} (h : s.Nests k m) :
    m = s ∨ ∃ n, .selector n ∈ s.arguments ∧ ∃ j, n.Nests j m := by
  induction h with
  | self => exact .inl rfl
  | @argument k m m' _ hm ih =>
    rcases ih with rfl | ⟨n, hn, j, hj⟩
    · exact .inr ⟨m', hm, 0, .self⟩
    · exact .inr ⟨n, hn, j + 1, .argument hj hm⟩

theorem mentions_iff : s.Mentions name ↔ (∃ p ∈ s.pseudoClasses, p.name = name) ∨
    ∃ n, .selector n ∈ s.arguments ∧ n.Mentions name := by
  constructor
  · rintro ⟨k, m, hm, hp⟩
    rcases hm.eq_or_inside with rfl | ⟨n, hn, j, hj⟩
    · exact .inl hp
    · exact .inr ⟨n, hn, j, m, hj, hp⟩
  · rintro (hp | ⟨n, hn, k, m, hm, hp⟩)
    · exact ⟨0, s, .self, hp⟩
    · exact ⟨k + 1, m, hm.inside hn, hp⟩

theorem Mentions.outside (hn : .selector n ∈ s.arguments) (h : n.Mentions name) :
    s.Mentions name :=
  mentions_iff.mpr (.inr ⟨n, hn, h⟩)

theorem MentionsPrefix.outside {nsPrefix : String} (hn : .selector n ∈ s.arguments)
    (h : n.MentionsPrefix nsPrefix) : s.MentionsPrefix nsPrefix := by
  obtain ⟨k, m, hm, hc⟩ := h
  exact ⟨k + 1, m, hm.inside hn, hc⟩

theorem Warns.outside {message : String} (hn : .selector n ∈ s.arguments)
    (h : n.Warns prefixes message) : s.Warns prefixes message := by
  cases h with
  | withoutUserAgent hname hstate => exact .withoutUserAgent (hname.outside hn) hstate
  | randomAnswer hname => exact .randomAnswer (hname.outside hn)
  | undeclaredPrefix hp hfree => exact .undeclaredPrefix (hp.outside hn) hfree

/-- Whether the warnings and the random answers that a selector is a cause of keep related
states related. -/
structure EffectsAlike (R : QueryState → QueryState → Prop) (prefixes : Bindings)
    (random other : Nat → Bool) (s : Selector) : Prop where
  warn : ∀ message, s.Warns prefixes message → WarnsAlike R message
  draw : s.Mentions .indeterminate → Alike R (draw random) (draw other)

variable {R : QueryState → QueryState → Prop} {ctx : QueryContext} {random other : Nat → Bool}

theorem EffectsAlike.argument (h : s.EffectsAlike R prefixes random other)
    (hn : .selector n ∈ s.arguments) : n.EffectsAlike R prefixes random other where
  warn message hm := h.warn message (hm.outside hn)
  draw hname := h.draw (hname.outside hn)

/-- Nothing but the warnings and random answers that a selector is a cause of tells two runs of
its tests apart. -/
theorem EffectsAlike.alike_holds (h : s.EffectsAlike R ctx.prefixes ctx.random other)
    {c : Compound} (hc : c ∈ s.compounds) (x : NodeId) :
    Alike R (c.holds ctx x) (c.holds (ctx.drawingFrom other) x) := by
  induction hd : s.depth using Nat.strong_induction_on generalizing s c x with
  | _ depth ih =>
    refine Compound.alike_holds (fun p hp hfree => ?_) fun p hp => ?_
    · exact h.warn _ (.undeclaredPrefix ⟨0, s, .self, c, hc, hp⟩ hfree)
    obtain ⟨name, argument⟩ := p
    have hmem : ⟨name, argument⟩ ∈ s.pseudoClasses := List.mem_flatMap.mpr ⟨c, hc, hp⟩
    have hname : s.Mentions name := mentions_iff.mpr (.inl ⟨_, hmem, rfl⟩)
    refine QueryContext.alike_pseudoClassHolds (fun hstate => ?_) (fun he => ?_) ?_
    · exact h.warn _ (.withoutUserAgent hname hstate)
    · subst he
      exact ⟨h.warn _ (.randomAnswer hname), h.draw hname⟩
    · cases argument with
      | selector n =>
        have hn : .selector n ∈ s.arguments := List.mem_map_of_mem hmem
        have hdepth : n.depth + 1 ≤ s.depth := depth_le_iff.mp Nat.le.refl _ hn
        refine alike_findsFrom fun g hg t ht y => ?_
        exact ih n.depth (by omega) (h.argument hn) (mem_compounds hg ht) y rfl
      | none | text | nth | index => exact alike_pure false

theorem EffectsAlike.stepsAlike (h : s.EffectsAlike R ctx.prefixes ctx.random other) :
    ∀ g ∈ s.groups, StepsAlike R ctx other g.steps :=
  fun _ hg _ ht x => h.alike_holds (mem_compounds hg ht) x

end Selector

namespace WarningLog

/-- Whether a log holds all that an earlier one held, and beyond that only warnings of some
kind on behalf of selectors. -/
def GrownBy (causes : String → Prop) (earlier later : WarningLog) : Prop :=
  earlier.entries ⊆ later.entries ∧ ∀ e ∈ later.entries,
    e ∈ earlier.entries ∨ ∃ message, causes message ∧ e = entry "Selector" message

variable {causes : String → Prop} {earlier later : WarningLog}

theorem grownBy_self : earlier.GrownBy causes earlier :=
  ⟨List.Subset.refl _, fun _ he => .inl he⟩

theorem GrownBy.add (h : earlier.GrownBy causes later) {message : String} (hm : causes message) :
    earlier.GrownBy causes (later.add "Selector" message) := by
  obtain ⟨hkept, hnew⟩ := h
  refine ⟨fun e he => mem_entries_add.mpr (.inr (hkept he)), fun e he => ?_⟩
  rcases mem_entries_add.mp he with rfl | he
  · exact .inr ⟨message, hm, rfl⟩
  · exact hnew e he

end WarningLog

namespace Selector.EffectsAlike

variable {s : Selector} {prefixes : Bindings} {random other : Nat → Bool}

/-- Without `:indeterminate` nothing is drawn. Nothing is asked of the second run, so that it may
start anywhere and draw from any source. -/
theorem of_not_mentions (h : ¬s.Mentions .indeterminate) (drawn : Nat) :
    s.EffectsAlike (fun st _ => st.drawn = drawn) prefixes random other where
  warn _ _ := fun _ _ hd => ⟨rfl, hd⟩
  draw hname := absurd hname h

/-- Where equally many answers have been drawn, the same ones follow. -/
theorem drawn : s.EffectsAlike (fun st st' => st.drawn = st'.drawn) prefixes random random where
  warn _ _ := fun _ _ hd => ⟨rfl, hd⟩
  draw _ := fun _ _ hd => ⟨congrArg random hd, congrArg Nat.succ hd⟩

/-- A run beside itself: its log grows only by the warnings that the selector is a cause of. -/
theorem grownBy (earlier : WarningLog) :
    s.EffectsAlike (fun st st' => st = st' ∧ earlier.GrownBy (s.Warns prefixes) st.warnings)
      prefixes random random where
  warn _ hm := by
    rintro st _ ⟨rfl, hgrown⟩
    exact ⟨rfl, rfl, hgrown.add hm⟩
  draw _ := by
    rintro st _ ⟨rfl, hgrown⟩
    exact ⟨rfl, rfl, hgrown⟩

end Selector.EffectsAlike

namespace Engine

variable {α : Type}

/-- What a question about a selector may depend on and what it may leave behind: without
`:indeterminate` it draws nothing and has one answer, whatever the random answers; it does not
heed the warnings given before; no warning is lost, and each new one is caused by the selector;
with an unknown node it leaves everything as it was. -/
structure Confined (engine : Engine) (s : Selector)
    (ask : Engine → Query (Except SelectorError α)) : Prop where
  drawless : ¬s.Mentions .indeterminate → ∀ st, ((ask engine).after st).drawn = st.drawn ∧
    ∀ random st', (ask (engine.drawingFrom random)).answer st' = (ask engine).answer st
  unheeding : ∀ (st : QueryState) warnings,
    (ask engine).answer { st with warnings } = (ask engine).answer st ∧
      ((ask engine).after { st with warnings }).drawn = ((ask engine).after st).drawn
  caused : ∀ st : QueryState,
    st.warnings.GrownBy (s.Warns engine.prefixes) ((ask engine).after st).warnings
  refused : ∀ st id, (ask engine).answer st = .error (.unknownNode id) →
    (ask engine).after st = st

variable {engine : Engine} {doc : Document} {s : Selector} {e : SelectorError} {st : QueryState}

/-- A question is confined if only the effects of its selector can tell two of its runs apart. -/
theorem confined_of_alike {ask : Engine → Query (Except SelectorError α)}
    (halike : ∀ R other, s.EffectsAlike R engine.prefixes engine.random other →
      Alike R (ask engine) (ask (engine.drawingFrom other)))
    (hrefused : ∀ st id, (ask engine).answer st = .error (.unknownNode id) →
      (ask engine).after st = st) : engine.Confined s ask where
  drawless hname st := by
    have hsame (random : Nat → Bool) (st' : QueryState) :=
      halike _ random (.of_not_mentions hname st.drawn) st st' rfl
    exact ⟨(hsame engine.random st).2, fun random st' => (hsame random st').1.symm⟩
  unheeding st warnings := halike _ engine.random .drawn { st with warnings } st rfl
  caused st := by
    have hgrown := halike _ engine.random (.grownBy st.warnings) st st
    exact (hgrown ⟨rfl, WarningLog.grownBy_self⟩).2.2
  refused := hrefused

theorem after_find_of_error {scopes : List NodeId}
    (h : (engine.find doc s scopes).answer st = .error e) :
    (engine.find doc s scopes).after st = st := by
  unfold find at h ⊢
  split at h
  next => rfl
  next => cases h

theorem after_matchesNode_of_error {node scope : NodeId}
    (h : (engine.matchesNode doc s node scope).answer st = .error e) :
    (engine.matchesNode doc s node scope).after st = st := by
  unfold matchesNode at h ⊢
  split at h
  next => rfl
  next => cases h

/-- Searches and tests have no effects but those that the constructs of their selector cause. -/
theorem confined_find_and_matchesNode (engine : Engine) (doc : Document) (s : Selector) :
    (∀ scopes, engine.Confined s fun asked => asked.find doc s scopes) ∧
    ∀ node scope, engine.Confined s fun asked => asked.matchesNode doc s node scope := by
  have hsteps {R other} (h : s.EffectsAlike R engine.prefixes engine.random other)
      (scope : NodeId) : ∀ g ∈ s.groups, StepsAlike R (engine.context doc scope) other g.steps :=
    @Selector.EffectsAlike.stepsAlike _ _ (engine.context doc scope) _ h
  constructor
  · intro scopes
    exact confined_of_alike (fun R other h => alike_find scopes (hsteps h))
      fun st id => after_find_of_error
  · intro node scope
    exact confined_of_alike (fun R other h => alike_matchesNode node scope (hsteps h scope))
      fun st id => after_matchesNode_of_error

end Engine

/-- The selectors `:hover` and `p|a, :not(:hover)`. -/
def hovered : Selector :=
  ⟨[⟨[⟨.descendant, { pseudoClasses := [⟨.hover, .none⟩] }⟩]⟩]⟩

def boundOrUnhovered : Selector :=
  let bound : Compound := { typeTest := some ⟨some (.bound "p"), some "a"⟩ }
  let unhovered : Compound := { pseudoClasses := [⟨.not, .selector hovered⟩] }
  ⟨[⟨[⟨.descendant, bound⟩]⟩, ⟨[⟨.descendant, unhovered⟩]⟩]⟩

theorem not_mentions_boundOrUnhovered : ¬boundOrUnhovered.Mentions .indeterminate := by
  have hinner : ¬hovered.Mentions .indeterminate := by
    rw [Selector.mentions_iff]
    rintro (⟨p, hp, he⟩ | ⟨n, hn, -⟩)
    · cases List.mem_singleton.mp hp
      cases he
    · cases List.mem_singleton.mp hn
  rw [Selector.mentions_iff]
  rintro (⟨p, hp, he⟩ | ⟨n, hn, hname⟩)
  · cases List.mem_singleton.mp hp
    cases he
  · cases List.mem_singleton.mp hn
    exact hinner hname

/-- Both groups are warned of, whatever is drawn, and a search from an unknown node is silent. -/
theorem confined_boundOrUnhovered : ¬boundOrUnhovered.Mentions .indeterminate ∧
    (∀ random st, ((({} : Engine).drawingFrom random).matchesNode nestedElements boundOrUnhovered
      1 0).answer st = .ok true) ∧
    ((({} : Engine).matchesNode nestedElements boundOrUnhovered 1 0).after {}).warnings.entries =
      [WarningLog.entry "Selector" PseudoClassName.hover.withoutUserAgent,
        WarningLog.entry "Selector" (undeclaredPrefix "p")] ∧
    (∀ st, (({} : Engine).find nestedElements boundOrUnhovered [3]).answer st =
      .error (.unknownNode 3)) ∧
    ∀ st, (({} : Engine).find nestedElements boundOrUnhovered [3]).after st = st := by
  have hname := not_mentions_boundOrUnhovered
  obtain ⟨hfind, hmatches⟩ :=
    Engine.confined_find_and_matchesNode {} nestedElements boundOrUnhovered
  have hmatch : (({} : Engine).matchesNode nestedElements boundOrUnhovered 1 0).answer {} =
      .ok true := rfl
  have hunknown (st : QueryState) : (({} : Engine).find nestedElements boundOrUnhovered
      [3]).answer st = .error (.unknownNode 3) := rfl
  refine ⟨hname, fun random st => ?_, by decide +kernel, hunknown, fun st => ?_⟩
  · exact (((hmatches 1 0).drawless hname {}).2 random st).trans hmatch
  · exact (hfind [3]).refused st 3 (hunknown st)

end DocumentQuery
