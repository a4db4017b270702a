import DocumentQuery.Proofs.SelectorMeaning

namespace DocumentQuery

namespace Query

variable {α β : Type} {p r : Prop}

/-- The answer of a query that starts from a state. -/
def answer (q : Query α) (st : QueryState) : α :=
  (Id.run (q.run st)).1

/-- Whether a query gives only answers of a kind, whatever was asked before it. -/
def Ensures (q : Query α) (post : α → Prop) : Prop :=
  ∀ st, post (q.answer st)

/-- Whether a test passes exactly if `p` holds, whatever was asked before it. -/
def Decides (q : Query Bool) (p : Prop) : Prop :=
  q.Ensures fun passes => passes = true ↔ p

theorem ensures_pure {post : α → Prop} {a : α} (h : post a) : Ensures (pure a) post :=
  fun _ => h

theorem Ensures.bind {q : Query α} {f : α → Query β} {mid : α → Prop} {post : β → Prop}
    (hq : q.Ensures mid) (hf : ∀ a, mid a → (f a).Ensures post) : (q >>= f).Ensures post :=
  fun st => hf _ (hq st) _

theorem Ensures.mono {q : Query α} {mid post : α → Prop} (hq : q.Ensures mid)
    (h : ∀ a, mid a → post a) : q.Ensures post :=
  fun st => h _ (hq st)

theorem ensures_warn (message : String) : (warn message).Ensures fun _ => True :=
  fun _ => trivial

theorem decides_draw {source : Nat → Bool} (steady : ∀ i, source i = source 0) :
    (draw source).Decides (source 0 = true) :=
  fun st => by rw [← steady st.drawn]; rfl

theorem decides_pure {b : Bool} (h : b = true ↔ p) : Decides (pure b) p :=
  ensures_pure h

theorem Decides.congr {q : Query Bool} (hq : q.Decides p) (h : p ↔ r) : q.Decides r :=
  hq.mono fun _ hb => hb.trans h

theorem Decides.answer_eq {q other : Query Bool} (hq : q.Decides p) (ho : other.Decides p)
    (st st' : QueryState) : q.answer st = other.answer st' :=
  Bool.eq_iff_iff.mpr ((hq st).trans (ho st').symm)

/-- A test that goes on only if another one passes. -/
theorem Decides.both {first second : Query Bool} (hf : first.Decides p)
    (hs : p → second.Decides r) : (both first second).Decides (p ∧ r) := by
  refine hf.bind fun passes hp => ?_
  cases passes with
  | true =>
    have hp := hp.mp rfl
    exact (hs hp).congr (and_iff_right hp).symm
  | false => exact decides_pure (by simp [← hp])

theorem decides_guard {b : Bool} {q : Query Bool} (h : b = true → q.Decides p) :
    Decides (if b then q else pure false) (b = true ∧ p) := by
  cases b with
  | true => exact (h rfl).congr (and_iff_right rfl).symm
  | false => exact decides_pure (by simp)

theorem Decides.not {q : Query Bool} (h : q.Decides p) :
    Decides (do return !(← q)) ¬p := by
  refine h.bind fun passes hp => decides_pure ?_
  rw [← hp]
  cases passes <;> simp

theorem decides_all {test : α → Query Bool} {holds : α → Prop} {xs : List α}
    (h : ∀ x ∈ xs, (test x).Decides (holds x)) : (all test xs).Decides (∀ x ∈ xs, holds x) := by
  induction xs with
  | nil => exact decides_pure (by simp)
  | cons x xs ih =>
    obtain ⟨hx, hxs⟩ := List.forall_mem_cons.mp h
    exact (hx.both fun _ => ih hxs).congr List.forall_mem_cons.symm

theorem ensures_keep {test : α → Query Bool} {holds : α → Prop} {xs : List α}
    (h : ∀ x ∈ xs, (test x).Decides (holds x)) :
    (keep test xs).Ensures fun kept => ∀ x, x ∈ kept ↔ x ∈ xs ∧ holds x := by
  induction xs with
  | nil => exact ensures_pure (by simp)
  | cons x xs ih =>
    obtain ⟨hx, hxs⟩ := List.forall_mem_cons.mp h
    refine hx.bind fun passes hp => (ih hxs).bind fun kept hk => ensures_pure fun y => ?_
    cases passes with
    | true =>
      have hp := hp.mp rfl
      rw [if_pos rfl, List.mem_cons, List.mem_cons, hk, or_and_right]
      refine or_congr_left ⟨fun he => ⟨he, he ▸ hp⟩, And.left⟩
    | false =>
      rw [if_neg Bool.false_ne_true, hk, List.mem_cons]
      refine ⟨fun h => ⟨.inr h.1, h.2⟩, fun ⟨hm, hy⟩ => ⟨hm.resolve_left ?_, hy⟩⟩
      rintro rfl
      exact Bool.false_ne_true (hp.mpr hy)

end Query

open Query

variable {ctx : QueryContext} {x : NodeId} {e : Element}

theorem QueryContext.ensures_resolve (ctx : QueryContext) (nsPrefix : String) (x : NodeId) :
    (ctx.resolve nsPrefix x).Ensures fun uri => uri = ctx.namespaceOf nsPrefix x := by
  rw [resolve, ← namespaceOf]
  cases ctx.namespaceOf nsPrefix x with
  | some uri => exact ensures_pure rfl
  | none => exact (ensures_warn _).bind fun _ _ => ensures_pure rfl

theorem NamespaceTest.decides_metBy (ns : Option NamespaceTest) :
    (ctx.namespaceHolds ns x e).Decides (∀ test ∈ ns, test.MetBy ctx x e) := by
  match ns with
  | none => exact decides_pure (by simp)
  | some .any => exact decides_pure (by simp [MetBy])
  | some .without => exact decides_pure (by simp [MetBy])
  | some (.bound nsPrefix) =>
    refine (ctx.ensures_resolve nsPrefix x).bind fun uri hu => ?_
    cases uri with
    | some uri => exact decides_pure (by simp [MetBy, ← hu])
    | none => exact decides_pure (by simp [MetBy, ← hu])

theorem TypeTest.decides_metBy (typeTest : Option TypeTest) :
    (ctx.typeHolds typeTest x e).Decides (∀ test ∈ typeTest, test.MetBy ctx x e) := by
  cases typeTest with
  | none => exact decides_pure (by simp)
  | some test =>
    have hname : (test.name.map (sameName e.tag)).getD true = true ↔
        ∀ name ∈ test.name, sameName e.tag name = true := by cases test.name <;> simp
    refine (decides_guard fun _ => NamespaceTest.decides_metBy test.ns).congr ?_
    rw [hname]
    simp [MetBy]

theorem AttributeTest.decides_metBy (test : AttributeTest) :
    (ctx.attributeHolds x test).Decides (test.MetBy ctx x) := by
  obtain ⟨ns, name, operator, value⟩ := test
  match ns with
  | none => exact decides_pure Iff.rfl
  | some .without => exact decides_pure Iff.rfl
  | some .any => exact decides_pure Iff.rfl
  | some (.bound nsPrefix) =>
    refine (ctx.ensures_resolve nsPrefix x).bind fun uri hu => ?_
    cases uri with
    | some uri => exact decides_pure (by simp [MetBy, ← hu])
    | none => exact decides_pure (by simp [MetBy, ← hu])

namespace QueryContext

theorem namesHold_iff {id : Option String} {classes : List String} :
    namesHold id classes e = true ↔
      (∀ name ∈ id, e.id? = some name) ∧ ∀ name ∈ classes, name ∈ e.classes := by
  cases id <;> simp [namesHold]

theorem decides_plainTestsHold {typeTest : Option TypeTest} {id : Option String}
    {classes : List String} {attributes : List AttributeTest} :
    (ctx.plainTestsHold typeTest id classes attributes x).Decides
      ((∃ e, ctx.document.element? x = some e ∧ (∀ test ∈ typeTest, test.MetBy ctx x e) ∧
        (∀ name ∈ id, e.id? = some name) ∧ ∀ name ∈ classes, name ∈ e.classes) ∧
      ∀ test ∈ attributes, test.MetBy ctx x) := by
  unfold plainTestsHold
  cases ctx.document.element? x with
  | none => exact decides_pure (by simp)
  | some e =>
    have hattributes := decides_all fun test (_ : test ∈ attributes) =>
      @AttributeTest.decides_metBy ctx x test
    refine ((TypeTest.decides_metBy typeTest).both fun _ =>
      decides_guard fun _ => hattributes).congr ?_
    simp [namesHold_iff, and_assoc]

theorem decides_pseudoElementsHold (tests : List PseudoElement) :
    Decides (pure (ctx.pseudoElementsHold tests x))
      (tests ≠ [] → ctx.document.textContent x ≠ []) := by
  refine decides_pure ?_
  cases tests with
  | nil => simp [pseudoElementsHold]
  | cons => simp +contextual [pseudoElementsHold]

theorem not_metBy_of_isUserAgentState {pseudo : PseudoClassName} {argument : Argument}
    {found : Prop} (h : pseudo.isUserAgentState = true) :
    ¬pseudo.MetBy ctx x argument found := by
  unfold PseudoClassName.MetBy
  split
  case h_7 => simp [h]
  all_goals cases h

theorem decides_pseudoClassHolds {pseudo : PseudoClassName} {argument : Argument}
    {nested : Query Bool} {found : Prop} (steady : ∀ i, ctx.random i = ctx.random 0)
    (h : nested.Decides found) :
    (ctx.pseudoClassHolds pseudo argument nested x).Decides
      (pseudo.MetBy ctx x argument found) := by
  unfold pseudoClassHolds
  by_cases hstate : pseudo.isUserAgentState = true
  · rw [if_pos hstate]
    refine (ensures_warn _).bind fun _ _ => decides_pure ?_
    exact iff_of_false Bool.false_ne_true (not_metBy_of_isUserAgentState hstate)
  · rw [if_neg hstate]
    unfold PseudoClassName.MetBy
    split
    next => exact (ensures_warn _).bind fun _ _ => decides_draw steady
    next => exact h
    next => exact h
    next => exact h
    next => exact h
    next => exact h.not
    next =>
      refine decides_pure ?_
      simp [hstate]

end QueryContext

end DocumentQuery
