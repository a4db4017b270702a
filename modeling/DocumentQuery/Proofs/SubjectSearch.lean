import DocumentQuery.Proofs.ForwardSearch

namespace DocumentQuery

/-- Whether a node can be the last of a chain of steps, which are given last first. -/
def chainEnds (ctx : QueryContext) : List Step → NodeId → Prop
  | [], _ => True
  | ⟨k, c⟩ :: left, y => c.MetBy ctx y ∧
    match left with
    | [] => k.relatesToScope ctx.document ctx.scope y = true
    | _ :: _ => ∃ x ∈ k.sources ctx.document y, chainEnds ctx left x

/-- Whether all answers that have been kept for parts of a chain are right. -/
def Answers.Right (ctx : QueryContext) (whole : List Step) (answers : Answers) : Prop :=
  ∀ left y b, left <:+ whole → answers[(left.length, y)]? = some b →
    (b = true ↔ chainEnds ctx left y)

variable {ctx : QueryContext} {whole left : List Step} {y : NodeId}

theorem Answers.right_empty : Answers.Right ctx whole ∅ := by
  intro left y b _ h
  rw [Std.TreeMap.getElem?_emptyc] at h
  cases h

theorem Answers.Right.insert {answers : Answers} (h : answers.Right ctx whole)
    (hleft : left <:+ whole) {b : Bool} (hb : b = true ↔ chainEnds ctx left y) :
    Answers.Right ctx whole (answers.insert (left.length, y) b) := by
  intro other x c ho hc
  rw [Std.TreeMap.getElem?_insert] at hc
  split at hc
  next he =>
    cases hc
    obtain ⟨hlength, rfl⟩ := Prod.mk.inj (Std.LawfulEqCmp.compare_eq_iff_eq.mp he)
    obtain rfl : left = other :=
      (List.suffix_of_suffix_length_le hleft ho (Nat.le_of_eq hlength)).eq_of_length hlength
    exact hb
  next => exact h other x c ho hc

namespace CachedQuery

variable {α β : Type} {p r : Prop}

/-- Whether a query that starts with right answers gives only answers of a kind, and keeps only
right answers. -/
def Ensures (ctx : QueryContext) (whole : List Step) (q : CachedQuery α) (post : α → Prop) :
    Prop :=
  ∀ answers, Answers.Right ctx whole answers →
    (q.run answers).Ensures fun result => post result.1 ∧ Answers.Right ctx whole result.2

def Decides (ctx : QueryContext) (whole : List Step) (q : CachedQuery Bool) (p : Prop) : Prop :=
  Ensures ctx whole q fun passes => passes = true ↔ p

theorem ensures_pure {post : α → Prop} {a : α} (h : post a) : Ensures ctx whole (pure a) post :=
  fun _ ha => Query.ensures_pure ⟨h, ha⟩

theorem ensures_lift {q : Query α} {post : α → Prop} (hq : q.Ensures post) :
    Ensures ctx whole (liftM q) post :=
  fun _ ha st => ⟨hq st, ha⟩

theorem ensures_get : Ensures ctx whole get (Answers.Right ctx whole) :=
  fun _ ha => Query.ensures_pure ⟨ha, ha⟩

theorem ensures_modify {f : Answers → Answers}
    (h : ∀ answers, Answers.Right ctx whole answers → Answers.Right ctx whole (f answers)) :
    Ensures ctx whole (modify f) fun _ => True :=
  fun answers ha => Query.ensures_pure ⟨trivial, h answers ha⟩

theorem Ensures.bind {q : CachedQuery α} {f : α → CachedQuery β} {mid : α → Prop}
    {post : β → Prop} (hq : Ensures ctx whole q mid)
    (hf : ∀ a, mid a → Ensures ctx whole (f a) post) : Ensures ctx whole (q >>= f) post :=
  fun answers ha => (hq answers ha).bind fun result hr => hf result.1 hr.1 result.2 hr.2

theorem Ensures.mono {q : CachedQuery α} {mid post : α → Prop} (hq : Ensures ctx whole q mid)
    (h : ∀ a, mid a → post a) : Ensures ctx whole q post :=
  fun answers ha => (hq answers ha).mono fun _ hr => ⟨h _ hr.1, hr.2⟩

theorem decides_any {test : α → CachedQuery Bool} {holds : α → Prop} {xs : List α}
    (h : ∀ x ∈ xs, Decides ctx whole (test x) (holds x)) :
    Decides ctx whole (any test xs) (∃ x ∈ xs, holds x) := by
  induction xs with
  | nil => exact ensures_pure (by simp)
  | cons x xs ih =>
    obtain ⟨hx, hxs⟩ := List.forall_mem_cons.mp h
    refine hx.bind fun passes hp => ?_
    cases passes with
    | true => exact ensures_pure (iff_of_true rfl ⟨x, List.mem_cons_self, hp.mp rfl⟩)
    | false => exact (ih hxs).mono fun _ hb => hb.trans (by simp [← hp])

/-- An answer is kept for later, and one that has been kept is right. -/
theorem decides_cached {compute : CachedQuery Bool} (hleft : left <:+ whole)
    (h : Decides ctx whole compute (chainEnds ctx left y)) :
    Decides ctx whole (cached (left.length, y) compute) (chainEnds ctx left y) := by
  unfold cached
  refine ensures_get.bind fun answers ha => ?_
  split
  next known hk => exact ensures_pure (ha left y known hleft hk)
  next =>
    refine h.bind fun answer hb => ?_
    refine (ensures_modify fun answers ha => ha.insert hleft hb).bind fun _ _ => ?_
    exact ensures_pure hb

end CachedQuery

theorem decides_chainEndsAt (h : ctx.Settled) (hleft : left <:+ whole) :
    CachedQuery.Decides ctx whole (chainEndsAt ctx left y) (chainEnds ctx left y) := by
  induction left generalizing y with
  | nil => exact CachedQuery.ensures_pure (by simp [chainEnds])
  | cons step left ih =>
    obtain ⟨k, c⟩ := step
    refine CachedQuery.decides_cached hleft ?_
    refine (CachedQuery.ensures_lift (c.decides_holds h y)).bind fun passes hp => ?_
    cases passes with
    | false => exact CachedQuery.ensures_pure (by simp [chainEnds, ← hp])
    | true =>
      cases left with
      | nil => exact CachedQuery.ensures_pure (by simp [chainEnds, hp.mp rfl])
      | cons next left =>
        have hpart : next :: left <:+ whole := (List.suffix_cons _ _).trans hleft
        refine (CachedQuery.decides_any fun x _ => ih hpart).mono fun b hb => hb.trans ?_
        simp [chainEnds, hp.mp rfl]

/-- Asked without kept answers, a chain is tested right. -/
theorem decides_run'_chainEndsAt (h : ctx.Settled) (steps : List Step) :
    ((chainEndsAt ctx steps y).run' ∅).Decides (chainEnds ctx steps y) := by
  have hchain := decides_chainEndsAt (y := y) h (List.suffix_refl steps)
  exact (hchain ∅ Answers.right_empty).bind fun _ hr => Query.ensures_pure hr.1

theorem Group.decides_endsAt (h : ctx.Settled) (g : Group) :
    (g.endsAt ctx y).Decides (chainEnds ctx g.steps.reverse y) :=
  decides_run'_chainEndsAt h g.steps.reverse

theorem decides_anyGroupEndsAt (h : ctx.Settled) (groups : List Group) :
    (anyGroupEndsAt ctx y groups).Decides (∃ g ∈ groups, chainEnds ctx g.steps.reverse y) := by
  induction groups with
  | nil => exact Query.decides_pure (by simp)
  | cons g gs ih =>
    refine (g.decides_endsAt h).bind fun passes hp => ?_
    cases passes with
    | true => exact Query.decides_pure (iff_of_true rfl ⟨g, List.mem_cons_self, hp.mp rfl⟩)
    | false => exact ih.congr (by simp [← hp])

theorem Selector.decides_matchesNode (h : ctx.Settled) (s : Selector) :
    (s.matchesNode ctx y).Decides (ctx.document.isElement y = true ∧
      ∃ g ∈ s.groups, chainEnds ctx g.steps.reverse y) :=
  Query.decides_guard fun _ => decides_anyGroupEndsAt h s.groups

end DocumentQuery
