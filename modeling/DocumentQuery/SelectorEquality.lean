import DocumentQuery.Selector

namespace DocumentQuery

mutual

def Selector.decideEq : (a b : Selector) → Decidable (a = b)
  | ⟨gs⟩, ⟨hs⟩ =>
    match decideEqGroups gs hs with
    | isTrue h => isTrue (by rw [h])
    | isFalse h => isFalse fun he => h (Selector.mk.inj he)

def decideEqGroups : (a b : List Group) → Decidable (a = b)
  | [], [] => isTrue rfl
  | [], _ :: _ => isFalse nofun
  | _ :: _, [] => isFalse nofun
  | g :: gs, h :: hs =>
    match g.decideEq h, decideEqGroups gs hs with
    | isTrue first, isTrue rest => isTrue (by rw [first, rest])
    | isFalse first, _ => isFalse fun he => first (List.cons.inj he).1
    | _, isFalse rest => isFalse fun he => rest (List.cons.inj he).2

def Group.decideEq : (a b : Group) → Decidable (a = b)
  | ⟨ss⟩, ⟨ts⟩ =>
    match decideEqSteps ss ts with
    | isTrue h => isTrue (by rw [h])
    | isFalse h => isFalse fun he => h (Group.mk.inj he)

def decideEqSteps : (a b : List Step) → Decidable (a = b)
  | [], [] => isTrue rfl
  | [], _ :: _ => isFalse nofun
  | _ :: _, [] => isFalse nofun
  | s :: ss, t :: ts =>
    match s.decideEq t, decideEqSteps ss ts with
    | isTrue first, isTrue rest => isTrue (by rw [first, rest])
    | isFalse first, _ => isFalse fun he => first (List.cons.inj he).1
    | _, isFalse rest => isFalse fun he => rest (List.cons.inj he).2

def Step.decideEq : (a b : Step) → Decidable (a = b)
  | ⟨k, c⟩, ⟨l, d⟩ =>
    match decEq k l, c.decideEq d with
    | isTrue first, isTrue rest => isTrue (by rw [first, rest])
    | isFalse first, _ => isFalse fun he => first (Step.mk.inj he).1
    | _, isFalse rest => isFalse fun he => rest (Step.mk.inj he).2

def Compound.decideEq : (a b : Compound) → Decidable (a = b)
  | ⟨t, i, cs, as, ps, es⟩, ⟨t', i', cs', as', ps', es'⟩ =>
    match decEq (t, i, cs) (t', i', cs'), decEq (as, es) (as', es'), decideEqPseudoClasses ps ps' with
    | isTrue first, isTrue second, isTrue rest => isTrue (by cases first; cases second; rw [rest])
    | isFalse first, _, _ => isFalse fun he => first (by cases he; rfl)
    | _, isFalse second, _ => isFalse fun he => second (by cases he; rfl)
    | _, _, isFalse rest => isFalse fun he => rest (by cases he; rfl)

def decideEqPseudoClasses : (a b : List PseudoClass) → Decidable (a = b)
  | [], [] => isTrue rfl
  | [], _ :: _ => isFalse nofun
  | _ :: _, [] => isFalse nofun
  | p :: ps, q :: qs =>
    match p.decideEq q, decideEqPseudoClasses ps qs with
    | isTrue first, isTrue rest => isTrue (by rw [first, rest])
    | isFalse first, _ => isFalse fun he => first (List.cons.inj he).1
    | _, isFalse rest => isFalse fun he => rest (List.cons.inj he).2

def PseudoClass.decideEq : (a b : PseudoClass) → Decidable (a = b)
  | ⟨n, a⟩, ⟨m, b⟩ =>
    match decEq n m, a.decideEq b with
    | isTrue first, isTrue rest => isTrue (by rw [first, rest])
    | isFalse first, _ => isFalse fun he => first (PseudoClass.mk.inj he).1
    | _, isFalse rest => isFalse fun he => rest (PseudoClass.mk.inj he).2

def Argument.decideEq : (a b : Argument) → Decidable (a = b)
  | .none, .none => isTrue rfl
  | .text v, .text w => decidable_of_iff (v = w) (by simp)
  | .nth r, .nth s => decidable_of_iff (r = s) (by simp)
  | .index i, .index j => decidable_of_iff (i = j) (by simp)
  | .selector s, .selector t =>
    match s.decideEq t with
    | isTrue h => isTrue (by rw [h])
    | isFalse h => isFalse fun he => h (Argument.selector.inj he)
  | .none, .text _ | .none, .nth _ | .none, .index _ | .none, .selector _ => isFalse nofun
  | .text _, .none | .text _, .nth _ | .text _, .index _ | .text _, .selector _ => isFalse nofun
  | .nth _, .none | .nth _, .text _ | .nth _, .index _ | .nth _, .selector _ => isFalse nofun
  | .index _, .none | .index _, .text _ | .index _, .nth _ | .index _, .selector _ => isFalse nofun
  | .selector _, .none | .selector _, .text _ | .selector _, .nth _ | .selector _, .index _ =>
    isFalse nofun

end

instance : DecidableEq Selector :=
  Selector.decideEq

end DocumentQuery
