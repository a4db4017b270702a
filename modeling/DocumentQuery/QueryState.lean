import DocumentQuery.Bindings

namespace DocumentQuery

/-- The warnings given so far, each only once. -/
structure WarningLog where
  entries : List String := []
deriving DecidableEq

namespace WarningLog

/-- What the log keeps of a warning of a component. -/
def entry (component message : String) : String :=
  "[" ++ component ++ "] " ++ message

def contains (log : WarningLog) (component message : String) : Bool :=
  log.entries.contains (entry component message)

def add (log : WarningLog) (component message : String) : WarningLog :=
  if log.contains component message then log else ⟨entry component message :: log.entries⟩

end WarningLog

/-- What queries leave behind: how many random answers were drawn, and the warnings given. -/
structure QueryState where
  drawn : Nat := 0
  warnings : WarningLog := {}
deriving DecidableEq

/-- A part of a query, which may draw random answers and give warnings. -/
abbrev Query := StateM QueryState

namespace Query

/-- Gives a warning on behalf of selectors. -/
def warn (message : String) : Query Unit :=
  modify fun s => { s with warnings := s.warnings.add "Selector" message }

/-- Draws the next answer of a random source. -/
def draw (source : Nat → Bool) : Query Bool :=
  modifyGet fun s => (source s.drawn, { s with drawn := s.drawn + 1 })

/-- The members of a list that pass a test, tested in order. -/
def keep (test : α → Query Bool) : List α → Query (List α)
  | [] => return []
  | x :: xs => do
    let passes ← test x
    let others ← keep test xs
    return if passes then x :: others else others

/-- Whether all members pass a test; nothing after the first that fails is tested. -/
def all (test : α → Query Bool) : List α → Query Bool
  | [] => return true
  | x :: xs => do if ← test x then all test xs else return false

/-- Whether two tests pass; the second is left out when the first fails. -/
def both (first second : Query Bool) : Query Bool := do
  if ← first then second else return false

end Query

end DocumentQuery
