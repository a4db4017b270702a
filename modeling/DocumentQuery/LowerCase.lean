import DocumentQuery.LetterCaseTable

namespace DocumentQuery

def UpperRun.contains (run : UpperRun) (n : Nat) : Bool :=
  run.first ≤ n && n ≤ run.last && (n - run.first) % run.stride == 0

def isCased (c : Char) : Bool :=
  casedRanges.any fun (first, last) => first ≤ c.toNat && c.toNat ≤ last

def isCaseIgnorable (c : Char) : Bool :=
  caseIgnorableRanges.any fun (first, last) => first ≤ c.toNat && c.toNat ≤ last

/-- The lower-case form of a character by itself. Only the dotted capital I has two characters. -/
def lowerForm (c : Char) : List Char :=
  if c.toNat = 0x130 then ['i', '\u0307']
  else match upperRuns.find? (fun run => c.toNat ≤ run.last) with
    | some run =>
      if run.contains c.toNat then [Char.ofNat (c.toNat + run.shift).toNat] else [c]
    | none => [c]

/-- Whether the nearest character that is not case-ignorable is a cased one. -/
def meetsCased (cs : List Char) : Bool :=
  ((cs.dropWhile isCaseIgnorable).head?.map isCased).getD false

/-- A capital sigma has its final form after a cased letter and before none. -/
def lowerSigma (before after : List Char) : Char :=
  if meetsCased before && !meetsCased after then 'ς' else 'σ'

/-- Lower-cases a text; `before` holds the characters in front of it, nearest first. -/
def lowerAfter (before : List Char) : List Char → List Char
  | [] => []
  | c :: cs =>
    (if c = 'Σ' then [lowerSigma before cs] else lowerForm c) ++ lowerAfter (c :: before) cs

/-- A text in lower case, by the full Unicode mapping. -/
def lowerCase (cs : List Char) : List Char :=
  lowerAfter [] cs

end DocumentQuery
