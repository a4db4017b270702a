import DocumentQuery.SignedInteger
import DocumentQuery.TextParts

namespace DocumentQuery

/-- An `An+B` rule: every `step`th position, counted from position `offset`. -/
structure NthRule where
  step : Int64
  offset : Int64
deriving DecidableEq

/-- The written form: an offset alone, or a coefficient of `n` and a signed offset. -/
def NthRule.chars (rule : NthRule) : List Char :=
  if rule.step = 0 then integerText rule.offset.toInt
  else
    (if rule.step = 1 then ['n']
      else if rule.step = -1 then ['-', 'n']
      else integerText rule.step.toInt ++ ['n']) ++
    (if rule.offset = 0 then []
      else if 0 < rule.offset then '+' :: integerText rule.offset.toInt
      else integerText rule.offset.toInt)

def NthRule.text (rule : NthRule) : String :=
  String.ofList rule.chars

/-- The coefficient before `n`; a missing number is one. -/
def readCoefficient (cs : List Char) : Option Int64 :=
  if cs = [] ∨ cs = ['+'] then some 1
  else if cs = ['-'] then some (-1)
  else readWord cs

/-- The offset after `n`: white space may stand around its sign, and a missing number is zero. -/
def readOffset (cs : List Char) : Option Int64 :=
  let (negative, digits) := match trimStart cs with
    | '-' :: digits => (true, trimStart digits)
    | '+' :: digits => (false, trimStart digits)
    | digits => (false, digits)
  if digits.all Char.isDigit then
    (word? (Nat.ofDigitChars 10 digits 0)).map fun n => if negative then -n else n
  else none

def readStepped (cs : List Char) : Option NthRule := do
  let (coefficient, rest) ← splitFirst 'n' cs
  let step ← readCoefficient coefficient
  let offset ← readOffset rest
  return ⟨step, offset⟩

/-- Reads a rule; a text that is none gives the rule with no positions, zero and zero. -/
def NthRule.read (text : String) : NthRule :=
  let cs := asciiLower (trim text.toList)
  if cs = "even".toList then ⟨2, 0⟩
  else if cs = "odd".toList then ⟨2, 1⟩
  else match readWord cs with
    | some offset => ⟨0, offset⟩
    | none => (readStepped cs).getD ⟨0, 0⟩

end DocumentQuery
