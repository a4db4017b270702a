import DocumentQuery.SelectorError

namespace DocumentQuery

/-- The tokens from the current one on, as a reader of selectors sees them. -/
abbrev Cursor := List Lexeme

namespace Cursor

/-- The current token; the end mark when nothing is left. -/
def token (ts : Cursor) : Token :=
  match ts with
  | [] => .finish
  | t :: _ => t.token

/-- The token after the current one. -/
def following (ts : Cursor) : Token :=
  token (List.tail ts)

def position (ts : Cursor) : Nat :=
  match ts with
  | [] => 0
  | t :: _ => t.position

/-- The place after the current token. The last token is never passed. -/
def advance (ts : Cursor) : Cursor :=
  match ts with
  | _ :: t :: rest => t :: rest
  | ts => ts

theorem length_advance_le (ts : Cursor) : ts.advance.length ≤ ts.length := by
  match ts with
  | [] => exact Nat.le_refl _
  | [_] => exact Nat.le_refl _
  | _ :: _ :: _ => exact Nat.le_succ _

end Cursor

/-- Reads a part of a selector, or fails at some token; the cursor stays where the reading
ended. -/
abbrev TokenReader := EStateM SelectorError Cursor

namespace TokenReader

def peek : TokenReader Token :=
  return (← get).token

def advance : TokenReader Unit :=
  modify Cursor.advance

/-- Fails with a fault at the current token of the text `source`. -/
def fail (source : String) (fault : Fault) : TokenReader α := do
  throw (.malformed source (← get).position fault)

/-- Fails because the current token is not what the grammar asks for. -/
def unexpected (source : String) (expected : Expectation) : TokenReader α := do
  fail source (.wrongToken expected (← peek))

end TokenReader

end DocumentQuery
