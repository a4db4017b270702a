import DocumentQuery.Scan

namespace DocumentQuery

/-- Where the next token stands: outside brackets, inside the brackets opened at a place, or
at the parenthesis right after a pseudo-class. -/
inductive LexerMode where
  | outside
  | brackets (opened : Nat)
  | arguments
deriving DecidableEq

namespace LexerMode

/-- The text that the next token is read from; inside brackets blanks in front are skipped. -/
def front (mode : LexerMode) (rest : List Char) : List Char :=
  match mode with
  | .brackets _ => skipBlanks rest
  | _ => rest

def scan (mode : LexerMode) (previous : Option Token) (c : Char) (cs : List Char) : Scan :=
  match mode with
  | .outside => Scan.outside previous c cs
  | .brackets _ => Scan.inside previous c cs
  | .arguments => Scan.arguments cs

/-- The mode after a token that begins at `start` and has `rest` after it. -/
def after (mode : LexerMode) (t : Token) (start : Nat) (rest : List Char) : LexerMode :=
  match t with
  | .openBracket => .brackets start
  | .closeBracket | .arguments _ => .outside
  | .pseudoClass _ => if rest.head? = some '(' then .arguments else .outside
  | _ => mode

/-- A fault ends an argument with the text, but leaves brackets open. -/
def afterFault : LexerMode → LexerMode
  | .arguments => .outside
  | mode => mode

theorem front_suffix (mode : LexerMode) (rest : List Char) : mode.front rest <:+ rest := by
  unfold front
  split
  · exact skipBlanks_suffix rest
  · exact List.suffix_rfl

/-- What a scan leaves over is an end of the text after the character that it begins at. -/
theorem scan_rest_suffix {mode : LexerMode} {rest cs : List Char} {c : Char}
    (h : mode.front rest = c :: cs) (previous : Option Token) :
    (mode.scan previous c cs).rest <:+ cs := by
  cases mode with
  | outside => exact Scan.outside_rest_suffix previous c cs
  | arguments => exact Scan.arguments_rest_suffix cs
  | brackets opened => exact Scan.inside_rest_suffix previous (isBlank_of_skipBlanks_eq_cons h)

/-- Each scan in front of a text shortens it. -/
theorem length_rest_scan_lt {mode : LexerMode} {rest cs : List Char} {c : Char}
    (h : mode.front rest = c :: cs) (previous : Option Token) :
    (mode.scan previous c cs).rest.length < rest.length := by
  have hf := (mode.front_suffix rest).length_le
  rw [h, List.length_cons] at hf
  exact Nat.lt_of_le_of_lt (scan_rest_suffix h previous).length_le (Nat.lt_of_succ_le hf)

end LexerMode

/-- The state of reading tokens from a text. The tokens read so far stand last first. -/
structure Lexer where
  source : String
  rest : List Char
  mode : LexerMode := .outside
  lexemes : List Lexeme := []

namespace Lexer

def ofText (source : String) : Lexer :=
  { source, rest := source.toList }

/-- The tokens read so far, in the order of the text. -/
def tokens (l : Lexer) : List Lexeme :=
  l.lexemes.reverse

def previous (l : Lexer) : Option Token :=
  l.lexemes.head?.map Lexeme.token

def finished (l : Lexer) : Bool :=
  l.previous == some .finish

/-- The place in the source where a text left over begins. -/
def place (l : Lexer) (rest : List Char) : Nat :=
  l.source.length - rest.length

/-- Adds a token that begins at `start`. -/
def push (l : Lexer) (t : Token) (start : Nat) (rest : List Char) : Lexer :=
  { l with rest, mode := l.mode.after t start rest, lexemes := ⟨t, start⟩ :: l.lexemes }

/-- What one step of reading tokens comes to: a state to go on from, or an end with or without
an error. -/
inductive Progress where
  | again (next : Lexer)
  | done (outcome : Except SelectorError Unit) (last : Lexer)

/-- Goes on after a scan of the text `front`. -/
def afterScan (l : Lexer) (front : List Char) : Scan → Progress
  | .token t rest => .again (l.push t (l.place front) rest)
  | .blanks rest => .again { l with rest }
  | .fault fault rest =>
    .done (.error (.malformed l.source (l.place front) fault))
      { l with rest, mode := l.mode.afterFault }

/-- At the end of the text, brackets still open are a fault; else the end mark follows. -/
def atEnd (l : Lexer) : Progress :=
  match l.mode with
  | .brackets opened =>
    .done (.error (.malformed l.source opened .openBrackets)) { l with rest := [] }
  | _ => .done (.ok ()) (l.push .finish (l.place []) [])

/-- Reads at most one token. -/
def step (l : Lexer) : Progress :=
  if l.finished then .done (.ok ()) l
  else match l.mode.front l.rest with
    | [] => l.atEnd
    | c :: cs => l.afterScan (c :: cs) (l.mode.scan l.previous c cs)

theorem rest_of_afterScan_eq_again {l next : Lexer} {front : List Char} {scan : Scan}
    (h : l.afterScan front scan = .again next) : next.rest = scan.rest := by
  cases scan with
  | token t rest => cases h; rfl
  | blanks rest => cases h; rfl
  | fault fault rest => cases h

theorem length_rest_lt_of_step_eq_again {l next : Lexer} (h : l.step = .again next) :
    next.rest.length < l.rest.length := by
  unfold step at h
  split at h
  next => cases h
  next =>
    split at h
    next =>
      unfold atEnd at h
      split at h <;> cases h
    next c cs hf =>
      rw [rest_of_afterScan_eq_again h]
      exact LexerMode.length_rest_scan_lt hf l.previous

/-- Reads tokens until the end mark or a fault. -/
def readTokens (l : Lexer) : Except SelectorError Unit × Lexer :=
  match _h : l.step with
  | .again next => readTokens next
  | .done outcome last => (outcome, last)
termination_by l.rest.length
decreasing_by exact length_rest_lt_of_step_eq_again _h

theorem readTokens_of_step_eq_again {l next : Lexer} (h : l.step = .again next) :
    l.readTokens = next.readTokens := by
  rw [readTokens]
  split
  next n hn => rw [Progress.again.inj (hn.symm.trans h)]
  next hn => cases hn.symm.trans h

theorem readTokens_of_step_eq_done {l last : Lexer} {outcome : Except SelectorError Unit}
    (h : l.step = .done outcome last) : l.readTokens = (outcome, last) := by
  rw [readTokens]
  split
  next hn => cases hn.symm.trans h
  next hn => cases hn.symm.trans h; rfl

/-- Reads on from where the lexer stands. -/
def run (l : Lexer) : Except SelectorError Unit × Lexer :=
  readTokens { l with rest := skipBlanks l.rest }

end Lexer

/-- The tokens of a selector text, the last of which is the end mark. -/
def tokenize (source : String) : Except SelectorError (List Lexeme) :=
  match (Lexer.ofText source).run with
  | (.ok _, l) => .ok l.tokens
  | (.error e, _) => .error e

end DocumentQuery
