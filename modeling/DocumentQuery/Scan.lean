import DocumentQuery.ArgumentText
import DocumentQuery.EscapedNames
import DocumentQuery.SelectorError

namespace DocumentQuery

/-- What reading at the front of a text gives, with the text left over: a token, blanks
without a meaning, or a fault. -/
inductive Scan where
  | token (t : Token) (rest : List Char)
  | blanks (rest : List Char)
  | fault (f : Fault) (rest : List Char)

namespace Scan

def rest : Scan → List Char
  | .token _ rest | .blanks rest | .fault _ rest => rest

/-- Reads a name, which must not be empty. -/
def named (missing : Fault) (make : String → Token) (cs : List Char) : Scan :=
  match readName cs with
  | ([], rest) => .fault missing rest
  | (name, rest) => .token (make (String.ofList name)) rest

/-- Reads the name that begins at a character. -/
def ident (c : Char) (cs : List Char) : Scan :=
  let (name, rest) := readName (c :: cs)
  .token (.ident (String.ofList name)) rest

/-- Whether blanks in front of a text may separate two compounds: neither the end nor another
separator follows. -/
def goesOn : List Char → Bool
  | [] => false
  | c :: _ => !(c == '>' || c == '+' || c == '~' || c == ',')

/-- Blanks between a compound and the next one stand for descendants. -/
def gap (previous : Option Token) (rest : List Char) : Scan :=
  if (previous.map Token.endsCompound).getD false && goesOn rest then
    .token (.combinator .descendant) rest
  else .blanks rest

/-- Reads a pseudo-class, or a pseudo-element after a second colon. -/
def pseudo : List Char → Scan
  | ':' :: cs => named .missingPseudo .pseudoElement cs
  | cs => named .missingPseudo .pseudoClass cs

/-- Reads a token that begins with a sign of its own. -/
def sign (c : Char) (cs : List Char) : Scan :=
  match c with
  | '>' => .token (.combinator .child) (skipBlanks cs)
  | '+' => .token (.combinator .adjacentSibling) (skipBlanks cs)
  | '~' => .token (.combinator .generalSibling) (skipBlanks cs)
  | ',' => .token .comma (skipBlanks cs)
  | '*' => .token .star cs
  | '|' => .token .bar cs
  | '#' => named .missingId .idTest cs
  | '.' => named .missingClass .classTest cs
  | ':' => pseudo cs
  | '[' => .token .openBracket cs
  | _ => .fault (.strayCharacter c) cs

/-- Reads the first token of a text outside brackets. -/
def outside (previous : Option Token) (c : Char) (cs : List Char) : Scan :=
  if isBlank c then gap previous (skipBlanks cs)
  else if isNameChar c || startsEscape c cs then ident c cs
  else sign c cs

/-- The operator that a character forms with an equals sign after it. -/
def operator? (c : Char) (cs : List Char) : Option AttributeOperator :=
  if cs.head? = some '=' then
    match c with
    | '~' => some .containsWithSpace
    | '|' => some .containsWithHyphen
    | '*' => some .containsSubstring
    | '^' => some .beginsWith
    | '$' => some .endsWith
    | _ => none
  else none

/-- Reads a string, given its opening quote. -/
def quoted (quote : Char) (cs : List Char) : Scan :=
  match readQuoted quote cs with
  | some (value, rest) => .token (.quoted (String.ofList value)) rest
  | none => .fault .openString []

/-- Reads a value right after an operator, else a name. -/
def valueOrName (previous : Option Token) (c : Char) (cs : List Char) : Scan :=
  match previous with
  | some (.operator _) =>
    let (value, rest) := readValue (c :: cs)
    .token (.ident (String.ofList value)) rest
  | _ =>
    if isNameChar c || startsEscape c cs then ident c cs else .fault (.strayInBrackets c) cs

/-- Reads the first token of a text inside brackets; the text begins with no blank. -/
def inside (previous : Option Token) (c : Char) (cs : List Char) : Scan :=
  if c = ']' then .token .closeBracket cs
  else if c = '"' ∨ c = '\'' then quoted c cs
  else if c = '=' then .token (.operator .exactly) cs
  else match operator? c cs with
    | some op => .token (.operator op) cs.tail
    | none =>
      if c = '|' then .token .bar cs
      else if c = '*' then .token .star cs
      else valueOrName previous c cs

/-- Reads what stands in the parentheses right after a pseudo-class. -/
def arguments (cs : List Char) : Scan :=
  match readArguments {} cs with
  | some (raw, rest) => .token (.arguments (String.ofList raw)) rest
  | none => .fault .openArguments []

theorem named_rest_suffix (missing : Fault) (make : String → Token) (cs : List Char) :
    (named missing make cs).rest <:+ cs := by
  have h := readName_suffix cs
  unfold named
  split <;> simpa [rest, *] using h

theorem ident_rest_suffix {c : Char} {cs : List Char}
    (h : (isNameChar c || startsEscape c cs) = true) : (ident c cs).rest <:+ cs :=
  readName_cons_suffix (Bool.or_eq_true _ _ ▸ h)

theorem gap_rest (previous : Option Token) (cs : List Char) : (gap previous cs).rest = cs := by
  unfold gap
  split <;> rfl

theorem pseudo_rest_suffix (cs : List Char) : (pseudo cs).rest <:+ cs := by
  unfold pseudo
  split
  · exact (named_rest_suffix _ _ _).trans (List.suffix_cons _ _)
  · exact named_rest_suffix _ _ _

theorem sign_rest_suffix (c : Char) (cs : List Char) : (sign c cs).rest <:+ cs := by
  have hs := skipBlanks_suffix cs
  unfold sign
  split
  case h_7 => exact named_rest_suffix _ _ _
  case h_8 => exact named_rest_suffix _ _ _
  case h_9 => exact pseudo_rest_suffix _
  all_goals first | exact hs | exact List.suffix_rfl

/-- Outside brackets a token takes at least the character that it begins at. -/
theorem outside_rest_suffix (previous : Option Token) (c : Char) (cs : List Char) :
    (outside previous c cs).rest <:+ cs := by
  unfold outside
  split
  · rw [gap_rest]
    exact skipBlanks_suffix cs
  · split
    next h => exact ident_rest_suffix h
    next => exact sign_rest_suffix c cs

theorem quoted_rest_suffix (quote : Char) (cs : List Char) : (quoted quote cs).rest <:+ cs := by
  unfold quoted
  split
  next h => exact readQuoted_suffix h
  next => exact List.nil_suffix

theorem valueOrName_rest_suffix (previous : Option Token) {c : Char} {cs : List Char}
    (hb : isBlank c = false) (hc : c ≠ ']') : (valueOrName previous c cs).rest <:+ cs := by
  unfold valueOrName
  split
  next => exact readValue_cons_suffix hb hc
  next =>
    split
    next h => exact ident_rest_suffix h
    next => exact List.suffix_rfl

/-- Inside brackets a token takes at least the character that it begins at. -/
theorem inside_rest_suffix (previous : Option Token) {c : Char} {cs : List Char}
    (hb : isBlank c = false) : (inside previous c cs).rest <:+ cs := by
  unfold inside
  repeat' split
  all_goals first
    | exact List.suffix_rfl
    | exact quoted_rest_suffix _ _
    | exact List.tail_suffix cs
    | exact valueOrName_rest_suffix _ hb (by assumption)

theorem arguments_rest_suffix (cs : List Char) : (arguments cs).rest <:+ cs := by
  unfold arguments
  split
  next h => exact readArguments_suffix h
  next => exact List.nil_suffix

end Scan

end DocumentQuery
