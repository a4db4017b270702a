import DocumentQuery.TextParts

namespace DocumentQuery

/-- The pseudo-classes a selector may name. The first twenty-six depend on the state of a
user agent. -/
inductive PseudoClassName where
  | hover | active | focus | focusWithin | focusVisible | visited | animated | visible | hidden
  | target | current | past | future | default | valid | invalid | inRange | outOfRange | required
  | optional | readOnly | readWrite | placeholderShown | dir | nthColumn | nthLastColumn
  | indeterminate | lang | anyLink | link | localLink | root | scope | xRoot | xReset | even | odd
  | nthChild | nthLastChild | nthOfType | nthLastOfType | firstOfType | lastOfType | onlyOfType
  | lt | gt | nth | eq | first | firstChild | last | lastChild | onlyChild | empty | parent
  | enabled | disabled | checked | text | radio | checkbox | file | password | submit | image
  | reset | button | header | has | matching | is | any | not | contains | containsExactly
deriving DecidableEq

/-- What may stand in the parentheses after a pseudo-class: nothing, anything at no effect,
or a required text, position rule, integer or selector. -/
inductive ArgumentKind where
  | none | ignored | text | nth | index | selector
deriving DecidableEq

namespace PseudoClassName

/-- Every name, in the order of declaration. -/
def all : List PseudoClassName :=
  [.hover, .active, .focus, .focusWithin, .focusVisible, .visited, .animated, .visible, .hidden,
  .target, .current, .past, .future, .default, .valid, .invalid, .inRange, .outOfRange, .required,
  .optional, .readOnly, .readWrite, .placeholderShown, .dir, .nthColumn, .nthLastColumn,
  .indeterminate, .lang, .anyLink, .link, .localLink, .root, .scope, .xRoot, .xReset, .even, .odd,
  .nthChild, .nthLastChild, .nthOfType, .nthLastOfType, .firstOfType, .lastOfType, .onlyOfType,
  .lt, .gt, .nth, .eq, .first, .firstChild, .last, .lastChild, .onlyChild, .empty, .parent,
  .enabled, .disabled, .checked, .text, .radio, .checkbox, .file, .password, .submit, .image,
  .reset, .button, .header, .has, .matching, .is, .any, .not, .contains, .containsExactly]

/-- The name as a selector spells it. -/
def spelling : PseudoClassName → String
  | .hover => "hover"
  | .active => "active"
  | .focus => "focus"
  | .focusWithin => "focus-within"
  | .focusVisible => "focus-visible"
  | .visited => "visited"
  | .animated => "animated"
  | .visible => "visible"
  | .hidden => "hidden"
  | .target => "target"
  | .current => "current"
  | .past => "past"
  | .future => "future"
  | .default => "default"
  | .valid => "valid"
  | .invalid => "invalid"
  | .inRange => "in-range"
  | .outOfRange => "out-of-range"
  | .required => "required"
  | .optional => "optional"
  | .readOnly => "read-only"
  | .readWrite => "read-write"
  | .placeholderShown => "placeholder-shown"
  | .dir => "dir"
  | .nthColumn => "nth-column"
  | .nthLastColumn => "nth-last-column"
  | .indeterminate => "indeterminate"
  | .lang => "lang"
  | .anyLink => "any-link"
  | .link => "link"
  | .localLink => "local-link"
  | .root => "root"
  | .scope => "scope"
  | .xRoot => "x-root"
  | .xReset => "x-reset"
  | .even => "even"
  | .odd => "odd"
  | .nthChild => "nth-child"
  | .nthLastChild => "nth-last-child"
  | .nthOfType => "nth-of-type"
  | .nthLastOfType => "nth-last-of-type"
  | .firstOfType => "first-of-type"
  | .lastOfType => "last-of-type"
  | .onlyOfType => "only-of-type"
  | .lt => "lt"
  | .gt => "gt"
  | .nth => "nth"
  | .eq => "eq"
  | .first => "first"
  | .firstChild => "first-child"
  | .last => "last"
  | .lastChild => "last-child"
  | .onlyChild => "only-child"
  | .empty => "empty"
  | .parent => "parent"
  | .enabled => "enabled"
  | .disabled => "disabled"
  | .checked => "checked"
  | .text => "text"
  | .radio => "radio"
  | .checkbox => "checkbox"
  | .file => "file"
  | .password => "password"
  | .submit => "submit"
  | .image => "image"
  | .reset => "reset"
  | .button => "button"
  | .header => "header"
  | .has => "has"
  | .matching => "matches"
  | .is => "is"
  | .any => "any"
  | .not => "not"
  | .contains => "contains"
  | .containsExactly => "contains-exactly"

/-- The pseudo-class of a name, in any case of its ASCII letters. -/
def ofName? (name : String) : Option PseudoClassName :=
  all.find? fun pseudo => sameName pseudo.spelling name

def argumentKind : PseudoClassName → ArgumentKind
  | .dir | .nthColumn | .nthLastColumn => .ignored
  | .lang | .contains | .containsExactly => .text
  | .nthChild | .nthLastChild | .nthOfType | .nthLastOfType | .nth | .eq => .nth
  | .lt | .gt => .index
  | .has | .matching | .is | .any | .not => .selector
  | _ => .none

/-- Whether a pseudo-class depends on the state of a user agent, so that no node of a
document by itself satisfies it. -/
def isUserAgentState : PseudoClassName → Bool
  | .hover | .active | .focus | .focusWithin | .focusVisible | .visited | .animated | .visible
  | .hidden | .target | .current | .past | .future | .default | .valid | .invalid | .inRange
  | .outOfRange | .required | .optional | .readOnly | .readWrite | .placeholderShown | .dir
  | .nthColumn | .nthLastColumn => true
  | _ => false

theorem mem_all (pseudo : PseudoClassName) : pseudo ∈ all := by
  cases pseudo <;> decide

end PseudoClassName

inductive PseudoElement where
  | firstLine | firstLetter | before | after
deriving DecidableEq

namespace PseudoElement

def all : List PseudoElement :=
  [.firstLine, .firstLetter, .before, .after]

def spelling : PseudoElement → String
  | .firstLine => "first-line"
  | .firstLetter => "first-letter"
  | .before => "before"
  | .after => "after"

/-- The pseudo-element of a name, in any case of its ASCII letters. -/
def ofName? (name : String) : Option PseudoElement :=
  all.find? fun pseudo => sameName pseudo.spelling name

end PseudoElement

end DocumentQuery
