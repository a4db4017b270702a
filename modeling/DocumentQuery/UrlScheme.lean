import DocumentQuery.TextParts

namespace DocumentQuery

/-- The scheme of a URL: a letter, then letters, digits, `+`, `-` and `.`, up to the first colon. -/
def urlScheme (url : String) : Option String := do
  let (scheme, _) ← splitFirst ':' (trim url.toList)
  let first ← scheme.head?
  if first.isAlpha && scheme.tail.all fun c => c.isAlphanum || c == '+' || c == '-' || c == '.' then
    some (String.ofList scheme)
  else none

end DocumentQuery
