import RegexAudit.CharSet.Basic

/-!
# Properties

What `\p{name}` and `\p{key=value}` stand for is data from outside: the tables of the Unicode Character
Database, with names that are matched loosely. Everything that is built on a set of a property takes
these sets as they come, through `Properties.set?`. The program runs on the tables of
`CharSet.KnownProperties`.
-/

namespace RegexAudit

/-- The sets of the properties, by key and value; `none` for what is no property. -/
class Properties where
  set? : (key : Option (List Char)) → (value : List Char) → Option CharSet

end RegexAudit
