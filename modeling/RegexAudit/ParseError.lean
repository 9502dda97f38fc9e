/-!
# Parse errors

Why a text is no regular expression, and where. Each cause has one wording, in `Cause.message`.
-/

namespace RegexAudit

/-- What is wrong with a text. -/
inductive Cause where
  | missingSlash
  | unterminatedLiteral
  | unknownFlag (letter : Char)
  | repeatedFlag (letter : Char)
  | flagConflict
  | unmatchedParenthesis
  | unexpectedCharacter
  | unexpectedEnd
  | tooDeep
  | nothingToRepeat
  | loneBracket
  | incompleteQuantifier
  | quantifierOrder
  | unterminatedGroup
  | invalidGroup
  | groupName
  | repeatedGroupName
  | backslashAtEnd
  | namedReference
  | unknownGroupName
  | invalidEscape
  | unicodeEscape
  | propertyName
  | unterminatedClass
  | rangeOrder
  | invalidClass
  | setOperation
  | classCharacter
  | unterminatedStrings
deriving DecidableEq

namespace Cause

def message : Cause → String
  | missingSlash => "regular expression literal must start with '/'"
  | unterminatedLiteral => "unterminated regular expression literal"
  | unknownFlag c => "invalid flag '" ++ c.toString ++ "'"
  | repeatedFlag c => "duplicated flag '" ++ c.toString ++ "'"
  | flagConflict => "flags 'u' and 'v' cannot be used together"
  | unmatchedParenthesis => "unmatched ')'"
  | unexpectedCharacter => "unexpected character"
  | unexpectedEnd => "unexpected end of pattern"
  | tooDeep => "nesting too deep"
  | nothingToRepeat => "nothing to repeat"
  | loneBracket => "lone quantifier brackets"
  | incompleteQuantifier => "incomplete quantifier"
  | quantifierOrder => "numbers out of order in \x7b\x7d quantifier"
  | unterminatedGroup => "unterminated group"
  | invalidGroup => "invalid group"
  | groupName => "invalid capture group name"
  | repeatedGroupName => "duplicate capture group name"
  | backslashAtEnd => "\\ at end of pattern"
  | namedReference => "invalid named reference"
  | unknownGroupName => "invalid named capture referenced"
  | invalidEscape => "invalid escape"
  | unicodeEscape => "invalid unicode escape"
  | propertyName => "invalid property name"
  | unterminatedClass => "unterminated character class"
  | rangeOrder => "range out of order in character class"
  | invalidClass => "invalid character class"
  | setOperation => "invalid set operation in character class"
  | classCharacter => "invalid character in character class"
  | unterminatedStrings => "unterminated class string disjunction"

end Cause

/-- A cause and the byte offset it is reported at. -/
structure ParseError where
  cause : Cause
  offset : Nat
deriving DecidableEq

def ParseError.message (e : ParseError) : String :=
  "invalid regular expression: " ++ e.cause.message ++ " at offset " ++ Nat.repr e.offset

end RegexAudit
