import RegexAudit.Syntax.Arena
import RegexAudit.Syntax.Lexeme

/-!
# Reading at a position

The parser stands at a byte of the source. It looks at the text from there on, moves on by numbers
of bytes, and goes back where it has read too far: after braces that are no quantifier, a `\c` that
is no control letter, digits that are no reference, and a first surrogate without a second.

All text is taken from the source at byte offsets. An offset past the end or inside a character
stops the parser (`Stop.panic`), as does the number of an entry that does not exist; a loop that
outlives the text stops it too (`Stop.endless`).
-/

namespace RegexAudit

/-- What stops the parser: a fault of the pattern, or one of its own. -/
inductive Stop where
  | fault (e : ParseError)
  | panic
  | endless
deriving DecidableEq

/-- The state of the parser. -/
structure Parser where
  /-- The byte it stands at. -/
  pos : Nat
  nodes : List Arena.Entry
  /-- The number of the last capturing group. -/
  groups : Nat
  /-- The groups with a name, the last one first. -/
  names : List (List Char × NodeId)
  /-- How many groups and classes are open. -/
  depth : Nat

/-- A step of the parser, which may stop it. -/
abbrev Action (α : Type) := StateT Parser (Except Stop) α

namespace Parser

/-! ## Faults -/

def position : Action Nat := do return (← get).pos

/-- Stop with a fault at a byte. -/
def failAt {α : Type} (cause : Cause) (offset : Nat) : Action α := throw (.fault ⟨cause, offset⟩)

/-- Stop with a fault at the position. -/
def fail {α : Type} (cause : Cause) : Action α := do failAt cause (← position)

/-! ## Moving -/

def advance (bytes : Nat) : Action Unit := modify fun s => { s with pos := s.pos + bytes }

/-- Go to a byte, forward or back. -/
def seek (pos : Nat) : Action Unit := modify fun s => { s with pos }

section
variable (source : List Char)

/-- The text from the position on. -/
def rest : Action (List Char) := do
  match Text.cut? (← get).pos source with
  | some (_, r) => return r
  | none => throw .panic

/-- The text of some bytes from the position on. -/
def slice (bytes : Nat) : Action (List Char) := do
  let start ← position
  match Text.slice? start (start + bytes) source with
  | some text => return text
  | none => throw .panic

def peek : Action (Option Char) := do return (← rest source).head?

/-- The character `n` places further on. -/
def peekNth (n : Nat) : Action (Option Char) := do return (← rest source)[n]?

/-- Take a character, if one is left. -/
def bump : Action (Option Char) := do
  match ← peek source with
  | some c => do
    advance c.utf8Size
    return some c
  | none => return none

/-- Take a text, if it comes next. -/
def eatText (text : List Char) : Action Bool := do
  if text.isPrefixOf (← rest source) then do
    advance (Text.width text)
    return true
  else return false

/-- Take a character, if it comes next. -/
def eat (c : Char) : Action Bool := eatText source [c]

/-! ## Numbers -/

/-- The digits that come next, without taking them. -/
def digits (isDigit : Char → Bool) : Action (List Char) := do
  slice source ((← rest source).takeWhile isDigit).length

/-- A decimal number. -/
def decimal : Action (Option Nat) := do
  let digits ← digits source Char.isDigit
  if digits.isEmpty then return none
  else do
    advance digits.length
    return some (Lexeme.numeral 10 digits)

/-- A count; beyond the limit it is the limit. -/
def count : Action (Option Nat) := do return (← decimal source).map (min · Bounds.limit)

/-- As many hexadecimal digits as asked for. -/
def hexDigits (n : Nat) : Action (Option Nat) := do
  let start ← position
  match Text.slice? start (start + n) source with
  | some digits =>
    if digits.all Lexeme.isHexDigit then do
      advance n
      return some (Lexeme.numeral 16 digits)
    else return none
  | none => return none

/-- Octal digits, at most `n` of them and with a value of at most 255, after the value so far. -/
def octal : (n value : Nat) → Action Nat
  | 0, value => return value
  | n + 1, value => do
    match ← peek source with
    | some c =>
      let next := value * 8 + Lexeme.digitValue c
      if Lexeme.isOctalDigit c && next ≤ 255 then do
        advance c.utf8Size
        octal n next
      else return value
    | none => return value

/-- Up to three octal digits; another character stands for itself. -/
def octalOrSelf : Action Nat := do
  match ← peek source with
  | some c =>
    if Lexeme.isOctalDigit c then octal source 3 0
    else do
      advance c.utf8Size
      return c.toNat
  | none => return 0

/-! ## Quantifiers -/

/-- The closing brace after two counts. -/
def closeBraces (counts : Nat × Option Nat) : Action (Option (Nat × Option Nat)) := do
  if ← eat source '}' then return some counts else return none

/-- What follows the opening brace of a quantifier. -/
def insideBraces : Action (Option (Nat × Option Nat)) := do
  match ← count source with
  | none => return none
  | some least =>
    if ← eat source ',' then do
      if (← peek source) == some '}' then closeBraces source (least, none)
      else do
        match ← count source with
        | none => return none
        | some most => closeBraces source (least, some most)
    else closeBraces source (least, some least)

/-- `{n}`, `{n,}` or `{n,m}`; anything else is left as it is. -/
def braces : Action (Option (Nat × Option Nat)) := do
  let start ← position
  if ← eat source '{' then do
    let read ← insideBraces source
    if read.isNone then seek start
    return read
  else return none

/-- Whether a quantifier starts at the position, which stays where it is. -/
def atQuantifier : Action Bool := do
  match ← peek source with
  | some '*' | some '+' | some '?' => return true
  | some '{' => do
    let start ← position
    let read ← braces source
    seek start
    return read.isSome
  | _ => return false

end

section
variable (source : List Char) (setting : Setting)

/-- Take a character and give what it stands for. -/
def taking {α : Type} (a : α) : Action α := do
  let _ ← bump source
  return a

/-- The counts of a quantifier, if one starts here. -/
def counts : Action (Option (Nat × Option Nat)) := do
  match ← peek source with
  | some '*' => taking source (some (0, none))
  | some '+' => taking source (some (1, none))
  | some '?' => taking source (some (0, some 1))
  | some '{' => do
    match ← braces source with
    | some counts => return some counts
    | none => if setting.strict then fail .incompleteQuantifier else return none
  | _ => return none

/-! ## Names -/

/-- The characters of a name, after those read so far. -/
def nameFrom (fuel : Nat) (name : List Char) : Action (List Char) := do
  match ← peek source with
  | some c =>
    if if name.isEmpty then Lexeme.isNameStart c else Lexeme.isNamePart c then
      match fuel with
      | 0 => throw .endless
      | fuel + 1 => do
        advance c.utf8Size
        nameFrom fuel (name ++ [c])
    else return name
  | none => return name

/-- The name of a group, and the `>` after it. -/
def groupName : Action (List Char) := do
  let name ← nameFrom source (← rest source).length []
  if name.isEmpty then fail .groupName
  else do
    if ← eat source '>' then return name else fail .groupName

/-- A property, after its `p` or `P`. -/
def property (negate : Bool) : Action Shorthand := do
  if ← eat source '{' then do
    let r ← rest source
    match r.dropWhile (· != '}') with
    | [] => fail .propertyName
    | _ :: _ => do
      let body ← slice source (Text.width (r.takeWhile (· != '}')))
      match Lexeme.propertyParts? body with
      | some (key, value) =>
        if isStringProperty key value && (negate || !setting.flags.unicodeSets) then
          fail .propertyName
        else do
          advance (Text.width body + 1)
          return .property key value negate
      | none => fail .propertyName
  else fail .propertyName

/-! ## Escapes, after the backslash -/

/-- The escapes of character sets, or none if no set is written here. -/
def setEscape : Action (Option Shorthand) := do
  match ← peek source with
  | some 'd' => taking source (some (.digit false))
  | some 'D' => taking source (some (.digit true))
  | some 's' => taking source (some (.space false))
  | some 'S' => taking source (some (.space true))
  | some 'w' => taking source (some (.word false))
  | some 'W' => taking source (some (.word true))
  | some c =>
    if setting.strict && (c == 'p' || c == 'P') then do
      let _ ← bump source
      return some (← property source setting (c == 'P'))
    else return none
  | none => return none

/-- A code point in braces, from the opening one on. -/
def bracedCode : Action Nat := do
  let start ← position
  let _ ← bump source
  let digits ← digits source Lexeme.isHexDigit
  advance digits.length
  let value := Lexeme.numeral 16 digits
  -- a number that no machine word holds is none either
  if !digits.isEmpty && value ≤ 0x10FFFF then do
    if ← eat source '}' then return value else failAt .unicodeEscape start
  else failAt .unicodeEscape start

/-- A second surrogate, written as an escape of its own; anything else may be taken in part. -/
def trailSurrogate : Action (Option Nat) := do
  if ← eatText source ['\\', 'u'] then do
    match ← hexDigits source 4 with
    | some trail => return if 0xDC00 ≤ trail && trail ≤ 0xDFFF then some trail else none
    | none => return none
  else return none

/-- A code point by number, after the letter `u`, or none where that letter stands for itself. -/
def unicodeEscape : Action (Option Nat) := do
  if setting.strict && (← peek source) == some '{' then return some (← bracedCode source)
  else do
    match ← hexDigits source 4 with
    | none => if setting.strict then fail .unicodeEscape else return none
    | some lead =>
      if setting.strict && 0xD800 ≤ lead && lead ≤ 0xDBFF then do
        let start ← position
        match ← trailSurrogate source with
        | some trail => return some (Lexeme.joinSurrogates lead trail)
        | none => do
          seek start
          return some lead
      else return some lead

/-- A control letter, after the letter `c` at byte `start`. Without one the backslash before it
stands for itself. -/
def controlEscape (inClass : Bool) (start : Nat) : Action Nat := do
  match ← peek source with
  | some l =>
    if l.isAlpha || (inClass && !setting.strict && (l.isDigit || l == '_')) then
      taking source (l.toNat % 32)
    else if setting.strict then fail .unicodeEscape
    else do
      seek start
      return '\\'.toNat
  | none =>
    if setting.strict then fail .unicodeEscape
    else do
      seek start
      return '\\'.toNat

/-- An escape of a single character. -/
def characterEscape (inClass : Bool) : Action Nat := do
  let start ← position
  match ← bump source with
  | none => fail .backslashAtEnd
  | some 't' => return 0x09
  | some 'n' => return 0x0A
  | some 'v' => return 0x0B
  | some 'f' => return 0x0C
  | some 'r' => return 0x0D
  | some 'c' => controlEscape source setting inClass start
  | some 'x' => do
    match ← hexDigits source 2 with
    | some value => return value
    | none => if setting.strict then fail .invalidEscape else return 'x'.toNat
  | some 'u' => do return (← unicodeEscape source setting).getD 'u'.toNat
  | some c => do
    if c == '0' && !((← peek source).any Char.isDigit) then return 0
    else if c.isDigit then
      if setting.strict then failAt .invalidEscape start
      else do
        seek start
        octalOrSelf source
    else if inClass && c == 'b' then return 0x08
    else if setting.strict then
      if Lexeme.mayEscape setting inClass c then return c.toNat else failAt .invalidEscape start
    else if c == 'k' && setting.named then failAt .namedReference start
    else return c.toNat

end

end Parser

end RegexAudit
