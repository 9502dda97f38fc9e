import RegexAudit.Bounds
import RegexAudit.Flags
import RegexAudit.Syntax.Node
import RegexAudit.Unicode.Letter

/-!
# Lexemes

The smallest pieces of a pattern: numbers, quantifiers, names and escapes. Each reader takes the
text that is left and gives what it read together with the text after it. A fault holds the text
left where it is reported, so its offset is the width of what was read before.
-/

namespace RegexAudit

/-- What parts of a pattern have to know about the whole of it. -/
structure Setting where
  flags : Flags
  /-- How many capturing groups there are. -/
  groups : Nat
  /-- Whether one of them has a name. -/
  named : Bool

def Setting.strict (setting : Setting) : Bool := setting.flags.unicodeMode

/-- What is wrong, and the text left there. -/
structure Fault where
  cause : Cause
  rest : List Char

/-- The text before `rest`, which is the end of `text`. -/
def textBefore (text rest : List Char) : List Char := text.take (text.length - rest.length)

namespace Lexeme

/-! ## Numbers -/

def isHexDigit (c : Char) : Bool :=
  c.isDigit || ('a' ≤ c && c ≤ 'f') || ('A' ≤ c && c ≤ 'F')

def isOctalDigit (c : Char) : Bool := '0' ≤ c && c ≤ '7'

/-- The value of a digit in bases up to sixteen. -/
def digitValue (c : Char) : Nat :=
  if c.isDigit then c.toNat - '0'.toNat
  else if 'a' ≤ c && c ≤ 'f' then c.toNat - 'a'.toNat + 10
  else c.toNat - 'A'.toNat + 10

/-- The number that digits write in a base. -/
def numeral (base : Nat) (digits : List Char) : Nat :=
  digits.foldl (fun n d => n * base + digitValue d) 0

/-- A decimal number of at least one digit. -/
def decimal? (r : List Char) : Option (Nat × List Char) :=
  let digits := r.takeWhile Char.isDigit
  if digits.isEmpty then none else some (numeral 10 digits, r.dropWhile Char.isDigit)

/-- Exactly `n` hexadecimal digits. -/
def hex? (n : Nat) (r : List Char) : Option (Nat × List Char) :=
  let digits := r.take n
  if digits.length = n && digits.all isHexDigit then some (numeral 16 digits, r.drop n) else none

/-- Octal digits, at most `n` of them and with a value of at most 255, after the value so far. -/
def octal : (n value : Nat) → List Char → Nat × List Char
  | n + 1, value, c :: r =>
    let next := value * 8 + digitValue c
    if isOctalDigit c && next ≤ 255 then octal n next r else (value, c :: r)
  | _, value, r => (value, r)

/-- Up to three octal digits; another character stands for itself. -/
def octalOrSelf : List Char → Nat × List Char
  | [] => (0, [])
  | c :: r => if isOctalDigit c then octal 3 0 (c :: r) else (c.toNat, r)

/-! ## Quantifiers -/

/-- A count; beyond the limit it is the limit. -/
def count? (r : List Char) : Option (Nat × List Char) :=
  (decimal? r).map fun (n, r) => (min n Bounds.limit, r)

/-- `{n}`, `{n,}` or `{n,m}`. -/
def braces? : List Char → Option ((Nat × Option Nat) × List Char)
  | '{' :: r => do
    let (least, r) ← count? r
    match r with
    | '}' :: r => some ((least, some least), r)
    | ',' :: '}' :: r => some ((least, none), r)
    | ',' :: r =>
      let (most, r) ← count? r
      match r with
      | '}' :: r => some ((least, some most), r)
      | _ => none
    | _ => none
  | _ => none

/-- Whether a quantifier starts here. -/
def atQuantifier : List Char → Bool
  | '*' :: _ | '+' :: _ | '?' :: _ => true
  | r => (braces? r).isSome

/-- Bounds that a quantifier may have, or none if no quantifier starts here. -/
def counts? (setting : Setting) : List Char → Except Fault (Option (Nat × Option Nat) × List Char)
  | '*' :: r => .ok (some (0, none), r)
  | '+' :: r => .ok (some (1, none), r)
  | '?' :: r => .ok (some (0, some 1), r)
  | '{' :: r =>
    match braces? ('{' :: r) with
    | some (counts, r) => .ok (some counts, r)
    | none =>
      if setting.strict then .error ⟨.incompleteQuantifier, '{' :: r⟩ else .ok (none, '{' :: r)
  | r => .ok (none, r)

/-- A quantifier: its bounds and whether it is greedy. -/
def quantifier? (setting : Setting) (r : List Char) :
    Except Fault (Option (Bounds × Bool) × List Char) := do
  match ← counts? setting r with
  | (none, r) => .ok (none, r)
  | (some (least, most), r) =>
    match Bounds.make? least most with
    | none => .error ⟨.quantifierOrder, r⟩
    | some bounds =>
      match r with
      | '?' :: r => .ok (some (bounds, false), r)
      | r => .ok (some (bounds, true), r)

/-! ## Names -/

def isNameStart (c : Char) : Bool := Unicode.isAlphabetic c || c == '_' || c == '$'

def isNamePart (c : Char) : Bool :=
  Unicode.isAlphabetic c || Unicode.isNumeric c || c == '_' || c == '$'
    || c == Char.ofNat 0x200C || c == Char.ofNat 0x200D

/-- The name of a group, and the `>` after it. -/
def groupName : List Char → Except Fault (List Char × List Char)
  | [] => .error ⟨.groupName, []⟩
  | c :: r =>
    if isNameStart c then
      match r.dropWhile isNamePart with
      | '>' :: after => .ok (c :: r.takeWhile isNamePart, after)
      | after => .error ⟨.groupName, after⟩
    else .error ⟨.groupName, c :: r⟩

def isPropertyPart (s : List Char) : Bool :=
  !s.isEmpty && s.all fun c => c.isAlphanum || c == '_'

/-- The key and value between the braces of a property. -/
def propertyParts? (body : List Char) : Option (Option (List Char) × List Char) :=
  match body.dropWhile (· != '=') with
  | [] => if isPropertyPart body then some (none, body) else none
  | _ :: value =>
    let key := body.takeWhile (· != '=')
    if isPropertyPart key && isPropertyPart value then some (some key, value) else none

/-- A property, after its `p` or `P`. -/
def property (setting : Setting) (negate : Bool) : List Char → Except Fault (Shorthand × List Char)
  | '{' :: r =>
    match r.dropWhile (· != '}'), propertyParts? (r.takeWhile (· != '}')) with
    | _ :: after, some (key, value) =>
      if isStringProperty key value && (negate || !setting.flags.unicodeSets) then
        .error ⟨.propertyName, r⟩
      else .ok (.property key value negate, after)
    | _, _ => .error ⟨.propertyName, r⟩
  | r => .error ⟨.propertyName, r⟩

/-! ## Escapes, after the backslash -/

/-- The escapes of character sets, or none if no set is written here. -/
def shorthand? (setting : Setting) : List Char → Except Fault (Option Shorthand × List Char)
  | 'd' :: r => .ok (some (.digit false), r)
  | 'D' :: r => .ok (some (.digit true), r)
  | 's' :: r => .ok (some (.space false), r)
  | 'S' :: r => .ok (some (.space true), r)
  | 'w' :: r => .ok (some (.word false), r)
  | 'W' :: r => .ok (some (.word true), r)
  | c :: r =>
    if setting.strict && (c == 'p' || c == 'P') then do
      let (set, r) ← property setting (c == 'P') r
      .ok (some set, r)
    else .ok (none, c :: r)
  | [] => .ok (none, [])

/-- The character that two surrogates write. -/
def joinSurrogates (lead trail : Nat) : Nat :=
  0x10000 + (lead - 0xD800) * 0x400 + (trail - 0xDC00)

/-- A second surrogate, written as an escape of its own. -/
def trailSurrogate? : List Char → Option (Nat × List Char)
  | '\\' :: 'u' :: r =>
    match hex? 4 r with
    | some (n, r) => if 0xDC00 ≤ n && n ≤ 0xDFFF then some (n, r) else none
    | none => none
  | _ => none

/-- A code point in braces, after the opening one. -/
def bracedCode? (r : List Char) : Option (Nat × List Char) :=
  let digits := r.takeWhile isHexDigit
  match r.dropWhile isHexDigit with
  | '}' :: after =>
    let n := numeral 16 digits
    if !digits.isEmpty && n ≤ 0x10FFFF then some (n, after) else none
  | _ => none

/-- Four digits, or with `u` or `v` two surrogates of four digits each, after the letter `u`. -/
def fourDigits (setting : Setting) (r : List Char) : Except Fault (Nat × List Char) :=
  match hex? 4 r with
  | none => if setting.strict then .error ⟨.unicodeEscape, r⟩ else .ok ('u'.toNat, r)
  | some (lead, after) =>
    if setting.strict && 0xD800 ≤ lead && lead ≤ 0xDBFF then
      match trailSurrogate? after with
      | some (trail, after) => .ok (joinSurrogates lead trail, after)
      | none => .ok (lead, after)
    else .ok (lead, after)

/-- A code point by number, after the letter `u`. Without digits it is that letter, if the flags
allow it. -/
def unicodeEscape (setting : Setting) : List Char → Except Fault (Nat × List Char)
  | '{' :: r =>
    if setting.strict then
      match bracedCode? r with
      | some read => .ok read
      | none => .error ⟨.unicodeEscape, '{' :: r⟩
    else fourDigits setting ('{' :: r)
  | r => fourDigits setting r

/-- A control letter, after the letter `c`; `r` is the text from that letter on. -/
def controlEscape (setting : Setting) (inClass : Bool) (r : List Char) :
    List Char → Except Fault (Nat × List Char)
  | l :: after =>
    if l.isAlpha || (inClass && !setting.strict && (l.isDigit || l == '_')) then
      .ok (l.toNat % 32, after)
    else if setting.strict then .error ⟨.unicodeEscape, l :: after⟩
    else .ok ('\\'.toNat, r)
  | [] => if setting.strict then .error ⟨.unicodeEscape, []⟩ else .ok ('\\'.toNat, r)

/-- Characters that may always be escaped. -/
def punctuation : List Char :=
  ['^', '$', '\\', '.', '*', '+', '?', '(', ')', '[', ']', '{', '}', '|', '/']

/-- Characters that may also be escaped in a class, with `v`. -/
def classPunctuation : List Char :=
  ['&', '-', '!', '#', '%', ',', ':', ';', '<', '=', '>', '@', '\x60', '~']

/-- Whether `c` may follow a backslash and stand for itself, with `u` or `v`. -/
def mayEscape (setting : Setting) (inClass : Bool) (c : Char) : Bool :=
  punctuation.contains c || (inClass && c == '-')
    || (setting.flags.unicodeSets && inClass && classPunctuation.contains c)

/-- An escape of a single character. -/
def characterEscape (setting : Setting) (inClass : Bool) (text : List Char) :
    Except Fault (Nat × List Char) :=
  match text with
  | [] => .error ⟨.backslashAtEnd, []⟩
  | 't' :: r => .ok (0x09, r)
  | 'n' :: r => .ok (0x0A, r)
  | 'v' :: r => .ok (0x0B, r)
  | 'f' :: r => .ok (0x0C, r)
  | 'r' :: r => .ok (0x0D, r)
  | 'c' :: r => controlEscape setting inClass text r
  | 'x' :: r =>
    match hex? 2 r with
    | some read => .ok read
    | none => if setting.strict then .error ⟨.invalidEscape, r⟩ else .ok ('x'.toNat, r)
  | 'u' :: r => unicodeEscape setting r
  | c :: r =>
    if c == '0' && !(r.head?.any Char.isDigit) then .ok (0, r)
    else if c.isDigit then
      if setting.strict then .error ⟨.invalidEscape, text⟩ else .ok (octalOrSelf text)
    else if inClass && c == 'b' then .ok (0x08, r)
    else if setting.strict then
      if mayEscape setting inClass c then .ok (c.toNat, r) else .error ⟨.invalidEscape, text⟩
    else if c == 'k' && setting.named then .error ⟨.namedReference, text⟩
    else .ok (c.toNat, r)

/-! ## Groups in advance -/

/-- Whether a parenthesis opens a capturing group, and whether that group has a name, by the text
after it. -/
def opensCapture : List Char → Bool × Bool
  | '?' :: '<' :: '=' :: _ | '?' :: '<' :: '!' :: _ => (false, false)
  | '?' :: '<' :: _ => (true, true)
  | '?' :: _ => (false, false)
  | _ => (true, false)

/-- How many capturing groups a text opens, and whether one has a name. Escapes and classes are
passed over; classes nest if `nested` says so, and `depth` of them are open. -/
def countGroups (nested : Bool) : (depth : Nat) → List Char → Nat × Bool
  | _, [] => (0, false)
  | _, ['\\'] => (0, false)
  | depth, '\\' :: _ :: r => countGroups nested depth r
  | depth, '[' :: r => countGroups nested (if depth = 0 || nested then depth + 1 else depth) r
  | depth, ']' :: r => countGroups nested (depth - 1) r
  | depth, '(' :: r =>
    let (count, named) := countGroups nested depth r
    let (opens, hasName) := opensCapture r
    if depth = 0 && opens then (count + 1, named || hasName) else (count, named)
  | depth, _ :: r => countGroups nested depth r

end Lexeme

end RegexAudit
