import RegexAudit.ParseError

/-!
# Flags

The letters after a regular expression literal. `read` accepts distinct known letters without both
`u` and `v`; `toText` writes them back in the order of `Flag.all`.
-/

namespace RegexAudit

/-- A flag of a regular expression. -/
inductive Flag where
  | hasIndices
  | global
  | ignoreCase
  | multiline
  | dotAll
  | unicode
  | unicodeSets
  | sticky
deriving DecidableEq

namespace Flag

def letter : Flag → Char
  | hasIndices => 'd'
  | global => 'g'
  | ignoreCase => 'i'
  | multiline => 'm'
  | dotAll => 's'
  | unicode => 'u'
  | unicodeSets => 'v'
  | sticky => 'y'

/-- All flags, in the order in which they are written. -/
def all : List Flag :=
  [hasIndices, global, ignoreCase, multiline, dotAll, unicode, unicodeSets, sticky]

def ofLetter? (c : Char) : Option Flag := all.find? fun f => f.letter = c

end Flag

/-- Which flags are set. -/
structure Flags where
  hasIndices : Bool := false
  global : Bool := false
  ignoreCase : Bool := false
  multiline : Bool := false
  dotAll : Bool := false
  unicode : Bool := false
  unicodeSets : Bool := false
  sticky : Bool := false
deriving DecidableEq

namespace Flags

def empty : Flags := {}

def has (flags : Flags) : Flag → Bool
  | .hasIndices => flags.hasIndices
  | .global => flags.global
  | .ignoreCase => flags.ignoreCase
  | .multiline => flags.multiline
  | .dotAll => flags.dotAll
  | .unicode => flags.unicode
  | .unicodeSets => flags.unicodeSets
  | .sticky => flags.sticky

def add (flags : Flags) : Flag → Flags
  | .hasIndices => { flags with hasIndices := true }
  | .global => { flags with global := true }
  | .ignoreCase => { flags with ignoreCase := true }
  | .multiline => { flags with multiline := true }
  | .dotAll => { flags with dotAll := true }
  | .unicode => { flags with unicode := true }
  | .unicodeSets => { flags with unicodeSets := true }
  | .sticky => { flags with sticky := true }

/-- Either `u` or `v`: escapes are strict and case folding is that of Unicode. -/
def unicodeMode (flags : Flags) : Bool := flags.unicode || flags.unicodeSets

/-- Add the letters of a text that starts at byte `offset`. -/
def addLetters (flags : Flags) (offset : Nat) : List Char → Except ParseError Flags
  | [] => .ok flags
  | c :: cs =>
    match Flag.ofLetter? c with
    | none => .error ⟨.unknownFlag c, offset⟩
    | some f =>
      if flags.has f then .error ⟨.repeatedFlag c, offset⟩
      else addLetters (flags.add f) (offset + c.utf8Size) cs

/-- Read the letters of a literal. -/
def read (letters : List Char) : Except ParseError Flags := do
  let flags ← addLetters empty 0 letters
  if flags.unicode && flags.unicodeSets then .error ⟨.flagConflict, 0⟩ else .ok flags

/-- The letters of the flags that are set. -/
def toText (flags : Flags) : List Char := (Flag.all.filter flags.has).map Flag.letter

end Flags

end RegexAudit
