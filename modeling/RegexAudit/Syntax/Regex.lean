import RegexAudit.Syntax.Pattern

/-!
# Regular expressions

A pattern with its flags, written `/source/flags` as a literal. The source ends at the last slash,
so it may hold slashes itself.
-/

namespace RegexAudit

/-- A pattern and its flags. -/
structure Regex where
  source : List Char
  flags : Flags
  root : Node

namespace Regex

def parse (source : List Char) (flags : Flags) : Except ParseError Regex := do
  let root ← Pattern.parse flags source
  .ok ⟨source, flags, root⟩

/-- The text before the last slash and the text after it. -/
def splitAtLastSlash? (text : List Char) : Option (List Char × List Char) :=
  let back := text.reverse
  match back.dropWhile (· != '/') with
  | [] => none
  | _ :: front => some (front.reverse, (back.takeWhile (· != '/')).reverse)

/-- Read a literal. -/
def ofLiteral (literal : List Char) : Except ParseError Regex :=
  match literal with
  | '/' :: body =>
    match splitAtLastSlash? body with
    | none => .error ⟨.unterminatedLiteral, Text.width literal⟩
    | some (source, letters) => do
      let flags ← Flags.read letters
      parse source flags
  | _ => .error ⟨.missingSlash, 0⟩

/-- The literal of a regular expression. -/
def toLiteral (r : Regex) : List Char := '/' :: r.source ++ '/' :: r.flags.toText

/-- All places of the tree, parents before children. -/
def walk (r : Regex) : List Place := r.root.walk

/-- The number of the group a place holds, if it is a capturing group. -/
def captureIndex? (p : Place) : Option Nat :=
  match p.node with
  | .choice (.capture index _) _ => some index
  | _ => none

/-- The capturing groups. Their numbers follow the order of the walk. -/
def groups (r : Regex) : List Place := r.walk.filter fun p => (captureIndex? p).isSome

/-- The number of the group a reference names. -/
def resolve? (r : Regex) (ref : GroupRef) : Option Nat :=
  match r.root.group? ref with
  | some (_, .choice (.capture index _) _) => some index
  | _ => none

end Regex

end RegexAudit
