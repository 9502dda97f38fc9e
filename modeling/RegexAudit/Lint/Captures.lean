/-!
# Uses of captures

Which capturing groups the code around a pattern reads: by number, by name, through a replacement
text, or in a way that cannot be followed.

In a replacement text, `$$` is a dollar sign, `$&`, `` $` `` and `$'` insert the match and what is
around it, `$1` and `$12` insert groups by number and `$<name>` by name. What `$12` means depends
on the number of groups, so it counts as a use of 12 and of 1. A `$<` that is never closed takes
the rest of the text.
-/

namespace RegexAudit

/-- The captures that are read. -/
structure CaptureUses where
  indexes : List Nat := []
  names : List (List Char) := []
  all : Bool := false

namespace CaptureUses

def none : CaptureUses := {}

def addIndex (uses : CaptureUses) (n : Nat) : CaptureUses :=
  { uses with indexes := n :: uses.indexes }

def addName (uses : CaptureUses) (name : List Char) : CaptureUses :=
  { uses with names := name :: uses.names }

/-- Every group is read. -/
def addAll (uses : CaptureUses) : CaptureUses := { uses with all := true }

/-- Whether a group is read. -/
def has (uses : CaptureUses) (index : Nat) (name : Option (List Char)) : Bool :=
  uses.all || uses.indexes.contains index || name.any fun s => uses.names.contains s

/-! ## Replacement texts -/

/-- How far a replacement text has been read. -/
inductive Reading where
  | plain
  /-- After a dollar sign. -/
  | dollar
  /-- After a dollar sign and a digit. -/
  | digit (d : Char)
  /-- After `$<` and the letters of a name, last first. -/
  | name (letters : List Char)

def digitValue (d : Char) : Nat := d.toNat - '0'.toNat

/-- The use of a group number; 0 is no group. -/
def addNumber (uses : CaptureUses) (n : Nat) : CaptureUses :=
  if n = 0 then uses else uses.addIndex n

/-- What a single character does. -/
def readChar (uses : CaptureUses) (reading : Reading) (c : Char) : CaptureUses × Reading :=
  let fresh (uses : CaptureUses) : CaptureUses × Reading :=
    (uses, if c = '$' then .dollar else .plain)
  match reading with
  | .plain => fresh uses
  | .dollar =>
    if c.isDigit then (uses, .digit c)
    else if c = '<' then (uses, .name [])
    else (uses, .plain)
  | .digit d =>
    if c.isDigit then
      ((uses.addNumber (digitValue d * 10 + digitValue c)).addNumber (digitValue d), .plain)
    else fresh (uses.addNumber (digitValue d))
  | .name letters =>
    if c = '>' then (uses.addName letters.reverse, .plain) else (uses, .name (c :: letters))

def readFrom (uses : CaptureUses) (reading : Reading) : List Char → CaptureUses
  | [] =>
    match reading with
    | .digit d => uses.addNumber (digitValue d)
    | _ => uses
  | c :: cs =>
    let (uses, reading) := uses.readChar reading c
    uses.readFrom reading cs

/-- The uses of a replacement text. -/
def addReplacement (uses : CaptureUses) (text : List Char) : CaptureUses :=
  uses.readFrom .plain text

end CaptureUses

end RegexAudit
