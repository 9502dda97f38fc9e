import RegexAudit.CharSet.Fold
import RegexAudit.CharSet.Properties
import RegexAudit.Syntax.Node
import RegexAudit.Unicode.Basic

/-!
# Sets of nodes

The characters that a node of a class, or a single character, stands for. Letters and ranges are
closed under case where they are read; a negated class is the complement of what it lists. A node
that can match anything but exactly one character has no set: strings, lone surrogates, unknown
properties, and everything outside of classes that is no character.
-/

namespace RegexAudit

variable [Properties]

/-- What `\w` stands for. -/
def wordSet (flags : Flags) : CharSet :=
  let word := CharSet.ofCodes Unicode.wordCharacters
  if flags.ignoreCase && flags.unicodeMode then
    word.join (CharSet.ofCodes Unicode.foldedWordCharacters)
  else word

/-- What a shorthand stands for. A negated property is folded before the complement with `v`, and
after it otherwise. -/
def Shorthand.charSet? (flags : Flags) : Shorthand → Option CharSet
  | any =>
    some (if flags.dotAll then CharSet.all
      else (CharSet.ofCodes Unicode.lineTerminators).complement)
  | digit negate => some ((CharSet.ofCodes Unicode.digits).complementIf negate)
  | space negate => some ((CharSet.ofCodes Unicode.blanks).complementIf negate)
  | word negate => some ((wordSet flags).complementIf negate)
  | property key value negate =>
    if isStringProperty key value then none
    else (Properties.set? key value).map fun set =>
      if !negate then set.fold flags
      else if flags.unicodeSets then (set.fold flags).complement
      else set.complement.fold flags

/-- What a letter stands for. -/
def Letter.charSet? (flags : Flags) (letter : Letter) : Option CharSet :=
  (CharSet.ofCode? letter.value).map (CharSet.fold flags)

/-- What a string stands for, if it is one letter. -/
def Letter.stringSet? (flags : Flags) : List Letter → Option CharSet
  | [letter] => letter.charSet? flags
  | _ => none

namespace Node

mutual

/-- What a node stands for. -/
def charSet? (flags : Flags) : Node → Option CharSet
  | character letter => letter.charSet? flags
  | range min max =>
    if min.value.isValidChar && max.value.isValidChar then
      some ((CharSet.span (Char.ofNat min.value) (Char.ofNat max.value)).fold flags)
    else none
  | shorthand set => set.charSet? flags
  | charClass negate _ elements =>
    (charSets? flags elements).map fun sets => (CharSet.joinAll sets).complementIf negate
  | classExpression negate expression =>
    (charSet? flags expression).map (CharSet.complementIf negate)
  | classOperation operator left right =>
    match charSet? flags left, charSet? flags right with
    | some s, some t =>
      match operator with
      | .intersection => some (s.meet t)
      | .subtraction => some (s.minus t)
    | _, _ => none
  | strings alternatives =>
    (alternatives.mapM (Letter.stringSet? flags)).map CharSet.joinAll
  | string letters => Letter.stringSet? flags letters
  | choice .. | look .. | alternative _ | quantifier .. | edge _ | backreference _ => none

/-- What some nodes stand for, if each stands for a set. -/
def charSets? (flags : Flags) : List Node → Option (List CharSet)
  | [] => some []
  | n :: rest =>
    match charSet? flags n, charSets? flags rest with
    | some s, some sets => some (s :: sets)
    | _, _ => none

end

end Node

end RegexAudit
