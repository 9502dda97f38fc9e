import RegexAudit.Analysis.Backreference
import RegexAudit.Analysis.Category
import RegexAudit.Analysis.First
import RegexAudit.CharSet.OfNode

/-!
# Reachable characters

Which characters a node consumes first, and which may stand right after it, in either direction of
the input.

A reference consumes what its group does. The analysis of a node takes the analysis of references
as a parameter (`refs`), and `referenced` ties the knot: each jump from a reference to its group
uses up one of `hops`. References that would lead in a circle always match the empty string, so
there are never more jumps than groups.
-/

namespace RegexAudit

variable [Properties]

/-- What a letter consumes. -/
def Letter.first (flags : Flags) (letter : Letter) : First :=
  match letter.charSet? flags with
  | some set => .always set
  | none => .unknown

/-- What stands at the end of a line. -/
def lineEdge (flags : Flags) : Look :=
  ⟨if flags.multiline then .ofCodes Unicode.lineTerminators else .empty, true, true⟩

/-- What an assertion of a position lets follow in a direction. -/
def Edge.look (flags : Flags) (direction : Direction) : Edge → Look
  | lineStart => if direction = .backward then lineEdge flags else .unknown
  | lineEnd => if direction = .forward then lineEdge flags else .unknown
  | word _ => .unknown

/-- Parts of a row, in the order in which a direction meets them. -/
def Direction.arrange (direction : Direction) (parts : List α) : List α :=
  match direction with
  | .forward => parts
  | .backward => parts.reverse

/-- The parts of a row that a direction meets beyond a slot, and the slot of the first of them. -/
def Direction.beyond (direction : Direction) (slot : Nat) (parts : List α) : Nat × List α :=
  match direction with
  | .forward => (slot + 1, parts.drop (slot + 1))
  | .backward => (0, parts.take slot)

/-- What letters in a row consume first. -/
def Letter.firstRow (flags : Flags) (direction : Direction) (letters : List Letter) : First :=
  .row (direction.arrange (letters.map (Letter.first flags)))

namespace Node

/-- The set of a single character that is the only content of a lookaround. -/
def soleSet? (flags : Flags) : List Node → Option CharSet
  | [.alternative [n]] => if n.isCharacter then n.charSet? flags else none
  | _ => none

/-- What a node that matches single characters consumes. -/
def characterFirst (flags : Flags) (n : Node) : First :=
  match n.charSet? flags with
  | some set => .always set
  | none => .unknown

mutual

/-- What the node at `path` consumes first. -/
def first (refs : Path → GroupRef → First) (flags : Flags) (direction : Direction) (path : Path) :
    Node → First
  | alternative elements => firstRow refs flags direction path 0 elements (.nothing .anything)
  | choice _ alternatives => .oneOf (firsts refs flags direction path 0 alternatives)
  | quantifier bounds _ _ element =>
    if bounds.max = some 0 then .nothing .anything
    else
      let x := first refs flags direction (path ++ [0]) element
      if bounds.min = 0 then x.orNothing else x
  | edge e => .nothing (e.look flags direction)
  | look d negate alternatives =>
    .nothing <|
      if d ≠ direction then .unknown
      else if negate then
        match soleSet? flags alternatives with
        | some set => ⟨set.complement, true, true⟩
        | none => .unknown
      else (First.oneOf (firsts refs flags direction path 0 alternatives)).toLook
  | backreference ref => refs path ref
  | strings alternatives => .oneOf (alternatives.map (Letter.firstRow flags direction))
  | string letters => Letter.firstRow flags direction letters
  | character letter => characterFirst flags (character letter)
  | range min max => characterFirst flags (range min max)
  | shorthand set => characterFirst flags (shorthand set)
  | charClass negate unicodeSets elements =>
    characterFirst flags (charClass negate unicodeSets elements)
  | classExpression negate expression => characterFirst flags (classExpression negate expression)
  | classOperation operator left right =>
    characterFirst flags (classOperation operator left right)

/-- What each of the children of the node at `path`, from a slot on, consumes first. -/
def firsts (refs : Path → GroupRef → First) (flags : Flags) (direction : Direction) (path : Path)
    (slot : Nat) : List Node → List First
  | [] => []
  | n :: rest =>
    first refs flags direction (path ++ [slot]) n
      :: firsts refs flags direction path (slot + 1) rest

/-- What is consumed first by what came `before`, and then by the children of the node at `path`
from a slot on, in the order in which the direction meets them. -/
def firstRow (refs : Path → GroupRef → First) (flags : Flags) (direction : Direction) (path : Path)
    (slot : Nat) : List Node → (before : First) → First
  | [], before => before
  | n :: rest, before =>
    match direction with
    | .forward =>
      firstRow refs flags direction path (slot + 1) rest
        (before.andThen fun _ => first refs flags direction (path ++ [slot]) n)
    | .backward =>
      (firstRow refs flags direction path (slot + 1) rest before).andThen fun _ =>
        first refs flags direction (path ++ [slot]) n

end

/-- What a reference consumes first, following at most `hops` references. -/
def referenced (root : Node) (flags : Flags) (direction : Direction) :
    (hops : Nat) → Path → GroupRef → First
  | 0, _, _ => .nothing .anything
  | hops + 1, path, ref =>
    match root.group? ref with
    | none => .nothing .anything
    | some (groupPath, group) =>
      if root.isEmptyReference path ref then .nothing .anything
      else
        let x :=
          (first (referenced root flags direction hops) flags direction groupPath group).asReference
        if root.isStrictReference path ref then x else x.orNothing

/-- What follows a node in a direction, by the steps up from it. -/
def afterAlong (refs : Path → GroupRef → First) (flags : Flags) (direction : Direction) :
    List Step → Node → First
  | [], _ => .nothing .onlyEdge
  | s :: up, n =>
    let path := (up.map (·.slot)).reverse
    match s.parent with
    | alternative elements =>
      let (slot, stretch) := direction.beyond s.slot elements
      (firstRow refs flags direction path slot stretch (.nothing .anything)).andThen fun _ =>
        afterAlong refs flags direction up s.parent
    | string letters =>
      (Letter.firstRow flags direction (direction.beyond s.slot letters).2).andThen fun _ =>
        afterAlong refs flags direction up s.parent
    | quantifier bounds _ _ _ =>
      let outside := afterAlong refs flags direction up s.parent
      if bounds.max.all fun m => decide (1 < m) then
        .oneOf [outside,
          .row [first refs flags direction (path ++ [s.slot]) n, outside]]
      else outside
    | look d _ _ => if d = direction then .unknown else afterAlong refs flags direction up s.parent
    | choice .whole _ => .nothing .onlyEdge
    | choice _ _ => afterAlong refs flags direction up s.parent
    | _ => .unknown

end Node

namespace Regex

/-- What references consume first. -/
def references (r : Regex) (flags : Flags) (direction : Direction) : Path → GroupRef → First :=
  r.root.referenced flags direction r.root.size

/-- What the node at a place consumes first. -/
def first (r : Regex) (flags : Flags) (direction : Direction) (p : Place) : First :=
  p.node.first (r.references flags direction) flags direction p.path

/-- What follows a place, up to the end of the input. -/
def after (r : Regex) (flags : Flags) (direction : Direction) (p : Place) : First :=
  Node.afterAlong (r.references flags direction) flags direction p.trail p.node

/-- The character right after a place. -/
def lookAfter (r : Regex) (flags : Flags) (direction : Direction) (p : Place) : Look :=
  (r.after flags direction p).toLook

end Regex

end RegexAudit
