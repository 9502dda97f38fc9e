import RegexAudit.Syntax.Regex

/-!
# Backreferences

A reference to a group that has not taken part in the match matches the empty string. Where a
reference stands, compared with its group, can tell that this always happens, or that it never does.

The ways down to the reference and to the group part at the lowest node above both. Everything is
decided there and on the way from there to the group.
-/

namespace RegexAudit

/-- Where the ways to a reference and to its group part. -/
structure Parting where
  /-- The lowest node above both. -/
  node : Node
  /-- The direction the node is matched in. -/
  direction : Direction
  /-- The children of the node towards the reference and towards the group. -/
  refSlot : Nat
  groupSlot : Nat
  /-- The nodes below it and above the group. -/
  between : List Node

namespace Parting

/-- The nodes on a way down, its end aside. -/
def nodesAlong : Node → Path → List Node
  | _, [] => []
  | n, slot :: path =>
    n :: match n.children[slot]? with
      | some child => nodesAlong child path
      | none => []

/-- The direction below a node. -/
def directionBelow (direction : Direction) : Node → Direction
  | .look direction _ _ => direction
  | _ => direction

/-- Where two ways down part; none if the reference stands inside its group. -/
def find? (direction : Direction) (n : Node) : (ref group : Path) → Option Parting
  | r :: ref, g :: group =>
    let direction := directionBelow direction n
    match n.children[g]? with
    | none => none
    | some child =>
      if r = g then find? direction child ref group
      else some ⟨n, direction, r, g, nodesAlong child group⟩
  | _, _ => none

def isNegatedLook : Node → Bool
  | .look _ negate _ => negate
  | _ => false

/-- Whether the group cannot have been captured when the reference is matched: the two are in
different alternatives, the group's captures are dropped with a negated lookaround, or the
reference is matched first. -/
def isEarly (p : Parting) : Bool :=
  p.node.alternatives?.isSome || p.between.any isNegatedLook ||
    match p.node, p.direction with
    | .alternative _, .forward => decide (p.refSlot < p.groupSlot)
    | .alternative _, .backward => decide (p.groupSlot < p.refSlot)
    | _, _ => false

/-- Whether a node can be passed without matching all of its parts. -/
def isAvoidable : Node → Bool
  | .quantifier bounds _ _ _ => bounds.min == 0
  | .choice .whole _ => false
  | .choice _ alternatives => decide (1 < alternatives.length)
  | .look _ negate alternatives => negate || decide (1 < alternatives.length)
  | _ => false

end Parting

namespace Node

/-- Where the ways to a reference at `path` and to its group part; `none` if there is no group, or
if it holds the reference. -/
def parting? (root : Node) (path : Path) (ref : GroupRef) : Option Parting := do
  let (group, _) ← root.group? ref
  Parting.find? .forward root path group

/-- Whether a reference always matches the empty string. -/
def isEmptyReference (root : Node) (path : Path) (ref : GroupRef) : Bool :=
  match root.parting? path ref with
  | some parting => parting.isEarly
  | none => true

/-- Whether a reference is only matched after its group. -/
def isStrictReference (root : Node) (path : Path) (ref : GroupRef) : Bool :=
  match root.parting? path ref with
  | some parting => !parting.isEarly && !parting.between.any Parting.isAvoidable
  | none => false

end Node

end RegexAudit
