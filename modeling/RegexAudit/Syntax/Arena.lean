import RegexAudit.Flags
import RegexAudit.Syntax.Node

/-!
# Arenas

The tree of a pattern as it is stored: a list of entries, where a node is the number of its entry.
An entry keeps the numbers of its children and of its parent, and the stretch of the source its text
is. That the three agree is up to the parser (`Syntax.Parser`), which adds entries before they are
complete and hands some of them to another parent later.
-/

namespace RegexAudit

/-- The number of an entry. -/
abbrev NodeId := Nat

namespace Arena

/-- What a node is, with its children by number. A reference also keeps the group it leads to, once
that is known. -/
inductive Content where
  | choice (frame : Frame) (alternatives : List NodeId)
  | look (direction : Direction) (negate : Bool) (alternatives : List NodeId)
  | alternative (elements : List NodeId)
  | quantifier (min : Nat) (max : Option Nat) (greedy : Bool) (element : NodeId)
  | edge (edge : Edge)
  | backreference (ref : GroupRef) (resolved : Option NodeId)
  | character (value : Nat)
  | range (min max : NodeId)
  | shorthand (set : Shorthand)
  | charClass (negate unicodeSets : Bool) (elements : List NodeId)
  | classExpression (negate : Bool) (expression : NodeId)
  | classOperation (operator : SetOperator) (left right : NodeId)
  | strings (alternatives : List NodeId)
  | string (elements : List NodeId)
deriving DecidableEq

/-- The numbers of the children, in source order. -/
def Content.children : Content → List NodeId
  | choice _ alternatives | look _ _ alternatives | strings alternatives => alternatives
  | alternative elements | charClass _ _ elements | string elements => elements
  | quantifier _ _ _ element => [element]
  | classExpression _ expression => [expression]
  | range left right | classOperation _ left right => [left, right]
  | edge _ | backreference _ _ | character _ | shorthand _ => []

/-- The value, if it is a single character. -/
def Content.value? : Content → Option Nat
  | character value => some value
  | _ => none

def Content.isRange : Content → Bool
  | range .. => true
  | _ => false

/-- A node as it is stored. Its text is the source from byte `start` to byte `stop`. -/
structure Entry where
  content : Content
  parent : Option NodeId
  start : Nat
  stop : Nat
deriving DecidableEq

end Arena

/-- A parsed pattern: its source, its flags and its nodes. -/
structure Ast where
  source : List Char
  flags : Flags
  nodes : List Arena.Entry
  root : NodeId
deriving DecidableEq

namespace Ast

/-- The children of a node; a number without an entry has none. -/
def children (t : Ast) (id : NodeId) : List NodeId :=
  match t.nodes[id]? with
  | some e => e.content.children
  | none => []

def parent? (t : Ast) (id : NodeId) : Option NodeId := t.nodes[id]?.bind (·.parent)

/-- The source text of a node. -/
def raw? (t : Ast) (id : NodeId) : Option (List Char) :=
  t.nodes[id]?.bind fun e => Text.slice? e.start e.stop t.source

/-- Take a node from the stack and put its children there instead, up to `fuel` times; none if the
stack does not become empty, or has a number without an entry. -/
def walkFrom (t : Ast) : (fuel : Nat) → (stack : List NodeId) → Option (List NodeId)
  | _, [] => some []
  | 0, _ :: _ => none
  | fuel + 1, id :: stack =>
    match t.nodes[id]? with
    | some e => (t.walkFrom fuel (e.content.children ++ stack)).map (id :: ·)
    | none => none

/-- All nodes, from the root on. As no node should come twice, there are no more of them than
entries. -/
def walk? (t : Ast) : Option (List NodeId) := t.walkFrom t.nodes.length [t.root]

end Ast

end RegexAudit
