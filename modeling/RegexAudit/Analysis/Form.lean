import RegexAudit.Analysis.Category
import RegexAudit.CharSet.OfNode

/-!
# Canonical forms

A node in a form that coverage can be read off: characters are sets, groups are gone, and a
quantifier is its forced repetitions in a row, followed by an optional rest. What is not
understood any further stays as it is.

A row or a choice never has exactly one member; it is that member instead. A lookaround keeps its
alternatives as they are written; their forms are made when they are compared.
-/

namespace RegexAudit

variable [Properties]

/-- The canonical form of a node. -/
inductive Form where
  /-- Known by its form only. -/
  | other (node : Node)
  /-- One character of a set. -/
  | chars (set : CharSet)
  /-- Parts in a row. -/
  | seq (items : List Form)
  | choice (alternatives : List Form)
  | look (direction : Direction) (negate : Bool) (alternatives : List Node)
  /-- Up to `max` repetitions, or any number. -/
  | optional (element : Form) (max : Option Nat)
deriving Inhabited

namespace Form

/-- The longest row that repetitions are written out to. -/
def unrollLimit : Nat := 1024

def isOptional : Form → Bool
  | optional .. => true
  | _ => false

/-- The form as a row. -/
def items : Form → List Form
  | seq items => items
  | f => [f]

mutual

/-- Whether the form may match the empty string; `true` where that is not known. -/
def canBeEmpty : Form → Bool
  | other _ | look .. | optional .. => true
  | chars _ => false
  | seq items => allCanBeEmpty items
  | choice alternatives => anyCanBeEmpty alternatives

def allCanBeEmpty : List Form → Bool
  | [] => true
  | f :: rest => canBeEmpty f && allCanBeEmpty rest

def anyCanBeEmpty : List Form → Bool
  | [] => false
  | f :: rest => canBeEmpty f || anyCanBeEmpty rest

end

/-- The parts in a row; a single part is itself. -/
def row : List Form → Form
  | [f] => f
  | items => seq items

/-- One of the alternatives; a single alternative is itself. -/
def oneOf : List Form → Form
  | [f] => f
  | alternatives => choice alternatives

/-- `f` repeated `count` times and `tail` after it. -/
def repeated (count : Nat) (tail : List Form) (f : Form) : Form :=
  row ((List.replicate count f.items).flatten ++ tail)

/-- What is left to repeat once the forced repetitions are done. -/
def rest (bounds : Bounds) (element : Form) : List Form :=
  if bounds.isFixed then [] else [optional element (bounds.max.map (· - bounds.min))]

mutual

/-- The canonical form of a node. -/
def ofNode (flags : Flags) : Node → Form
  | .alternative elements => row (itemsOf flags elements)
  | .choice _ alternatives => oneOf (ofNodes flags alternatives)
  | .look direction negate alternatives => look direction negate alternatives
  | .quantifier bounds greedy lexeme element =>
    let node := Node.quantifier bounds greedy lexeme element
    if bounds.max == some 0 || unrollLimit < bounds.min then other node
    else
      let form := ofNode flags element
      if unrollLimit < bounds.min * form.items.length then other node
      else repeated bounds.min (rest bounds form) form
  | node =>
    if node.isCharacter then
      match node.charSet? flags with
      | some set => chars set
      | none => other node
    else other node

def ofNodes (flags : Flags) : List Node → List Form
  | [] => []
  | n :: ns => ofNode flags n :: ofNodes flags ns

/-- The canonical forms of some nodes as one row. -/
def itemsOf (flags : Flags) : List Node → List Form
  | [] => []
  | n :: ns => (ofNode flags n).items ++ itemsOf flags ns

end

end Form

end RegexAudit
