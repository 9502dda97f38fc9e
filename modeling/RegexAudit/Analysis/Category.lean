import RegexAudit.Syntax.Node

/-!
# Categories of nodes

How the analyses treat a node.
-/

namespace RegexAudit

/-- What kind of matching a node does. -/
inductive Category where
  /-- Matches one character of a set. -/
  | character
  /-- Elements in a row. -/
  | sequence
  /-- A choice between alternatives. -/
  | choice
  | quantified
  | lookaround
  /-- Tests of a position and references to groups, compared by their form only. -/
  | atomic
deriving DecidableEq

namespace Node

def category : Node → Category
  | character _ | range .. | shorthand _ | charClass .. | classExpression .. | classOperation .. =>
    .character
  | alternative _ | string _ => .sequence
  | choice .. | strings _ => .choice
  | quantifier .. => .quantified
  | look .. => .lookaround
  | edge _ | backreference _ => .atomic

def isCharacter (n : Node) : Bool := n.category == .character

end Node

end RegexAudit
