import RegexAudit.Syntax.Node

/-!
# Places in a tree

A place is a node together with where it stands: its number in a walk that visits parents before
children, the byte offset of its text, and the steps up to the root. `Node.walk` lists all places
of a tree.
-/

namespace RegexAudit

/-- A step up from a child to its parent. -/
structure Step where
  parent : Node
  /-- The parent's number in the walk. -/
  position : Nat
  /-- The parent's byte offset. -/
  start : Nat
  /-- Which child of the parent the step comes from. -/
  slot : Nat

/-- A node and where it stands. -/
structure Place where
  node : Node
  position : Nat
  start : Nat
  /-- Steps up, the parent's first. -/
  trail : List Step

/-- The child numbers on the way down from the root. -/
abbrev Path := List Nat

namespace Place

/-- The byte offset of the end of the text. -/
def stop (p : Place) : Nat := p.start + p.node.width

def path (p : Place) : Path := (p.trail.map (·.slot)).reverse

/-- The place of the parent and those above it. -/
def ancestorsOf : List Step → List Place
  | [] => []
  | s :: rest => ⟨s.parent, s.position, s.start, rest⟩ :: ancestorsOf rest

/-- The places above, from the parent to the root. -/
def ancestors (p : Place) : List Place := ancestorsOf p.trail

def parent? (p : Place) : Option Place := p.ancestors.head?

/-- Whether `p` stands strictly above `q` in the same tree. -/
def isAbove (p q : Place) : Bool := q.trail.any fun s => s.position == p.position

/-- Whether `p` is the parent of `q` in the same tree. -/
def isParent (p q : Place) : Bool := q.trail.head?.any fun s => s.position == p.position

/-- The direction a trail's innermost lookaround looks in; patterns are matched forward. -/
def directionOf : List Step → Direction
  | [] => .forward
  | s :: rest =>
    match s.parent with
    | .look direction _ _ => direction
    | _ => directionOf rest

/-- The direction the node is matched in. -/
def direction (p : Place) : Direction :=
  match p.node with
  | .look direction _ _ => direction
  | _ => directionOf p.trail

/-- The places of nodes in a row, with `gap` bytes between them. -/
def inRow (trail : Nat → List Step) (gap slot position start : Nat) : List Node → List Place
  | [] => []
  | n :: rest =>
    ⟨n, position, start, trail slot⟩
      :: inRow trail gap (slot + 1) (position + n.size) (start + n.width + gap) rest

/-- The places of the children. -/
def children (p : Place) : List Place :=
  inRow (fun slot => ⟨p.node, p.position, p.start, slot⟩ :: p.trail) (Text.width p.node.separator) 0
    (p.position + 1) (p.start + Text.width p.node.opening) p.node.children

/-- The places of the alternatives of a pattern, group or lookaround. -/
def alternatives (p : Place) : List Place := if p.node.alternatives?.isSome then p.children else []

end Place

namespace Node

/-- The places of letters in a row below one parent. -/
def letterPlaces (trail : Nat → List Step) (slot position start : Nat) : List Letter → List Place
  | [] => []
  | c :: rest =>
    ⟨character c, position, start, trail slot⟩
      :: letterPlaces trail (slot + 1) (position + 1) (start + Text.width c.lexeme) rest

/-- The places of a string of letters and of its letters. -/
def stringPlaces (trail : List Step) (position start : Nat) (letters : List Letter) : List Place :=
  ⟨string letters, position, start, trail⟩
    :: letterPlaces (fun slot => ⟨string letters, position, start, slot⟩ :: trail) 0 (position + 1)
      start letters

/-- The places of strings with a bar between them. -/
def stringsPlaces (trail : Nat → List Step) (slot position start : Nat) :
    List (List Letter) → List Place
  | [] => []
  | letters :: rest =>
    stringPlaces (trail slot) position start letters
      ++ stringsPlaces trail (slot + 1) (position + letters.length + 1)
        (start + Text.width (lettersText letters) + 1) rest

mutual

/-- The places of a tree whose root has number `position`, offset `start` and steps `trail`. -/
def walkFrom (trail : List Step) (position start : Nat) (n : Node) : List Place :=
  ⟨n, position, start, trail⟩ ::
    match n with
    | choice frame alternatives =>
      walkAll (fun slot => ⟨choice frame alternatives, position, start, slot⟩ :: trail) 1 0
        (position + 1) (start + Text.width frame.opening) alternatives
    | look direction negate alternatives =>
      walkAll (fun slot => ⟨look direction negate alternatives, position, start, slot⟩ :: trail) 1 0
        (position + 1) (start + Text.width (lookOpening direction negate)) alternatives
    | alternative elements =>
      walkAll (fun slot => ⟨alternative elements, position, start, slot⟩ :: trail) 0 0
        (position + 1) start elements
    | quantifier bounds greedy lexeme element =>
      walkFrom (⟨quantifier bounds greedy lexeme element, position, start, 0⟩ :: trail)
        (position + 1) start element
    | charClass negate unicodeSets elements =>
      walkAll (fun slot => ⟨charClass negate unicodeSets elements, position, start, slot⟩ :: trail)
        0 0 (position + 1) (start + Text.width (classOpening negate)) elements
    | classExpression negate expression =>
      walkFrom (⟨classExpression negate expression, position, start, 0⟩ :: trail)
        (position + 1) (start + Text.width (classOpening negate)) expression
    | classOperation operator left right =>
      walkFrom (⟨classOperation operator left right, position, start, 0⟩ :: trail)
          (position + 1) start left
        ++ walkFrom (⟨classOperation operator left right, position, start, 1⟩ :: trail)
          (position + 1 + left.size)
          (start + left.width + Text.width operator.text) right
    | range min max =>
      [⟨character min, position + 1, start, ⟨range min max, position, start, 0⟩ :: trail⟩,
       ⟨character max, position + 2, start + Text.width min.lexeme + 1,
         ⟨range min max, position, start, 1⟩ :: trail⟩]
    | strings alternatives =>
      stringsPlaces (fun slot => ⟨strings alternatives, position, start, slot⟩ :: trail) 0
        (position + 1) (start + 3) alternatives
    | string letters =>
      letterPlaces (fun slot => ⟨string letters, position, start, slot⟩ :: trail) 0 (position + 1)
        start letters
    | edge _ | backreference _ | character _ | shorthand _ => []

/-- The places of some children with `gap` bytes between them. -/
def walkAll (trail : Nat → List Step) (gap slot position start : Nat) : List Node → List Place
  | [] => []
  | n :: rest =>
    walkFrom (trail slot) position start n
      ++ walkAll trail gap (slot + 1) (position + n.size) (start + n.width + gap) rest

end

/-- All places of a tree, parents before children. -/
def walk (root : Node) : List Place := walkFrom [] 0 0 root

mutual

/-- The first group in the tree that a reference names, and the way down to it. -/
def group? (ref : GroupRef) : Node → Option (Path × Node)
  | choice frame alternatives =>
    if frame.isNamedBy ref then some ([], choice frame alternatives)
    else groupAmong? ref 0 alternatives
  | look _ _ alternatives => groupAmong? ref 0 alternatives
  | alternative elements => groupAmong? ref 0 elements
  | quantifier _ _ _ element => (group? ref element).map fun (path, n) => (0 :: path, n)
  | _ => none

def groupAmong? (ref : GroupRef) (slot : Nat) : List Node → Option (Path × Node)
  | [] => none
  | n :: rest =>
    match group? ref n with
    | some (path, found) => some (slot :: path, found)
    | none => groupAmong? ref (slot + 1) rest

end

end Node

end RegexAudit
