import RegexAudit.Bounds
import RegexAudit.Text

/-!
# Syntax trees

The tree of a pattern, and the text it stands for. A tree keeps every character of the source: the
text of a node is its opening, the texts of its children with a separator between them, and its
closing. So a node holds no offsets; they follow from the widths of the texts before it. Nor has it a
number or a parent: those are parts of a place (`Syntax.Place`), and of an arena (`Syntax.Arena`).
-/

namespace RegexAudit

/-- The way a node is matched, or a lookaround looks. -/
inductive Direction where
  | forward
  | backward
deriving DecidableEq

def Direction.reverse : Direction → Direction
  | forward => backward
  | backward => forward

/-- How a reference names its group. -/
inductive GroupRef where
  | index (n : Nat)
  | name (name : List Char)
deriving DecidableEq

/-- What encloses alternatives: the whole pattern, a plain group or a capturing group. -/
inductive Frame where
  | whole
  | plain
  | capture (index : Nat) (name : Option (List Char))
deriving DecidableEq

/-- Tests of a position that look at no pattern of their own. -/
inductive Edge where
  | lineStart
  | lineEnd
  | word (negate : Bool)
deriving DecidableEq

/-- Short names of character sets. -/
inductive Shorthand where
  | any
  | digit (negate : Bool)
  | space (negate : Bool)
  | word (negate : Bool)
  | property (key : Option (List Char)) (value : List Char) (negate : Bool)
deriving DecidableEq

/-- The operators of a class expression. -/
inductive SetOperator where
  | intersection
  | subtraction
deriving DecidableEq

/-- A character of a pattern, as it is written. The value may be a lone surrogate. -/
structure Letter where
  value : Nat
  lexeme : List Char
deriving DecidableEq

/-- A node of the tree of a pattern. -/
inductive Node where
  /-- A pattern or a group. -/
  | choice (frame : Frame) (alternatives : List Node)
  /-- A lookahead or a lookbehind. -/
  | look (direction : Direction) (negate : Bool) (alternatives : List Node)
  /-- Elements in a row. -/
  | alternative (elements : List Node)
  /-- A repeated element; `lexeme` is the text after it. -/
  | quantifier (bounds : Bounds) (greedy : Bool) (lexeme : List Char) (element : Node)
  | edge (edge : Edge)
  | backreference (ref : GroupRef)
  | character (letter : Letter)
  /-- A range in a class. -/
  | range (min max : Letter)
  | shorthand (set : Shorthand)
  /-- A class that lists its elements. -/
  | charClass (negate unicodeSets : Bool) (elements : List Node)
  /-- A class made by set operators. -/
  | classExpression (negate : Bool) (expression : Node)
  | classOperation (operator : SetOperator) (left right : Node)
  /-- Strings in a class. -/
  | strings (alternatives : List (List Letter))
  | string (letters : List Letter)
deriving Inhabited

/-! ## Kinds -/

/-- What a node is, its contents aside. -/
inductive Kind where
  | pattern
  | group
  | capturingGroup
  | assertion
  | alternative
  | quantifier
  | backreference
  | character
  | range
  | shorthand
  | charClass
  | classExpression
  | intersection
  | subtraction
  | strings
  | string
deriving DecidableEq

def Node.kind : Node → Kind
  | choice .whole _ => .pattern
  | choice .plain _ => .group
  | choice (.capture ..) _ => .capturingGroup
  | look .. | edge _ => .assertion
  | alternative _ => .alternative
  | quantifier .. => .quantifier
  | backreference _ => .backreference
  | character _ => .character
  | range .. => .range
  | shorthand _ => .shorthand
  | charClass .. => .charClass
  | classExpression .. => .classExpression
  | classOperation .intersection _ _ => .intersection
  | classOperation .subtraction _ _ => .subtraction
  | strings _ => .strings
  | string _ => .string

/-! ## Delimiters -/

def Frame.opening : Frame → List Char
  | whole => []
  | plain => ['(', '?', ':']
  | capture _ none => ['(']
  | capture _ (some name) => ['(', '?', '<'] ++ name ++ ['>']

def Frame.closing : Frame → List Char
  | whole => []
  | _ => [')']

def lookOpening : Direction → Bool → List Char
  | .forward, false => ['(', '?', '=']
  | .forward, true => ['(', '?', '!']
  | .backward, false => ['(', '?', '<', '=']
  | .backward, true => ['(', '?', '<', '!']

def classOpening (negate : Bool) : List Char := if negate then ['[', '^'] else ['[']

def Edge.text : Edge → List Char
  | lineStart => ['^']
  | lineEnd => ['$']
  | word false => ['\\', 'b']
  | word true => ['\\', 'B']

def GroupRef.text : GroupRef → List Char
  | index n => '\\' :: Nat.toDigits 10 n
  | name s => ['\\', 'k', '<'] ++ s ++ ['>']

def Shorthand.text : Shorthand → List Char
  | any => ['.']
  | digit negate => ['\\', if negate then 'D' else 'd']
  | space negate => ['\\', if negate then 'S' else 's']
  | word negate => ['\\', if negate then 'W' else 'w']
  | property key value negate =>
    ['\\', if negate then 'P' else 'p', '{'] ++ (key.map (· ++ ['='])).getD [] ++ value ++ ['}']

def SetOperator.text : SetOperator → List Char
  | intersection => ['&', '&']
  | subtraction => ['-', '-']

/-- Properties whose members are strings; they have no key. -/
def stringProperties : List String :=
  ["Basic_Emoji", "Emoji_Keycap_Sequence", "RGI_Emoji", "RGI_Emoji_Flag_Sequence",
   "RGI_Emoji_Modifier_Sequence", "RGI_Emoji_Tag_Sequence", "RGI_Emoji_ZWJ_Sequence"]

def isStringProperty (key : Option (List Char)) (value : List Char) : Bool :=
  key.isNone && stringProperties.any fun name => name.toList == value

namespace Node

/-- The text before the first child. -/
def opening : Node → List Char
  | choice frame _ => frame.opening
  | look direction negate _ => lookOpening direction negate
  | alternative _ | quantifier .. | range .. | classOperation .. | string _ => []
  | charClass negate _ _ | classExpression negate _ => classOpening negate
  | strings _ => ['\\', 'q', '{']
  | edge e => e.text
  | backreference ref => ref.text
  | character letter => letter.lexeme
  | shorthand set => set.text

/-- The text between two children. -/
def separator : Node → List Char
  | choice .. | look .. | strings _ => ['|']
  | range .. => ['-']
  | classOperation operator _ _ => operator.text
  | _ => []

/-- The text after the last child. -/
def closing : Node → List Char
  | choice frame _ => frame.closing
  | look .. => [')']
  | quantifier _ _ lexeme _ => lexeme
  | charClass .. | classExpression .. => [']']
  | strings _ => ['}']
  | _ => []

/-- The children, in source order. -/
def children : Node → List Node
  | choice _ alternatives | look _ _ alternatives => alternatives
  | alternative elements | charClass _ _ elements => elements
  | quantifier _ _ _ element => [element]
  | classExpression _ expression => [expression]
  | classOperation _ left right => [left, right]
  | range min max => [character min, character max]
  | strings alternatives => alternatives.map string
  | string letters => letters.map character
  | edge _ | backreference _ | character _ | shorthand _ => []

/-- The alternatives of a pattern, group or lookaround. -/
def alternatives? : Node → Option (List Node)
  | choice _ alternatives | look _ _ alternatives => some alternatives
  | _ => none

/-- The alternatives, if there are any. -/
def alternatives (n : Node) : List Node := n.alternatives?.getD []

/-- The elements of an alternative. -/
def elements : Node → List Node
  | alternative elements => elements
  | _ => []

/-! ## Text and size -/

/-- Number of strings and letters. -/
def stringsSize : List (List Letter) → Nat
  | [] => 0
  | letters :: rest => letters.length + 1 + stringsSize rest

/-- The text of letters in a row. -/
def lettersText (letters : List Letter) : List Char := letters.flatMap (·.lexeme)

mutual

/-- The source text of a node. -/
def text : Node → List Char
  | choice frame alternatives => frame.opening ++ textAll ['|'] alternatives ++ frame.closing
  | look direction negate alternatives =>
    lookOpening direction negate ++ textAll ['|'] alternatives ++ [')']
  | alternative elements => textAll [] elements
  | quantifier _ _ lexeme element => text element ++ lexeme
  | edge e => e.text
  | backreference ref => ref.text
  | character letter => letter.lexeme
  | range min max => min.lexeme ++ '-' :: max.lexeme
  | shorthand set => set.text
  | charClass negate _ elements => classOpening negate ++ textAll [] elements ++ [']']
  | classExpression negate expression => classOpening negate ++ text expression ++ [']']
  | classOperation operator left right => text left ++ operator.text ++ text right
  | strings alternatives =>
    ['\\', 'q', '{'] ++ Text.join ['|'] (alternatives.map lettersText) ++ ['}']
  | string letters => lettersText letters

/-- The texts of some nodes with `separator` between them. -/
def textAll (separator : List Char) : List Node → List Char
  | [] => []
  | [n] => text n
  | n :: m :: rest => text n ++ separator ++ textAll separator (m :: rest)

end

mutual

/-- Number of bytes of the source text. -/
def width : Node → Nat
  | choice frame alternatives =>
    Text.width frame.opening + widthAll 1 alternatives + Text.width frame.closing
  | look direction negate alternatives =>
    Text.width (lookOpening direction negate) + widthAll 1 alternatives + 1
  | alternative elements => widthAll 0 elements
  | quantifier _ _ lexeme element => width element + Text.width lexeme
  | edge e => Text.width e.text
  | backreference ref => Text.width ref.text
  | character letter => Text.width letter.lexeme
  | range min max => Text.width min.lexeme + (1 + Text.width max.lexeme)
  | shorthand set => Text.width set.text
  | charClass negate _ elements => Text.width (classOpening negate) + widthAll 0 elements + 1
  | classExpression negate expression => Text.width (classOpening negate) + width expression + 1
  | classOperation operator left right => width left + Text.width operator.text + width right
  | strings alternatives => 3 + Text.width (Text.join ['|'] (alternatives.map lettersText)) + 1
  | string letters => Text.width (lettersText letters)

/-- Number of bytes of some nodes with `gap` bytes between them. -/
def widthAll (gap : Nat) : List Node → Nat
  | [] => 0
  | [n] => width n
  | n :: m :: rest => width n + gap + widthAll gap (m :: rest)

end

mutual

theorem width_eq : (n : Node) → width n = Text.width (text n)
  | choice _ alternatives => by
    rw [width, text, Text.width_append, Text.width_append, widthAll_eq ['|'] 1 rfl alternatives]
  | look _ _ alternatives => by
    rw [width, text, Text.width_append, Text.width_append, widthAll_eq ['|'] 1 rfl alternatives]
    rfl
  | alternative elements => by rw [width, text, widthAll_eq [] 0 rfl elements]
  | quantifier _ _ _ element => by rw [width, text, Text.width_append, width_eq element]
  | edge _ | backreference _ | character _ | shorthand _ | string _ => rfl
  | range _ _ => by
    rw [width, text, Text.width_append]
    rfl
  | charClass _ _ elements => by
    rw [width, text, Text.width_append, Text.width_append, widthAll_eq [] 0 rfl elements]
    rfl
  | classExpression _ expression => by
    rw [width, text, Text.width_append, Text.width_append, width_eq expression]
    rfl
  | classOperation _ left right => by
    rw [width, text, Text.width_append, Text.width_append, width_eq left, width_eq right]
  | strings _ => by
    rw [width, text, Text.width_append, Text.width_append]
    rfl

theorem widthAll_eq (separator : List Char) (gap : Nat) (h : gap = Text.width separator) :
    (ns : List Node) → widthAll gap ns = Text.width (textAll separator ns)
  | [] => rfl
  | [n] => by rw [widthAll, textAll, width_eq n]
  | n :: m :: rest => by
    rw [widthAll, textAll, Text.width_append, Text.width_append, width_eq n, ← h,
      widthAll_eq separator gap h (m :: rest)]

end

mutual

/-- Number of nodes of the tree. -/
def size : Node → Nat
  | choice _ alternatives | look _ _ alternatives => sizeAll alternatives + 1
  | alternative elements | charClass _ _ elements => sizeAll elements + 1
  | quantifier _ _ _ element => size element + 1
  | classExpression _ expression => size expression + 1
  | classOperation _ left right => size left + size right + 1
  | range .. => 3
  | strings alternatives => stringsSize alternatives + 1
  | string letters => letters.length + 1
  | edge _ | backreference _ | character _ | shorthand _ => 1

def sizeAll : List Node → Nat
  | [] => 0
  | n :: rest => size n + sizeAll rest

end

/-! ## References -/

mutual

/-- Whether a reference to a group stands in the tree. -/
def hasBackreference : Node → Bool
  | backreference _ => true
  | choice _ alternatives | look _ _ alternatives => anyBackreference alternatives
  | alternative elements => anyBackreference elements
  | quantifier _ _ _ element => hasBackreference element
  | _ => false

def anyBackreference : List Node → Bool
  | [] => false
  | n :: rest => hasBackreference n || anyBackreference rest

end

end Node

/-- Whether a frame is the group that a reference names. -/
def Frame.isNamedBy : Frame → GroupRef → Bool
  | capture index _, .index n => index == n
  | capture _ name, .name s => name == some s
  | _, _ => false

end RegexAudit
