import RegexAudit.Syntax.Lexeme

/-!
# Reading character classes

There are two forms. Without the flag `v` a class is a list of characters, ranges and shorthands,
read by `listed`. With it a class may also hold classes and strings, or be an expression with the
operators `&&` and `--`; it is read by `nested`, which follows classes in classes down to a limit.

Loops are bounded by the length of the text: every item takes at least one character of it.
-/

namespace RegexAudit.Class

/-- An escape in a class, after the backslash. -/
def escaped (setting : Setting) (r : List Char) : Except Fault (Node × List Char) := do
  match ← Lexeme.shorthand? setting r with
  | (some set, after) => .ok (.shorthand set, after)
  | (none, _) =>
    let (value, after) ← Lexeme.characterEscape setting true r
    .ok (.character ⟨value, '\\' :: textBefore r after⟩, after)

/-- A range of two characters; any other two items are refused with `otherwise`. -/
def makeRange (start : List Char) (otherwise : Except Fault (List Node)) :
    (min max : Node) → Except Fault (List Node)
  | .character a, .character b =>
    if b.value < a.value then .error ⟨.rangeOrder, start⟩ else .ok [.range a b]
  | _, _ => otherwise

/-! ## Without `v` -/

/-- A single character or shorthand. -/
def atom (setting : Setting) : List Char → Except Fault (Node × List Char)
  | [] => .error ⟨.unterminatedClass, []⟩
  | '\\' :: r => escaped setting r
  | c :: r => .ok (.character ⟨c.toNat, [c]⟩, r)

/-- One item, or a range. Without `u`, what looks like a range with a shorthand is its two ends
and a hyphen. -/
def item (setting : Setting) (text : List Char) : Except Fault (List Node × List Char) := do
  let (min, r) ← atom setting text
  match r with
  | '-' :: c :: r' =>
    if c == ']' then .ok ([min], r)
    else
      let (max, r) ← atom setting (c :: r')
      let nodes ← makeRange text
        (if setting.strict then .error ⟨.invalidClass, text⟩
        else .ok [min, .character ⟨'-'.toNat, ['-']⟩, max]) min max
      .ok (nodes, r)
  | _ => .ok ([min], r)

/-- Items up to the closing bracket; `start` is the text from the opening one on. -/
def items (setting : Setting) (start : List Char) :
    Nat → List Char → Except Fault (List Node × List Char)
  | _, ']' :: r => .ok ([], r)
  | 0, _ | _, [] => .error ⟨.unterminatedClass, start⟩
  | n + 1, text => do
    let (nodes, r) ← item setting text
    let (more, r) ← items setting start n r
    .ok (nodes ++ more, r)

/-- Whether a class is negated, and the text after the mark. -/
def negation : List Char → Bool × List Char
  | '^' :: r => (true, r)
  | r => (false, r)

/-- A class without `v`, after the opening bracket. -/
def listed (setting : Setting) (text : List Char) : Except Fault (Node × List Char) := do
  let (negate, r) := negation text
  let (elements, r) ← items setting ('[' :: text) r.length r
  .ok (.charClass negate false elements, r)

/-! ## With `v` -/

/-- The letters of a string in a class, up to a bar or the closing brace. -/
def letters (setting : Setting) (start : List Char) :
    Nat → List Char → Except Fault (List Letter × List Char)
  | _, '|' :: r => .ok ([], '|' :: r)
  | _, '}' :: r => .ok ([], '}' :: r)
  | 0, _ | _, [] => .error ⟨.unterminatedStrings, start⟩
  | n + 1, '\\' :: r => do
    let (value, after) ← Lexeme.characterEscape setting true r
    let (more, after') ← letters setting start n after
    .ok (⟨value, '\\' :: textBefore r after⟩ :: more, after')
  | n + 1, c :: r => do
    let (more, r) ← letters setting start n r
    .ok (⟨c.toNat, [c]⟩ :: more, r)

/-- Strings with bars between them, up to the closing brace. -/
def strings (setting : Setting) (start : List Char) :
    Nat → List Char → Except Fault (List (List Letter) × List Char)
  | 0, _ => .error ⟨.unterminatedStrings, start⟩
  | n + 1, text => do
    let (first, r) ← letters setting start text.length text
    match r with
    | '|' :: r =>
      let (more, r) ← strings setting start n r
      .ok (first :: more, r)
    | _ => .ok ([first], r.drop 1)

/-- Characters that have to be escaped in a class. -/
def reserved : List Char := ['(', ')', '{', '}', '/', '|', '-', ']']

/-- A class, a group of strings, a shorthand or a character. `inner` reads a class after its
opening bracket. -/
def operand (setting : Setting) (inner : List Char → Except Fault (Node × List Char)) :
    List Char → Except Fault (Node × List Char)
  | [] => .error ⟨.unterminatedClass, []⟩
  | '[' :: r => inner r
  | '\\' :: 'q' :: '{' :: r => do
    let (alternatives, r') ← strings setting ('\\' :: 'q' :: '{' :: r) (r.length + 1) r
    .ok (.strings alternatives, r')
  | '\\' :: r => escaped setting r
  | c :: r =>
    if reserved.contains c then .error ⟨.classCharacter, c :: r⟩
    else .ok (.character ⟨c.toNat, [c]⟩, r)

/-- An operand, or a range of two characters. -/
def rangeOrOperand (operand : List Char → Except Fault (Node × List Char)) (text : List Char) :
    Except Fault (Node × List Char) := do
  let (min, r) ← operand text
  match r with
  | '-' :: '-' :: _ => .ok (min, r)
  | '-' :: r => do
    let (max, r) ← operand r
    let nodes ← makeRange text (.error ⟨.invalidClass, text⟩) min max
    .ok (nodes.headD min, r)
  | _ => .ok (min, r)

/-- The operator that is written here. -/
def operator? : List Char → Option SetOperator
  | '&' :: '&' :: _ => some .intersection
  | '-' :: '-' :: _ => some .subtraction
  | _ => none

/-- Apply one operator as long as it is written, from left to right. -/
def operations (operand : List Char → Except Fault (Node × List Char)) (operator : SetOperator) :
    Nat → Node → List Char → Except Fault (Node × List Char)
  | 0, left, r => .ok (left, r)
  | n + 1, left, r =>
    match Text.strip? operator.text r with
    | none => .ok (left, r)
    | some r => do
      let (right, r) ← operand r
      operations operand operator n (.classOperation operator left right) r

/-- Elements up to the closing bracket; operators are refused. -/
def elements (operand : List Char → Except Fault (Node × List Char)) (start : List Char) :
    Nat → List Char → Except Fault (List Node × List Char)
  | _, ']' :: r => .ok ([], r)
  | 0, _ | _, [] => .error ⟨.unterminatedClass, start⟩
  | n + 1, text =>
    if (operator? text).isSome then .error ⟨.setOperation, text⟩
    else do
      let (element, r) ← rangeOrOperand operand text
      let (more, r) ← elements operand start n r
      .ok (element :: more, r)

def isRange : Node → Bool
  | .range .. => true
  | _ => false

/-- The inside of a class with `v`, after the opening bracket. -/
def body (operand : List Char → Except Fault (Node × List Char)) (text : List Char) :
    Except Fault (Node × List Char) := do
  let (negate, r) := negation text
  match r with
  | ']' :: r => .ok (.charClass negate true [], r)
  | _ =>
    let (first, after) ← rangeOrOperand operand r
    match operator? after with
    | some operator =>
      if isRange first then .error ⟨.setOperation, r⟩
      else
        let (expression, after) ← operations operand operator after.length first after
        match after with
        | ']' :: after => .ok (.classExpression negate expression, after)
        | _ => .error ⟨.setOperation, after⟩
    | none =>
      let (more, after) ← elements operand ('[' :: text) after.length after
      .ok (.charClass negate true (first :: more), after)

/-- A class with `v`, after the opening bracket, with at most `depth` classes in one another. -/
def nested (setting : Setting) : (depth : Nat) → List Char → Except Fault (Node × List Char)
  | 0, text => .error ⟨.tooDeep, text⟩
  | depth + 1, text => body (operand setting (nested setting depth)) text

end RegexAudit.Class
