import RegexAudit.Syntax.Cursor
import RegexAudit.Syntax.Pattern

/-!
# Parsing into an arena

The parser adds an entry as soon as a node starts, so that its children can name it as their parent,
and completes the entry when the node ends. Where a node turns out to be part of another one after
it was read (what a quantifier follows, the ends of a range, the operands of an operator), its entry
is handed to that parent.

`Ast.parse` does what `Regex.parse` does, step by step on the state of the parser. Groups,
lookarounds and classes of the flag `v` are counted on the way in; `room` bounds the calls.
-/

namespace RegexAudit

open Arena (Content Entry)

namespace Parser

/-! ## Entries -/

/-- Add an entry that starts at byte `start`, as empty as it starts. -/
def alloc (content : Content) (parent : Option NodeId) (start : Nat) : Action NodeId := do
  let id := (← get).nodes.length
  modify fun s => { s with nodes := s.nodes ++ [⟨content, parent, start, start⟩] }
  return id

/-- Change an entry. -/
def update (id : NodeId) (f : Entry → Entry) : Action Unit := do
  if id < (← get).nodes.length then modify fun s => { s with nodes := s.nodes.modify id f }
  else throw .panic

/-- Complete an entry, which ends at the position. -/
def finish (id : NodeId) (content : Content) : Action NodeId := do
  let stop ← position
  update id fun e => { e with content, stop }
  return id

/-- Add an entry that ends at the position. -/
def leaf (content : Content) (parent : NodeId) (start : Nat) : Action NodeId := do
  let id ← alloc content parent start
  let stop ← position
  update id fun e => { e with stop }
  return id

/-- Hand an entry to another parent. -/
def reparent (child parent : NodeId) : Action Unit := update child fun e => { e with parent }

/-- Add an entry that ends at the position, for a node whose children were read before it. -/
def adopt (content : Content) (parent : NodeId) (start : Nat) : Action NodeId := do
  let id ← leaf content parent start
  content.children.forM fun child => reparent child id
  return id

/-- What an entry holds. -/
def content (id : NodeId) : Action Content := do
  match (← get).nodes[id]? with
  | some e => return e.content
  | none => throw .panic

section
variable (source : List Char) (setting : Setting)

/-! ## Classes -/

/-- A shorthand or a character after a backslash. -/
def classEscape (parent : NodeId) (start : Nat) : Action NodeId := do
  match ← setEscape source setting with
  | some set => leaf (.shorthand set) parent start
  | none => do
    let value ← characterEscape source setting true
    leaf (.character value) parent start

/-- A single character or shorthand. -/
def classAtom (parent : NodeId) : Action NodeId := do
  let start ← position
  match ← bump source with
  | none => fail .unterminatedClass
  | some '\\' => classEscape source setting parent start
  | some c => leaf (.character c.toNat) parent start

/-- A range from one entry to another, or none if they are no two characters. -/
def range? (min max parent : NodeId) (start : Nat) : Action (Option NodeId) := do
  match (← content min).value?, (← content max).value? with
  | some a, some b =>
    if b < a then failAt .rangeOrder start
    else return some (← adopt (.range min max) parent start)
  | _, _ => return none

/-- One item of a class without `v`, or a range. Without `u`, what looks like a range with a
shorthand is its two ends and a hyphen. -/
def item (parent : NodeId) : Action (List NodeId) := do
  let start ← position
  let min ← classAtom source setting parent
  let next ← peek source
  let second ← peekNth source 1
  if next == some '-' && second != none && second != some ']' then do
    let hyphen ← position
    let _ ← bump source
    let max ← classAtom source setting parent
    match ← range? min max parent start with
    | some range => return [range]
    | none =>
      if setting.strict then failAt .invalidClass start
      else do
        let dash ← alloc (.character '-'.toNat) parent hyphen
        update dash fun e => { e with stop := hyphen + 1 }
        return [min, dash, max]
  else return [min]

/-- Items up to the closing bracket of a class that starts at byte `start`. -/
def items (parent : NodeId) (start fuel : Nat) : Action (List NodeId) := do
  match ← peek source with
  | none => failAt .unterminatedClass start
  | some ']' => taking source []
  | some _ =>
    match fuel with
    | 0 => throw .endless
    | fuel + 1 => do
      let ids ← item source setting parent
      return ids ++ (← items parent start fuel)

/-- A class without `v`, after the opening bracket. -/
def listedClass (parent : NodeId) (start : Nat) : Action NodeId := do
  let id ← alloc (.charClass false false []) parent start
  let negate ← eat source '^'
  let elements ← items source setting id start (← rest source).length
  finish id (.charClass negate false elements)

/-! ## Classes with `v` -/

/-- The letters of a string in a class, up to a bar or the closing brace. -/
def letters (parent : NodeId) (start fuel : Nat) : Action (List NodeId) := do
  let first ← position
  match ← peek source with
  | none => failAt .unterminatedStrings start
  | some '|' | some '}' => return []
  | some c =>
    match fuel with
    | 0 => throw .endless
    | fuel + 1 => do
      let _ ← bump source
      let value ← if c == '\\' then characterEscape source setting true else pure c.toNat
      let id ← leaf (.character value) parent first
      return id :: (← letters parent start fuel)

/-- A string, up to a bar or the closing brace. -/
def string (parent : NodeId) (start : Nat) : Action NodeId := do
  let id ← alloc (.string []) parent (← position)
  let elements ← letters source setting id start (← rest source).length
  finish id (.string elements)

/-- Strings with bars between them, up to the closing brace. -/
def strings (parent : NodeId) (start fuel : Nat) : Action (List NodeId) := do
  let first ← string source setting parent start
  if ← eat source '}' then return [first]
  else do
    let _ ← bump source
    match fuel with
    | 0 => throw .endless
    | fuel + 1 => return first :: (← strings parent start fuel)

/-- Strings in a class, after the opening brace. -/
def classStrings (parent : NodeId) (start : Nat) : Action NodeId := do
  let id ← alloc (.strings []) parent start
  let alternatives ← strings source setting id start (← rest source).length
  finish id (.strings alternatives)

section
variable (inner : (parent : NodeId) → (start : Nat) → Action NodeId)

/-- A class, a group of strings, a shorthand or a character. `inner` reads a class after its opening
bracket. -/
def operand (parent : NodeId) : Action NodeId := do
  let start ← position
  match ← peek source with
  | none => fail .unterminatedClass
  | some '[' => do
    let _ ← bump source
    inner parent start
  | some '\\' => do
    let _ ← bump source
    if ← eatText source ['q', '{'] then classStrings source setting parent start
    else classEscape source setting parent start
  | some c =>
    if Class.reserved.contains c then fail .classCharacter
    else do
      let _ ← bump source
      leaf (.character c.toNat) parent start

/-- An operand, or a range of two characters. -/
def rangeOrOperand (parent : NodeId) : Action NodeId := do
  let start ← position
  let min ← operand source setting inner parent
  if (← peek source) == some '-' && (← peekNth source 1) != some '-' then do
    let _ ← bump source
    let max ← operand source setting inner parent
    match ← range? min max parent start with
    | some range => return range
    | none => failAt .invalidClass start
  else return min

/-- Apply one operator as long as it is written, from left to right. -/
def operations (operator : SetOperator) (parent : NodeId) (start fuel : Nat) (left : NodeId) :
    Action NodeId := do
  if ← eatText source operator.text then
    match fuel with
    | 0 => throw .endless
    | fuel + 1 => do
      let right ← operand source setting inner parent
      let expression ← adopt (.classOperation operator left right) parent start
      operations operator parent start fuel expression
  else return left

/-- Elements up to the closing bracket; operators are refused. -/
def classElements (parent : NodeId) (start fuel : Nat) : Action (List NodeId) := do
  match ← peek source with
  | none => failAt .unterminatedClass start
  | some ']' => taking source []
  | some _ => do
    if (Class.operator? (← rest source)).isSome then fail .setOperation
    else
      match fuel with
      | 0 => throw .endless
      | fuel + 1 => do
        let element ← rangeOrOperand source setting inner parent
        return element :: (← classElements parent start fuel)

/-- The inside of a class with `v`, after the opening bracket. -/
def classBody (parent : NodeId) (start : Nat) : Action NodeId := do
  let id ← alloc (.charClass false true []) parent start
  let negate ← eat source '^'
  if ← eat source ']' then finish id (.charClass negate true [])
  else do
    let firstStart ← position
    let first ← rangeOrOperand source setting inner id
    match Class.operator? (← rest source) with
    | some operator => do
      if (← content first).isRange then failAt .setOperation firstStart
      else do
        let expression ←
          operations source setting inner operator id firstStart (← rest source).length first
        if ← eat source ']' then finish id (.classExpression negate expression)
        else fail .setOperation
    | none => do
      let more ← classElements source setting inner id start (← rest source).length
      finish id (.charClass negate true (first :: more))

end

/-! ## Nesting -/

/-- One level deeper, if the limit allows it. -/
def nested {α : Type} (limit : Nat) (inside : Action α) : Action α := do
  if limit ≤ (← get).depth then fail .tooDeep
  else do
    modify fun s => { s with depth := s.depth + 1 }
    let a ← inside
    modify fun s => { s with depth := s.depth - 1 }
    return a

/-- A class with `v`, after the opening bracket. -/
def nestedClass (limit : Nat) : (room : Nat) → (parent : NodeId) → (start : Nat) → Action NodeId
  | 0, _, _ => throw .endless
  | room + 1, parent, start =>
    nested limit (classBody source setting (nestedClass limit room) parent start)

/-! ## Atoms -/

/-- An escape outside of classes, after the backslash at byte `start`. -/
def escaped (parent : NodeId) (start : Nat) : Action NodeId := do
  match ← peek source with
  | none => fail .backslashAtEnd
  | some c =>
    match ← setEscape source setting with
    | some set => leaf (.shorthand set) parent start
    | none =>
      if c == 'k' && (setting.strict || setting.named) then do
        let _ ← bump source
        if ← eat source '<' then do
          let name ← groupName source
          leaf (.backreference (.name name) none) parent start
        else fail .namedReference
      else if '1' ≤ c && c ≤ '9' then do
        let digits ← position
        let n := (← decimal source).getD 0
        if n ≤ setting.groups then leaf (.backreference (.index n) none) parent start
        else if setting.strict then failAt .invalidEscape digits
        else do
          seek digits
          let value ← octalOrSelf source
          leaf (.character value) parent start
      else do
        let value ← characterEscape source setting false
        leaf (.character value) parent start

section
variable (inner : (parent : NodeId) → Action (List NodeId))

/-- The next number for a capturing group. -/
def openGroup : Action Nat := do
  modify fun s => { s with groups := s.groups + 1 }
  return (← get).groups

/-- Alternatives, and the closing parenthesis after them. -/
def enclosed (id : NodeId) (content : List NodeId → Content) : Action NodeId := do
  let alternatives ← inner id
  if ← eat source ')' then finish id (content alternatives) else fail .unterminatedGroup

/-- A group, from its parenthesis on. -/
def group (parent : NodeId) : Action NodeId := do
  let start ← position
  let _ ← bump source
  let id ← alloc (.choice .plain []) parent start
  if ← eatText source ['?', ':'] then enclosed source inner id (.choice .plain)
  else if ← eatText source ['?', '<'] then do
    let name ← groupName source
    if (← get).names.any (·.1 == name) then failAt .repeatedGroupName start
    else do
      modify fun s => { s with names := (name, id) :: s.names }
      let index ← openGroup
      enclosed source inner id (.choice (.capture index (some name)))
  else if (← peek source) == some '?' then fail .invalidGroup
  else do
    let index ← openGroup
    enclosed source inner id (.choice (.capture index none))

/-- What a quantifier may follow, lookaheads aside. -/
def atom (innerClass : (parent : NodeId) → (start : Nat) → Action NodeId) (parent : NodeId) :
    Action NodeId := do
  let start ← position
  match ← peek source with
  | none => fail .unexpectedEnd
  | some '.' => do
    let _ ← bump source
    leaf (.shorthand .any) parent start
  | some '(' => group source inner parent
  | some '[' => do
    let _ ← bump source
    if setting.flags.unicodeSets then innerClass parent start
    else listedClass source setting parent start
  | some '\\' => do
    let _ ← bump source
    escaped source setting parent start
  | some c =>
    if setting.strict && (c == ']' || c == '}') then fail .loneBracket
    else do
      let _ ← bump source
      leaf (.character c.toNat) parent start

/-! ## Terms -/

/-- The quantifier after an atom that starts at byte `start`, if there is one. -/
def quantified (atom parent : NodeId) (start : Nat) : Action NodeId := do
  match ← counts source setting with
  | none => return atom
  | some (least, most) =>
    if most.any (· < least) then fail .quantifierOrder
    else do
      let lazy ← eat source '?'
      adopt (.quantifier least most (!lazy) atom) parent start

/-- A node that no quantifier may follow. -/
def unrepeatable (id : NodeId) : Action NodeId := do
  if ← atQuantifier source then fail .nothingToRepeat else return id

/-- A lookaround that starts at byte `start`, after its opening. Lookaheads may be repeated without
`u` and `v`. -/
def lookaround (parent : NodeId) (start : Nat) (direction : Direction) (negate : Bool) :
    Action NodeId := do
  let id ← alloc (.look direction negate []) parent start
  let id ← enclosed source inner id (.look direction negate)
  if direction = .forward && !setting.strict then quantified source setting id parent start
  else unrepeatable source id

/-- The assertions that look at no pattern of their own. -/
def edge : Action (Option Edge) := do
  if ← eat source '^' then return some .lineStart
  else if ← eat source '$' then return some .lineEnd
  else if ← eatText source ['\\', 'b'] then return some (.word false)
  else if ← eatText source ['\\', 'B'] then return some (.word true)
  else return none

/-- The openings of lookarounds. -/
def lookOpening : Action (Option (Direction × Bool)) := do
  if ← eatText source ['(', '?', '='] then return some (.forward, false)
  else if ← eatText source ['(', '?', '!'] then return some (.forward, true)
  else if ← eatText source ['(', '?', '<', '='] then return some (.backward, false)
  else if ← eatText source ['(', '?', '<', '!'] then return some (.backward, true)
  else return none

/-- Refuse what starts no atom: a quantifier, or with `u` and `v` its opening brace. -/
def refuseQuantifier : Action Unit := do
  match ← peek source with
  | some '*' | some '+' | some '?' => fail .nothingToRepeat
  | some '{' => do
    if setting.strict then fail .loneBracket
    else if ← atQuantifier source then fail .nothingToRepeat
    else return ()
  | _ => return ()

/-- An element of an alternative. -/
def term (innerClass : (parent : NodeId) → (start : Nat) → Action NodeId) (parent : NodeId) :
    Action NodeId := do
  let start ← position
  match ← edge source with
  | some e => do
    let id ← leaf (.edge e) parent start
    unrepeatable source id
  | none =>
    match ← lookOpening source with
    | some (direction, negate) => lookaround source setting inner parent start direction negate
    | none => do
      refuseQuantifier source setting
      let id ← atom source setting inner innerClass parent
      quantified source setting id parent start

end

/-! ## Alternatives -/

/-- Elements up to a bar, a closing parenthesis or the end. -/
def elements (term : (parent : NodeId) → Action NodeId) (parent : NodeId) (fuel : Nat) :
    Action (List NodeId) := do
  match ← peek source with
  | none | some '|' | some ')' => return []
  | some _ =>
    match fuel with
    | 0 => throw .endless
    | fuel + 1 => do
      let first ← term parent
      return first :: (← elements term parent fuel)

def alternative (term : (parent : NodeId) → Action NodeId) (parent : NodeId) : Action NodeId := do
  let id ← alloc (.alternative []) (some parent) (← position)
  let ids ← elements source term id (← rest source).length
  finish id (.alternative ids)

/-- Alternatives with bars between them. -/
def alternatives (term : (parent : NodeId) → Action NodeId) (parent : NodeId) (fuel : Nat) :
    Action (List NodeId) := do
  let first ← alternative source term parent
  if ← eat source '|' then
    match fuel with
    | 0 => throw .endless
    | fuel + 1 => return first :: (← alternatives term parent fuel)
  else return [first]

/-- Alternatives inside of what is open. -/
def disjunction (limit : Nat) : (room : Nat) → (parent : NodeId) → Action (List NodeId)
  | 0, _ => throw .endless
  | room + 1, parent =>
    nested limit do
      alternatives source
        (term source setting (disjunction limit room) (nestedClass source setting limit room))
        parent (← rest source).length

/-- The whole pattern. -/
def pattern (limit : Nat) : Action NodeId := do
  let root ← alloc (.choice .whole []) none 0
  let alternatives ← disjunction source setting limit (limit + 1) root
  match ← peek source with
  | none => finish root (.choice .whole alternatives)
  | some ')' => fail .unmatchedParenthesis
  | some _ => fail .unexpectedCharacter

end

/-! ## References -/

/-- The last capturing group with a number. -/
def groupNumbered? (nodes : List Entry) (index : Nat) : Option NodeId :=
  (List.range nodes.length).reverse.find? fun id =>
    nodes[id]?.any fun e =>
      match e.content with
      | .choice (.capture n _) _ => n == index
      | _ => false

/-- The group that a reference leads to. A number may be that of none, as the groups were counted
without reading the pattern. -/
def leadsTo? (s : Parser) : GroupRef → Option NodeId
  | .index n => groupNumbered? s.nodes n
  | .name name => s.names.lookup name

/-- A reference by a name that no group has. -/
def isUnknown (s : Parser) : Content → Bool
  | .backreference (.name name) _ => (s.names.lookup name).isNone
  | _ => false

/-- A reference with the group that it leads to. -/
def resolved (s : Parser) : Content → Content
  | .backreference ref _ => .backreference ref (s.leadsTo? ref)
  | content => content

def resolveEntry (s : Parser) (e : Entry) : Except Stop Entry :=
  if s.isUnknown e.content then .error (.fault ⟨.unknownGroupName, e.start⟩)
  else .ok { e with content := s.resolved e.content }

/-- Let the references lead to their groups. -/
def resolve (s : Parser) : Except Stop (List Entry) := s.nodes.mapM s.resolveEntry

/-- The state at the beginning of a source. -/
def start : Parser := ⟨0, [], 0, [], 0⟩

end Parser

/-- Parse a source, with a limit on nesting. -/
def Ast.parseWithin (limit : Nat) (source : List Char) (flags : Flags) : Except Stop Ast := do
  let (root, s) ← (Parser.pattern source (Pattern.settingOf flags source) limit).run .start
  return ⟨source, flags, ← s.resolve, root⟩

/-- Parse a source. -/
def Ast.parse (source : List Char) (flags : Flags) : Except Stop Ast :=
  Ast.parseWithin Pattern.nestingLimit source flags

end RegexAudit
