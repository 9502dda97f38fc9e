import RegexAudit.Syntax.Class
import RegexAudit.Syntax.Place

/-!
# Reading patterns

`Pattern.parse` reads the source of a pattern into its tree. Groups, lookarounds and classes of the
flag `v` may stand in one another down to `nestingLimit`; the recursion follows that limit, and the
loops are bounded by the length of the text that is left.

Without `u` and `v` the lenient rules hold: a brace that starts no quantifier is a character, an
escape without meaning stands for itself, and lookaheads may be repeated.

A reader takes the text that is left, so a position is not a number here and is never set back. The
parser of `Syntax.Parser` moves over the bytes of the source and stores what it reads in an arena; it
ends with the same tree, or with the same error (`Ast.parseWithin_refines`).
-/

namespace RegexAudit.Pattern

/-- How deep groups, lookarounds and classes may stand in one another. -/
def nestingLimit : Nat := 250

/-- The text that is left, and the capturing groups opened so far. -/
structure Progress where
  rest : List Char
  groups : Nat
  names : List (List Char)

namespace Progress

/-- Go on with another text. -/
def next (s : Progress) (rest : List Char) : Progress := { s with rest }

/-- Open a capturing group. -/
def openGroup (s : Progress) (name : Option (List Char)) (rest : List Char) : Progress :=
  ⟨rest, s.groups + 1, name.toList ++ s.names⟩

end Progress

/-- A reader of one node. -/
abbrev NodeReader := Progress → Except Fault (Node × Progress)

/-- A reader of alternatives. -/
abbrev AlternativesReader := Progress → Except Fault (List Node × Progress)

/-! ## Atoms -/

/-- An escape outside of classes, after the backslash. -/
def escaped (setting : Setting) (r : List Char) : Except Fault (Node × List Char) := do
  match ← Lexeme.shorthand? setting r with
  | (some set, after) => .ok (.shorthand set, after)
  | (none, _) =>
    match r with
    | [] => .error ⟨.backslashAtEnd, []⟩
    | c :: r' =>
      if c == 'k' && (setting.strict || setting.named) then
        match r' with
        | '<' :: r' =>
          let (name, after) ← Lexeme.groupName r'
          .ok (.backreference (.name name), after)
        | _ => .error ⟨.namedReference, r'⟩
      else if '1' ≤ c && c ≤ '9' then
        match Lexeme.decimal? r with
        | some (n, after) =>
          if n ≤ setting.groups then .ok (.backreference (.index n), after)
          else if setting.strict then .error ⟨.invalidEscape, r⟩
          else
            let (value, after) := Lexeme.octalOrSelf r
            .ok (.character ⟨value, '\\' :: textBefore r after⟩, after)
        | none => .error ⟨.invalidEscape, r⟩
      else
        let (value, after) ← Lexeme.characterEscape setting false r
        .ok (.character ⟨value, '\\' :: textBefore r after⟩, after)

/-- Alternatives and the closing parenthesis after them. -/
def enclosed (inner : AlternativesReader) (make : List Node → Node) : NodeReader := fun s => do
  let (alternatives, s) ← inner s
  match s.rest with
  | ')' :: r => .ok (make alternatives, s.next r)
  | r => .error ⟨.unterminatedGroup, r⟩

/-- A group, after its opening parenthesis; `start` is the text from that on. -/
def group (inner : AlternativesReader) (start : List Char) : NodeReader := fun s =>
  match s.rest with
  | '?' :: ':' :: r => enclosed inner (.choice .plain) (s.next r)
  | '?' :: '<' :: r => do
    let (name, r) ← Lexeme.groupName r
    if s.names.contains name then .error ⟨.repeatedGroupName, start⟩
    else
      enclosed inner (.choice (.capture (s.groups + 1) (some name))) (s.openGroup (some name) r)
  | '?' :: r => .error ⟨.invalidGroup, '?' :: r⟩
  | r => enclosed inner (.choice (.capture (s.groups + 1) none)) (s.openGroup none r)

/-- What a quantifier may follow, lookaheads aside. `inner` reads the alternatives of a group, and
`innerClass` a class of the flag `v`. -/
def atom (setting : Setting) (inner : AlternativesReader)
    (innerClass : List Char → Except Fault (Node × List Char)) : NodeReader := fun s =>
  match s.rest with
  | [] => .error ⟨.unexpectedEnd, []⟩
  | '.' :: r => .ok (.shorthand .any, s.next r)
  | '(' :: r => group inner ('(' :: r) (s.next r)
  | '[' :: r => do
    let (node, r) ←
      if setting.flags.unicodeSets then innerClass r else Class.listed setting r
    .ok (node, s.next r)
  | '\\' :: r => do
    let (node, r) ← escaped setting r
    .ok (node, s.next r)
  | c :: r =>
    if setting.strict && (c == ']' || c == '}') then .error ⟨.loneBracket, c :: r⟩
    else .ok (.character ⟨c.toNat, [c]⟩, s.next r)

/-! ## Terms -/

/-- The quantifier after an atom, if there is one. -/
def quantified (setting : Setting) (element : Node) : NodeReader := fun s => do
  let (read, r) ← Lexeme.quantifier? setting s.rest
  match read with
  | none => .ok (element, s)
  | some (bounds, greedy) =>
    .ok (.quantifier bounds greedy (textBefore s.rest r) element, s.next r)

/-- A node that no quantifier may follow. -/
def unrepeatable (node : Node) : NodeReader := fun s =>
  if Lexeme.atQuantifier s.rest then .error ⟨.nothingToRepeat, s.rest⟩ else .ok (node, s)

/-- A lookaround, after its opening. Lookaheads may be repeated without `u` and `v`. -/
def lookaround (setting : Setting) (inner : AlternativesReader) (direction : Direction)
    (negate : Bool) : NodeReader := fun s => do
  let (node, s) ← enclosed inner (.look direction negate) s
  if direction = .forward && !setting.strict then quantified setting node s
  else unrepeatable node s

/-- An element of an alternative. -/
def term (setting : Setting) (inner : AlternativesReader)
    (innerClass : List Char → Except Fault (Node × List Char)) : NodeReader := fun s =>
  match s.rest with
  | '^' :: r => unrepeatable (.edge .lineStart) (s.next r)
  | '$' :: r => unrepeatable (.edge .lineEnd) (s.next r)
  | '\\' :: 'b' :: r => unrepeatable (.edge (.word false)) (s.next r)
  | '\\' :: 'B' :: r => unrepeatable (.edge (.word true)) (s.next r)
  | '(' :: '?' :: '=' :: r => lookaround setting inner .forward false (s.next r)
  | '(' :: '?' :: '!' :: r => lookaround setting inner .forward true (s.next r)
  | '(' :: '?' :: '<' :: '=' :: r => lookaround setting inner .backward false (s.next r)
  | '(' :: '?' :: '<' :: '!' :: r => lookaround setting inner .backward true (s.next r)
  | r =>
    if r.head? == some '{' && setting.strict then .error ⟨.loneBracket, r⟩
    else if Lexeme.atQuantifier r then .error ⟨.nothingToRepeat, r⟩
    else do
      let (node, s) ← atom setting inner innerClass s
      quantified setting node s

/-! ## Alternatives -/

/-- Elements up to a bar, a closing parenthesis or the end, at most `n` of them. -/
def elements (term : NodeReader) : Nat → Progress → Except Fault (List Node × Progress)
  | 0, s => .ok ([], s)
  | n + 1, s =>
    match s.rest with
    | [] | '|' :: _ | ')' :: _ => .ok ([], s)
    | _ => do
      let (first, s) ← term s
      let (more, s) ← elements term n s
      .ok (first :: more, s)

def alternative (term : NodeReader) : NodeReader := fun s => do
  let (nodes, s) ← elements term s.rest.length s
  .ok (.alternative nodes, s)

/-- Alternatives with bars between them, at most `n` bars. -/
def alternatives (term : NodeReader) : Nat → Progress → Except Fault (List Node × Progress)
  | 0, s => do
    let (first, s) ← alternative term s
    .ok ([first], s)
  | n + 1, s => do
    let (first, s) ← alternative term s
    match s.rest with
    | '|' :: r =>
      let (more, s) ← alternatives term n (s.next r)
      .ok (first :: more, s)
    | _ => .ok ([first], s)

/-- Alternatives at most `depth` deep. -/
def disjunction (setting : Setting) : (depth : Nat) → AlternativesReader
  | 0, s => .error ⟨.tooDeep, s.rest⟩
  | depth + 1, s =>
    alternatives (term setting (disjunction setting depth) (Class.nested setting depth))
      s.rest.length s

/-- What the parts of a source have to know about it. -/
def settingOf (flags : Flags) (source : List Char) : Setting :=
  let (groups, named) := Lexeme.countGroups flags.unicodeSets 0 source
  ⟨flags, groups, named⟩

/-- The tree of a source whose parts stand at most `limit` deep in one another, and the names of its
groups. -/
def read (limit : Nat) (flags : Flags) (source : List Char) :
    Except Fault (Node × List (List Char)) := do
  let (alternatives, s) ← disjunction (settingOf flags source) limit ⟨source, 0, []⟩
  match s.rest with
  | [] => .ok (.choice .whole alternatives, s.names)
  | ')' :: r => .error ⟨.unmatchedParenthesis, ')' :: r⟩
  | r => .error ⟨.unexpectedCharacter, r⟩

/-- Whether a node refers to a name that no group has. -/
def isUnknownName (names : List (List Char)) : Node → Bool
  | .backreference (.name name) => !names.contains name
  | _ => false

/-- The tree of a source, with a limit on nesting. -/
def parseWithin (limit : Nat) (flags : Flags) (source : List Char) : Except ParseError Node :=
  match read limit flags source with
  | .error fault => .error ⟨fault.cause, Text.width source - Text.width fault.rest⟩
  | .ok (root, names) =>
    match root.walk.find? fun p => isUnknownName names p.node with
    | some p => .error ⟨.unknownGroupName, p.start⟩
    | none => .ok root

/-- The tree of a source. -/
def parse (flags : Flags) (source : List Char) : Except ParseError Node :=
  parseWithin nestingLimit flags source

end RegexAudit.Pattern
