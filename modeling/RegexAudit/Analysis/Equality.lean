import RegexAudit.Analysis.Category
import RegexAudit.CharSet.OfNode
import RegexAudit.Unicode.Uppercase

/-!
# Equal nodes

When two nodes match the same strings because of their form. Nodes that match single characters are
compared by their sets, other nodes part by part; the alternatives of groups may stand in any order.

Equal text means equal nodes, unless a reference is among them: what `\1` means depends on the
number of groups. So references are compared by the group they lead to in one tree, and by their
text in two.

The hook sees the two nodes. One that sees where they stand as well is that of `Proofs.Sites`.
-/

namespace RegexAudit

variable [Properties]

/-- How nodes are compared. -/
structure Comparison where
  flags : Flags
  /-- Where references lead, if both nodes stand in one tree. -/
  resolve? : Option (GroupRef → Option Nat) := none
  /-- Whether nodes of one kind with equal text count as equal at once. -/
  byText : Bool := false
  /-- Decides pairs of nodes ahead of everything else. -/
  hook : Node → Node → Option Bool := fun _ _ => none

namespace Comparison

/-- Same kind and same text. Texts of different widths are not written out. -/
def sameText (a b : Node) : Bool := a.kind == b.kind && a.width == b.width && a.text == b.text

/-- Whether two letters are equal up to case without looking at sets; `none` if that is open. -/
def sameLetters? (flags : Flags) (a b : Letter) : Option Bool :=
  if a.value = b.value then some true
  else if flags.ignoreCase && !flags.unicodeMode
      && a.value.isValidChar && b.value.isValidChar then
    some (Unicode.sameUpper (Char.ofNat a.value) (Char.ofNat b.value))
  else none

/-- Two nodes with the same set; nodes without sets by their text. -/
def sameSet (flags : Flags) (a b : Node) : Bool :=
  match a.charSet? flags, b.charSet? flags with
  | some s, some t => s.same t
  | _, _ => sameText a b

/-- Two nodes that match single characters. -/
def sameCharacters (flags : Flags) (a b : Node) : Bool :=
  match a, b with
  | .character x, .character y => (sameLetters? flags x y).getD (sameSet flags a b)
  | .shorthand x, .shorthand y => x == y || sameSet flags a b
  | _, _ => sameSet flags a b

/-- Two references. -/
def sameReference (c : Comparison) (x y : GroupRef) : Bool :=
  match c.resolve? with
  | some resolve? => (resolve? x).isSome && resolve? x == resolve? y
  | none => x.text == y.text

/-- What decides a pair of nodes ahead of their parts: the hook, then sets, then texts. -/
def verdict (c : Comparison) (a b : Node) (parts : Unit → Bool) : Bool :=
  match c.hook a b with
  | some verdict => verdict
  | none =>
    if a.isCharacter && b.isCharacter then sameCharacters c.flags a b
    else (c.byText && sameText a b) || parts ()

/-- Two lists, place by place. -/
def pairwise (same : α → β → Bool) : List α → List β → Bool
  | [], [] => true
  | x :: xs, y :: ys => same x y && pairwise same xs ys
  | _, _ => false

/-- The list without the first member that `p` accepts. -/
def removeFirst? (p : α → Bool) : List α → Option (List α)
  | [] => none
  | y :: ys => if p y then some ys else (removeFirst? p ys).map (y :: ·)

/-- Each member of the first list has a partner of its own in the second; the first one that will do
is taken. -/
def matchUp (same : α → β → Bool) : List α → List β → Bool
  | [], ys => ys.isEmpty
  | x :: xs, ys =>
    match removeFirst? (same x) ys with
    | some ys => matchUp same xs ys
    | none => false

/-- Two letters of strings. -/
def sameLetterNodes (c : Comparison) (x y : Letter) : Bool :=
  c.verdict (.character x) (.character y) fun _ => false

/-- Two strings in classes. -/
def sameStrings (c : Comparison) (x y : List Letter) : Bool :=
  c.verdict (.string x) (.string y) fun _ => pairwise c.sameLetterNodes x y

mutual

/-- Whether two nodes are equal. -/
def same (c : Comparison) (a b : Node) : Bool :=
  c.verdict a b fun _ =>
    match a, b with
    | .alternative xs, .alternative ys => sameAll c xs ys
    | .choice .whole xs, .choice .whole ys => sameSomeOrder c xs ys
    | .choice .plain xs, .choice .plain ys => sameSomeOrder c xs ys
    | .choice (.capture _ x) xs, .choice (.capture _ y) ys => x == y && sameSomeOrder c xs ys
    | .look d m xs, .look e n ys => d == e && m == n && sameSomeOrder c xs ys
    | .quantifier x g _ a, .quantifier y h _ b => x == y && g == h && same c a b
    | .edge x, .edge y => x == y
    | .backreference x, .backreference y => c.sameReference x y
    | .strings xs, .strings ys => matchUp c.sameStrings xs ys
    | .string xs, .string ys => pairwise c.sameLetterNodes xs ys
    | _, _ => false

/-- Two lists of nodes, place by place. -/
def sameAll (c : Comparison) : List Node → List Node → Bool
  | [], [] => true
  | x :: xs, y :: ys => same c x y && sameAll c xs ys
  | _, _ => false

/-- Two lists of nodes in any order: each node of the first takes the first equal one left. -/
def sameSomeOrder (c : Comparison) : List Node → List Node → Bool
  | [], ys => ys.isEmpty
  | x :: xs, ys =>
    match removeFirst? (same c x) ys with
    | some ys => sameSomeOrder c xs ys
    | none => false

end

/-- Whether two nodes are equal; texts are compared only where no reference is. -/
def equal (c : Comparison) (a b : Node) : Bool :=
  let byText := !a.hasBackreference && !b.hasBackreference
  same { c with byText } a b

end Comparison

end RegexAudit
