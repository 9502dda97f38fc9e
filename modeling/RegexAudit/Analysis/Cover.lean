import RegexAudit.Analysis.Equality
import RegexAudit.Analysis.Form

/-!
# Coverage

Whether one node matches every string another one matches. The search takes canonical forms apart
side by side. It is cautious: `false` means that the node is not covered, or that it cannot be told.

Two limits end a search with `false`. Every comparison takes a step from a budget, and comparisons
may stand in one another only down to a depth. The row loop ends because each round takes a step.

A `loose` search lets the left side cover only a beginning of every string of the right side.
-/

namespace RegexAudit.Cover

/-- Steps a search may take. -/
def stepBudget : Nat := 10000

/-- How deep comparisons may stand in one another. -/
def depthLimit : Nat := 128

/-! ## Searches -/

/-- From the steps left to a verdict and the steps left after it. -/
abbrev Search := Nat → Bool × Nat

/-- Take a step, and go on if one is left after it. -/
def tick (next : Search) (fuel : Nat) : Bool × Nat :=
  if 1 < fuel then next (fuel - 1) else (false, 0)

/-- A verdict that takes no step. -/
def done (verdict : Bool) (fuel : Nat) : Bool × Nat := (verdict, fuel)

/-- The first search, and if it fails the second. -/
def orElse (first second : Search) (fuel : Nat) : Bool × Nat :=
  match first fuel with
  | (true, fuel) => (true, fuel)
  | (false, fuel) => second fuel

/-- The first search, and if it succeeds the second. -/
def andThen (first second : Search) (fuel : Nat) : Bool × Nat :=
  match first fuel with
  | (true, fuel) => second fuel
  | (false, fuel) => (false, fuel)

/-- Every member, in order, up to the first failure. -/
def everyOf (search : α → Search) : List α → Nat → Bool × Nat
  | [], fuel => (true, fuel)
  | x :: xs, fuel => andThen (search x) (everyOf search xs) fuel

/-- Some member, in order, up to the first success. -/
def someOf (search : α → Search) : List α → Nat → Bool × Nat
  | [], fuel => (false, fuel)
  | x :: xs, fuel => orElse (search x) (someOf search xs) fuel

/-! ## Rows -/

mutual

/-- The form as a row whose first part is no row. -/
def exposed : Form → List Form
  | .seq items => exposedRow items
  | f => [f]

/-- The row with its first part taken apart until it is no row; empty rows go. -/
def exposedRow : List Form → List Form
  | [] => []
  | f :: rest =>
    match exposed f with
    | [] => exposedRow rest
    | fs => fs ++ rest

end

/-- The row without the optional parts at its end. -/
def withoutOptionalEnd (row : List Form) : List Form :=
  (row.reverse.dropWhile Form.isOptional).reverse

/-- Up to `max` repetitions in front of a row; none at all if `max` is 0. -/
def consOptional (element : Form) (max : Option Nat) (row : List Form) : List Form :=
  if max == some 0 then row else .optional element max :: row

/-- Whether the first number of repetitions is at least the second; no number is the greatest. -/
def atLeast : Option Nat → Option Nat → Bool
  | none, _ => true
  | some _, none => false
  | some a, some b => decide (b ≤ a)

/-- The repetitions left of the first number once the second are taken. -/
def less : Option Nat → Option Nat → Option Nat
  | none, _ => none
  | some _, none => some 0
  | some a, some b => some (a - b)

/-- How forms and rows are compared one level further down. -/
structure Inner where
  node : Form → Form → Bool → Search
  rows : List Form → List Form → Bool → Search

/-- The optional head `element` of the right row, left out and taken once more. -/
def unrollRight (inner : Inner) (left right : List Form) (element : Form) (max : Option Nat)
    (loose : Bool) (fuel : Nat) : Bool × Nat :=
  match inner.rows left right loose fuel with
  | (false, fuel) => (false, fuel)
  | (true, fuel) =>
    if element.canBeEmpty then (false, fuel)
    else inner.rows left (element :: consOptional element (max.map (· - 1)) right) loose fuel

/-- Both heads are optional: they cover each other as far as the smaller number goes, or the right
one is unrolled. -/
def optionalHeads (inner : Inner) (l : Form) (m : Option Nat) (left : List Form) (r : Form)
    (n : Option Nat) (right : List Form) (loose : Bool) (fuel : Nat) : Bool × Nat :=
  orElse
    (andThen (inner.node l r false)
      (if atLeast m n then inner.rows (consOptional l (less m n) left) right loose
      else inner.rows left (consOptional r (less n m) right) loose))
    (unrollRight inner (.optional l m :: left) right r n loose) fuel

/-- Compare two rows by their heads; `next` goes on with what is left. -/
def byHeads (inner : Inner) (next : List Form → List Form → Search) (loose : Bool)
    (left right : List Form) (fuel : Nat) : Bool × Nat :=
  match left, right with
  | left, .choice alternatives :: right =>
    everyOf (fun r => inner.rows left (r :: right) loose) alternatives fuel
  | .choice alternatives :: left, right =>
    someOf (fun l => inner.rows (l :: left) right loose) alternatives fuel
  | left, [] => (left.all Form.isOptional, fuel)
  | [], _ => (loose, fuel)
  | .optional l m :: left, .optional r n :: right =>
    optionalHeads inner l m left r n right loose fuel
  | left, .optional r n :: right => unrollRight inner left right r n loose fuel
  | .optional l m :: left, right =>
    match inner.rows left right loose fuel with
    | (true, fuel) => (true, fuel)
    | (false, fuel) =>
      if l.canBeEmpty then (false, fuel)
      else next (l :: consOptional l (m.map (· - 1)) left) right fuel
  | l :: left, r :: right => andThen (inner.node l r false) (next left right) fuel

/-- Compare two rows for at most `rounds` rounds. -/
def loop (inner : Inner) (loose : Bool) : (rounds : Nat) → (left right : List Form) → Search
  | 0, _, _, fuel => (false, fuel)
  | rounds + 1, left, right, fuel =>
    let left := exposedRow (if loose then withoutOptionalEnd left else left)
    tick (byHeads inner (loop inner loose rounds) loose left (exposedRow right)) fuel

/-! ## Forms -/

/-- Compare two forms; `equal` compares nodes known by their form only, and `forms` gives the
canonical forms of the alternatives of a lookaround. -/
def byForm (equal : Node → Node → Bool) (forms : List Node → List Form) (inner : Inner)
    (left right : Form) (loose : Bool) (fuel : Nat) : Bool × Nat :=
  match left, right with
  | left, .choice alternatives => everyOf (fun r => inner.node left r loose) alternatives fuel
  | .choice alternatives, right => someOf (fun l => inner.node l right loose) alternatives fuel
  | .seq _, _ | .optional .., _ | _, .seq _ | _, .optional .. =>
    inner.rows left.items right.items loose fuel
  | .chars s, .chars t => (t.isSubset s, fuel)
  | .other a, .other b => (equal a b, fuel)
  | .look d m xs, .look e n ys =>
    if !m && !n && d == e then
      everyOf (fun r => someOf (fun l => inner.node l r (d == .forward)) (forms xs)) (forms ys) fuel
    else (equal (.look d m xs) (.look e n ys), fuel)
  | _, _ => (false, fuel)

/-- The comparisons that may go `depth` levels down. -/
def within (equal : Node → Node → Bool) (forms : List Node → List Form) : (depth : Nat) → Inner
  | 0 => ⟨fun _ _ _ fuel => (false, fuel), fun _ _ _ fuel => (false, fuel)⟩
  | depth + 1 =>
    let inner := within equal forms depth
    ⟨fun left right loose fuel => tick (byForm equal forms inner left right loose) fuel,
     fun left right loose fuel => loop inner loose fuel left right fuel⟩

end Cover

/-- The settings of a coverage check. -/
structure Coverage where
  flags : Flags
  /-- Where references lead, if both nodes stand in one tree. -/
  resolve? : Option (GroupRef → Option Nat) := none
  /-- Whether the end of the right side may be left uncovered. -/
  loose : Bool := false

/-- Whether every string that `right` matches is matched by `left`. -/
def Coverage.covers [Properties] (c : Coverage) (left right : Node) : Bool :=
  let equal := Comparison.equal { flags := c.flags, resolve? := c.resolve? }
  equal left right ||
    ((Cover.within equal (Form.ofNodes c.flags) Cover.depthLimit).node
      (Form.ofNode c.flags left) (Form.ofNode c.flags right) c.loose Cover.stepBudget).1

end RegexAudit
