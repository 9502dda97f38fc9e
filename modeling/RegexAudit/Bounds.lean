/-!
# Repetition bounds

How often a quantifier repeats its element: at least `min` times and at most `max` times, where no
`max` means without end. Counts go up to `Bounds.limit`.

`combine?` merges a quantifier over a quantifier into one, if the repetition counts have no gaps:
`(?:a{2,3}){2}` is `a{4,6}`, but `(?:a{2}){0,2}` matches 0, 2 or 4 times and has no single form.
-/

namespace RegexAudit

/-- At least `min` and at most `max` repetitions. -/
structure Bounds where
  min : Nat
  max : Option Nat
  ordered : ∀ m, max = some m → min ≤ m
deriving DecidableEq

namespace Bounds

/-- The greatest count that can be written. -/
def limit : Nat := 4294967295

def make? (min : Nat) : Option Nat → Option Bounds
  | none => some ⟨min, none, nofun⟩
  | some m => if h : min ≤ m then some ⟨min, some m, by rintro _ ⟨⟩; exact h⟩ else none

/-- Exactly one count. -/
def isFixed (b : Bounds) : Bool := b.max == some b.min

/-- The shortest quantifier with these bounds. -/
def toText (b : Bounds) : List Char :=
  match b.min, b.max with
  | 0, none => ['*']
  | 1, none => ['+']
  | 0, some 1 => ['?']
  | min, none => '{' :: Nat.toDigits 10 min ++ [',', '}']
  | min, some max =>
    if min = max then '{' :: Nat.toDigits 10 min ++ ['}']
    else '{' :: Nat.toDigits 10 min ++ ',' :: Nat.toDigits 10 max ++ ['}']

/-- Whether the counts of `inner` repeated as `outer` says have no gaps: the intervals of two
neighbouring numbers of repetitions overlap or touch. -/
def hasNoGaps (inner outer : Bounds) : Bool :=
  outer.isFixed ||
    match inner.max with
    | none => decide (0 < outer.min) || decide (inner.min ≤ 1)
    | some b => decide (inner.min * (outer.min + 1) ≤ b * outer.min + 1)

/-- The greatest total of `inner` repeated as `outer` says. -/
def totalMax (inner outer : Bounds) : Option Nat :=
  match inner.max, outer.max with
  | some 0, _ => some 0
  | _, some 0 => some 0
  | some b, some d => some (b * d)
  | _, _ => none

/-- The bounds of `inner` repeated as `outer` says, as one quantifier. -/
def combine? (inner outer : Bounds) : Option Bounds :=
  if !inner.hasNoGaps outer then none
  else if limit < inner.min * outer.min then none
  else
    let max := inner.totalMax outer
    if max.any fun m => decide (limit < m) then none else make? (inner.min * outer.min) max

end Bounds

end RegexAudit
