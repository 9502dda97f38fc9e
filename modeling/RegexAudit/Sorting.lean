/-!
# Sorting

Insertion sort. It is stable: members that are equal in the order keep the order they had.
-/

namespace RegexAudit

/-- Put `x` before the first member that it may stand before. -/
def insertBy (le : α → α → Bool) (x : α) : List α → List α
  | [] => [x]
  | y :: ys => if le x y then x :: y :: ys else y :: insertBy le x ys

/-- The members in order. -/
def sortBy (le : α → α → Bool) : List α → List α
  | [] => []
  | x :: xs => insertBy le x (sortBy le xs)

end RegexAudit
