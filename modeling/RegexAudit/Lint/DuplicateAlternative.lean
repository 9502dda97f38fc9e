import RegexAudit.Analysis.Cover
import RegexAudit.Lint.Diagnostic

/-!
# Useless alternatives

An alternative is never reached if an earlier one of the same group matches all it matches: one that
is equal to it, or (if subsets are wanted) one that covers it.
-/

namespace RegexAudit

variable [Properties]

namespace Node

mutual

/-- Whether a capturing group stands in the tree. -/
def hasCapture : Node → Bool
  | choice (.capture ..) _ => true
  | choice _ alternatives | look _ _ alternatives => anyCapture alternatives
  | alternative elements => anyCapture elements
  | quantifier _ _ _ element => hasCapture element
  | _ => false

def anyCapture : List Node → Bool
  | [] => false
  | n :: rest => hasCapture n || anyCapture rest

end

end Node

namespace DuplicateAlternative

/-- The alternatives before the one at a place, in the same group. -/
def earlier (p : Place) : List Node :=
  match p.trail with
  | s :: _ => s.parent.alternatives.take s.slot
  | [] => []

/-- Take out an alternative with one bar next to it: the one before it, or the one behind it if it
comes first. -/
def removeAlternative? (p : Place) : Option Fix := do
  let siblings := (← p.parent?).alternatives
  match ← siblings.findIdx? (·.position == p.position) with
  | 0 => siblings[1]?.map fun next => .removal p.start next.start
  | i + 1 => siblings[i]?.map fun before => .removal before.stop p.stop

/-- Take out an alternative. Without a group in it no other group gets another number. -/
def removal? (p : Place) : Option Fix :=
  if p.node.hasCapture then none else removeAlternative? p

def duplicateMessage (n : Node) : String :=
  "Unexpected duplicate alternative. This alternative is the same as `" ++ String.ofList n.text
    ++ "` and can be removed."

def subsetMessage (n : Node) : String :=
  "Unexpected useless alternative. This alternative is a subset of `" ++ String.ofList n.text
    ++ "` and can be removed."

/-- The finding about the alternative at a place. -/
def finding? (regex : Regex) (subsets : Bool) (p : Place) : Option Finding :=
  let resolve? := some regex.resolve?
  let comparison : Comparison := { flags := regex.flags, resolve? }
  let coverage : Coverage := { flags := regex.flags, resolve? }
  match (earlier p).find? fun n => comparison.equal n p.node with
  | some n => some (.about p (duplicateMessage n) (removal? p))
  | none =>
    if subsets then
      ((earlier p).find? fun n => coverage.covers n p.node).map fun n =>
        .about p (subsetMessage n) none
    else none

def check (subsets : Bool) (subject : Subject) : List Finding :=
  subject.regex.walk.filterMap (finding? subject.regex subsets)

end DuplicateAlternative

end RegexAudit
