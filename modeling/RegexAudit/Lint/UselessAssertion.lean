import RegexAudit.Analysis.Reach
import RegexAudit.Lint.Diagnostic

/-!
# Useless assertions

An assertion that always accepts, or always rejects, because of the characters around it. What is
around the whole pattern is not known, so an assertion that can see the end of the input is left
alone.
-/

namespace RegexAudit.UselessAssertion

variable [Properties]

inductive Verdict where
  | accept
  | reject
deriving DecidableEq

def Verdict.ofBool (accepts : Bool) : Verdict := if accepts then .accept else .reject

/-- Whether the character that follows is always in the set (`true`), never in it (`false`), or
either. -/
def relation? (look : Look) (set : CharSet) : Option Bool :=
  if look.edge || look.chars.isEmpty then none
  else if look.chars.isSubset set then some true
  else if look.chars.isDisjoint set then some false
  else none

/-- The verdict on the end of a line, by what follows it. -/
def lineVerdict? (flags : Flags) (look : Look) : Option Verdict :=
  if look.edge || look.chars.isEmpty then none
  else if !flags.multiline then some .reject
  else (relation? look (.ofCodes Unicode.lineTerminators)).map .ofBool

/-- The verdict on the assertion at a place. -/
def verdict? (regex : Regex) (p : Place) : Option Verdict :=
  let flags := regex.flags
  let look (direction : Direction) : Look := regex.lookAfter flags direction p
  match p.node with
  | .edge .lineStart => lineVerdict? flags (look .backward)
  | .edge .lineEnd => lineVerdict? flags (look .forward)
  | .edge (.word negate) => do
    let before ← relation? (look .backward) (wordSet flags)
    let after ← relation? (look .forward) (wordSet flags)
    return .ofBool ((before != after) != negate)
  | .look direction negate alternatives => do
    let set ← Node.soleSet? flags alternatives
    let isIn ← relation? (look direction) set
    return .ofBool (isIn != negate)
  | _ => none

def message (n : Node) (verdict : Verdict) : String :=
  "'" ++ String.ofList n.text ++ "' will always "
    ++ (match verdict with
      | .accept => "accept"
      | .reject => "reject")
    ++ " because of the characters around it."

def isAlternative : Node → Bool
  | .alternative _ => true
  | _ => false

/-- Whether the assertion at a place can be taken out: it is an element of an alternative and not
the whole source. -/
def isRemovable (regex : Regex) (p : Place) : Bool :=
  (p.trail.head?.any fun s => isAlternative s.parent)
    && decide (p.node.width < Text.width regex.source)

def finding? (regex : Regex) (p : Place) : Option Finding :=
  (verdict? regex p).map fun verdict =>
    .about p (message p.node verdict)
      (if verdict = .accept && isRemovable regex p then some (Fix.removal p.start p.stop) else none)

def check (subject : Subject) : List Finding :=
  subject.regex.walk.filterMap (finding? subject.regex)

end RegexAudit.UselessAssertion
