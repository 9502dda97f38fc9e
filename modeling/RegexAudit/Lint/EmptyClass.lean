import RegexAudit.Analysis.Category
import RegexAudit.CharSet.OfNode
import RegexAudit.Lint.Diagnostic

/-!
# Empty classes

A class that no character is in never matches. A class inside another one is judged as a part of it.
-/

namespace RegexAudit.EmptyClass

variable [Properties]

def isClass : Node → Bool
  | .charClass .. | .classExpression .. => true
  | _ => false

/-- Whether the node at a place is a class that stands in no other class. -/
def isOutermost (p : Place) : Bool :=
  isClass p.node && !(p.trail.head?.any fun s => s.parent.isCharacter)

def isReported (flags : Flags) (p : Place) : Bool :=
  isOutermost p && (p.node.charSet? flags).any CharSet.isEmpty

def check (subject : Subject) : List Finding :=
  (subject.regex.walk.filter (isReported subject.regex.flags)).map fun p =>
    .about p "This character class matches no characters." none

end RegexAudit.EmptyClass
