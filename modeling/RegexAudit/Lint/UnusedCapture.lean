import RegexAudit.Lint.Diagnostic

/-!
# Unused captures

A capturing group that no reference leads to, and that the code around the pattern does not read.
Only if those uses are known is anything reported. The last group can be made a plain one; any other
would change the numbers of the groups after it.
-/

namespace RegexAudit.UnusedCapture

/-- The numbers of the groups that references lead to. -/
def referenced (regex : Regex) : List Nat :=
  regex.walk.filterMap fun p =>
    match p.node with
    | .backreference ref => regex.resolve? ref
    | _ => none

def message (index : Nat) : Option (List Char) → String
  | some name => "Capturing group '" ++ String.ofList name ++ "' is defined but never used."
  | none => "Capturing group number " ++ Nat.repr index ++ " is defined but never used."

/-- Turn the group at a place into a plain one. -/
def plain (p : Place) : Fix :=
  ⟨p.start, p.start + Text.width p.node.opening, ['(', '?', ':']⟩

def finding? (regex : Regex) (uses : CaptureUses) (last : Nat) (p : Place) : Option Finding :=
  match p.node with
  | .choice (.capture index name) _ =>
    if (referenced regex).contains index || uses.has index name then none
    else some (.about p (message index name) (if index = last then some (plain p) else none))
  | _ => none

def check (subject : Subject) : List Finding :=
  match subject.captures with
  | none => []
  | some uses =>
    if uses.all then []
    else
      let groups := subject.regex.groups
      groups.filterMap (finding? subject.regex uses groups.length)

end RegexAudit.UnusedCapture
