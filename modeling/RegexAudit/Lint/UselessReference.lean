import RegexAudit.Analysis.Backreference
import RegexAudit.Lint.Diagnostic

/-!
# Useless references

A reference that always matches the empty string.
-/

namespace RegexAudit.UselessReference

def message (ref : GroupRef) (group : Node) : String :=
  "Backreference '" ++ String.ofList ref.text ++ "' to group '" ++ String.ofList group.text
    ++ "' will always match the empty string."

def finding? (regex : Regex) (p : Place) : Option Finding :=
  match p.node with
  | .backreference ref => do
    let (_, group) ← regex.root.group? ref
    if regex.root.isEmptyReference p.path ref then
      return .about p (message ref group) none
    else none
  | _ => none

def check (subject : Subject) : List Finding :=
  subject.regex.walk.filterMap (finding? subject.regex)

end RegexAudit.UselessReference
