import RegexAudit.Lint.Linter

/-!
# Repairs

Fixing a pattern again and again: each round applies the first fix there is and reads the source
anew.
-/

namespace RegexAudit

variable [Properties]

/-- A step of fixing a source again and again. -/
inductive Repair where
  /-- A fix was applied; `found` diagnostics were there before it. -/
  | fixed (rule : Rule) (found : Nat) (source : List Char)
  /-- Nothing was left to fix, with `found` diagnostics. -/
  | done (found : Nat)
  /-- The fixed source is no pattern. -/
  | broken (error : ParseError)
  /-- The fix does not fit the source. -/
  | misfit

/-- The first diagnostic that has a fix. -/
def firstFix? (diagnostics : List Diagnostic) : Option (Diagnostic × Fix) :=
  diagnostics.findSome? fun d => d.finding.fix.map fun fix => (d, fix)

/-- Fix the first diagnostic that can be fixed, at most `rounds` times. -/
def repair (rules : List Rule) (captures : Option CaptureUses) :
    (rounds : Nat) → Regex → List Repair
  | 0, _ => []
  | rounds + 1, regex =>
    let diagnostics := lint rules ⟨regex, captures⟩
    match firstFix? diagnostics with
    | none => [.done diagnostics.length]
    | some (d, fix) =>
      match fix.result? regex.source with
      | none => [.misfit]
      | some source =>
        .fixed d.rule diagnostics.length source ::
          match Regex.parse source regex.flags with
          | .ok next => repair rules captures rounds next
          | .error e => [.broken e]

end RegexAudit
