import RegexAudit.Lint.DuplicateAlternative
import RegexAudit.Lint.EmptyClass
import RegexAudit.Lint.NestedQuantifier
import RegexAudit.Lint.UnusedCapture
import RegexAudit.Lint.UselessAssertion
import RegexAudit.Lint.UselessReference
import RegexAudit.Sorting

/-!
# The linter

Runs rules over a regular expression. Diagnostics come in the order of their places; those of one
place in the order of the rules.
-/

namespace RegexAudit

variable [Properties]

/-- The rules. -/
inductive Rule where
  | duplicateAlternative (subsets : Bool)
  | emptyClass
  | nestedQuantifier
  | unusedCapture
  | uselessAssertion
  | uselessReference
deriving DecidableEq

namespace Rule

def name : Rule → String
  | duplicateAlternative _ => "no-dupe-disjunctions"
  | emptyClass => "no-empty-character-class"
  | nestedQuantifier => "no-trivially-nested-quantifier"
  | unusedCapture => "no-unused-capturing-group"
  | uselessAssertion => "no-useless-assertions"
  | uselessReference => "no-useless-backreference"

/-- All rules; subsets of alternatives are not reported. -/
def all : List Rule :=
  [duplicateAlternative false, emptyClass, nestedQuantifier, unusedCapture, uselessAssertion,
   uselessReference]

def ofName? (name : String) : Option Rule := all.find? fun rule => rule.name == name

/-- What a rule finds. -/
def check : Rule → Subject → List Finding
  | duplicateAlternative subsets => DuplicateAlternative.check subsets
  | emptyClass => EmptyClass.check
  | nestedQuantifier => NestedQuantifier.check
  | unusedCapture => UnusedCapture.check
  | uselessAssertion => UselessAssertion.check
  | uselessReference => UselessReference.check

end Rule

/-- A finding and the rule it comes from. -/
structure Diagnostic where
  rule : Rule
  finding : Finding

namespace Diagnostic

/-- Order by start, then by end. -/
def le (d e : Diagnostic) : Bool :=
  decide (d.finding.start < e.finding.start)
    || (d.finding.start == e.finding.start && decide (d.finding.stop ≤ e.finding.stop))

end Diagnostic

/-- The diagnostics of some rules, by place. -/
def lint (rules : List Rule) (subject : Subject) : List Diagnostic :=
  sortBy Diagnostic.le
    (rules.flatMap fun rule => (rule.check subject).map fun finding => ⟨rule, finding⟩)

end RegexAudit
