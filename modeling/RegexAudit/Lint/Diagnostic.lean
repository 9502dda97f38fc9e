import RegexAudit.Lint.Captures
import RegexAudit.Lint.Fix
import RegexAudit.Syntax.Regex

/-!
# Diagnostics

What a rule reports about a stretch of the source, and what it may look at for that.
-/

namespace RegexAudit

/-- A remark about the bytes from `start` to `stop` of a source. -/
structure Finding where
  start : Nat
  stop : Nat
  message : String
  fix : Option Fix

namespace Finding

/-- A remark about the node at a place. -/
def about (p : Place) (message : String) (fix : Option Fix) : Finding :=
  ⟨p.start, p.stop, message, fix⟩

end Finding

/-- A regular expression to check, and the uses of its captures if they are known. -/
structure Subject where
  regex : Regex
  captures : Option CaptureUses

end RegexAudit
