import RegexAudit.Text

/-!
# Fixes

A fix puts a text in place of a stretch of the source, given by byte offsets.
-/

namespace RegexAudit

/-- Put `text` in place of the bytes from `start` to `stop`. -/
structure Fix where
  start : Nat
  stop : Nat
  text : List Char
deriving DecidableEq

namespace Fix

/-- Take a stretch out. -/
def removal (start stop : Nat) : Fix := ⟨start, stop, []⟩

/-- The source after the fix; none if an offset is not on the edge of a character. -/
def result? (fix : Fix) (source : List Char) : Option (List Char) :=
  Text.replace? fix.start fix.stop fix.text source

end Fix

end RegexAudit
