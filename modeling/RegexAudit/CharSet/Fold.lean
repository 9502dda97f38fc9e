import RegexAudit.CharSet.Basic
import RegexAudit.Flags
import RegexAudit.Unicode.CaseFolding

/-!
# Closing sets under case

With the flag `i`, a set stands for all characters equal to one of its members up to case. With
`u` or `v` this is closure under the case classes. Without them no character is joined with one on
the other side of the end of ASCII, so `s` does not bring in U+017F nor `k` U+212A.
-/

namespace RegexAudit.CharSet

/-- Add the case class of every member. A set that is marked as closed stays as it is stored. -/
def closeCase (s : CharSet) : CharSet :=
  if s.closed then s
  else
    let mates := s.ranges.flatMap fun r =>
      (Unicode.mates r.lo.toNat r.hi.toNat).map fun c => Range.single (Char.ofNat c)
    ⟨Range.canonical (s.ranges ++ mates), true⟩

/-- The characters of ASCII. -/
def ascii : CharSet := ofCodes [(0, 0x7F)]

/-- Add case classes on each side of the end of ASCII alone. -/
def closeCaseApart (s : CharSet) : CharSet :=
  ((s.meet ascii).closeCase.meet ascii).join ((s.minus ascii).closeCase.minus ascii)

/-- What a set stands for under some flags. -/
def fold (flags : Flags) (s : CharSet) : CharSet :=
  if !flags.ignoreCase then s
  else if flags.unicodeMode || !Unicode.asciiBoundary.any s.has then s.closeCase
  else s.closeCaseApart

end RegexAudit.CharSet
