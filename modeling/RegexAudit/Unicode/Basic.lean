/-!
# Fixed character tables

Tables hold intervals of code points. Here are the sets that patterns are defined over.
-/

namespace RegexAudit.Unicode

/-- Whether a character is in a table. -/
def isIn (table : List (Nat × Nat)) (c : Char) : Bool :=
  table.any fun (lo, hi) => lo ≤ c.toNat && c.toNat ≤ hi

/-- The ends of lines. -/
def lineTerminators : List (Nat × Nat) := [(0x0A, 0x0A), (0x0D, 0x0D), (0x2028, 0x2029)]

/-- White space and the ends of lines. -/
def blanks : List (Nat × Nat) :=
  [(0x09, 0x0D), (0x20, 0x20), (0xA0, 0xA0), (0x1680, 0x1680), (0x2000, 0x200A), (0x2028, 0x2029),
   (0x202F, 0x202F), (0x205F, 0x205F), (0x3000, 0x3000), (0xFEFF, 0xFEFF)]

def digits : List (Nat × Nat) := [(0x30, 0x39)]

/-- Letters and digits of ASCII, and the underscore. -/
def wordCharacters : List (Nat × Nat) :=
  [(0x30, 0x39), (0x41, 0x5A), (0x5F, 0x5F), (0x61, 0x7A)]

/-- What folds into a word character: U+017F into `s` and U+212A into `k`. -/
def foldedWordCharacters : List (Nat × Nat) := [(0x17F, 0x17F), (0x212A, 0x212A)]

end RegexAudit.Unicode
