import RegexAudit.CharSet.Range
import RegexAudit.Text

/-!
# Character sets

A set is kept as a list of ranges. Sets made from ranges are sorted and no two of their ranges
touch; `meet`, `minus` and `complement` work on the stored ranges as they are. Two sets are the
same when their stored ranges are.

A set also remembers whether it is known to be closed under case. The algebra keeps this mark where
both sides have it, and closing a marked set leaves its ranges as they are stored.

* `ofRanges`, `ofCodes`: sorted, touching ranges merged.
* `join`, `meet`, `minus`, `complement`: the algebra.
* `has`: membership, by binary search.
-/

namespace RegexAudit

/-- A set of characters, as a list of ranges. -/
structure CharSet where
  ranges : List Range
  /-- Whether the set is known to be closed under case. Without the mark it may still be. -/
  closed : Bool

namespace CharSet

/-! ## Making sets -/

def empty : CharSet := ⟨[], true⟩

/-- The set of the characters of some ranges. Nothing is known of its case, unless it is empty. -/
def ofRanges (rs : List Range) : CharSet := ⟨Range.canonical rs, rs.isEmpty⟩

/-- The set of the characters from `a` to `b`, in either order. -/
def span (a b : Char) : CharSet := ofRanges [Range.between a b]

def singleton (c : Char) : CharSet := span c c

/-- Every character. -/
def all : CharSet := span (Char.ofNat 0) topChar

/-- The set of a table of code points. -/
def ofCodes (table : List (Nat × Nat)) : CharSet :=
  ofRanges (table.map fun (lo, hi) => Range.ofCodes lo hi)

/-- The set of one code point; surrogates and numbers beyond the last character have none. -/
def ofCode? (n : Nat) : Option CharSet :=
  if n.isValidChar then some (singleton (Char.ofNat n)) else none

/-! ## Algebra -/

def isEmpty (s : CharSet) : Bool := s.ranges.isEmpty

/-- Whether two sets are stored alike, the mark aside. -/
def same (s t : CharSet) : Bool := s.ranges == t.ranges

/-- What is in either set. Joining nothing, or the same ranges, leaves the set as it is stored. -/
def join (s t : CharSet) : CharSet :=
  if t.isEmpty || s.same t then s
  else ⟨Range.canonical (s.ranges ++ t.ranges), s.closed && t.closed⟩

def joinAll (sets : List CharSet) : CharSet := sets.foldl join empty

/-- What is in both sets. -/
def meet (s t : CharSet) : CharSet :=
  if s.isEmpty then s
  else if t.isEmpty then empty
  else ⟨Range.meetAll s.ranges t.ranges, s.closed && t.closed⟩

/-- What is in the first set and not in the second. -/
def minus (s t : CharSet) : CharSet :=
  if s.isEmpty || t.isEmpty then s
  else ⟨Range.cutAll s.ranges t.ranges, s.closed && t.closed⟩

/-- What is not in the set. The complement of a set that is closed under case is closed too, and so
is the set of everything. -/
def complement (s : CharSet) : CharSet := ⟨Range.complement s.ranges, s.isEmpty || s.closed⟩

/-- The set or its complement. -/
def complementIf (negate : Bool) (s : CharSet) : CharSet := if negate then s.complement else s

/-! ## Questions -/

def isAll (s : CharSet) : Bool := s.complement.isEmpty

def isSubset (s t : CharSet) : Bool := (s.minus t).isEmpty

def isDisjoint (s t : CharSet) : Bool := (s.meet t).isEmpty

/-- Look for a range with `c` among those numbered from `lo` up to `hi`, halving the stretch at
each of at most `probes` steps. -/
def search (ranges : Array Range) (c : Char) : (probes lo hi : Nat) → Bool
  | 0, _, _ => false
  | probes + 1, lo, hi =>
    if lo < hi then
      let middle := (lo + hi) / 2
      match ranges[middle]? with
      | none => false
      | some r =>
        if r.hi < c then search ranges c probes (middle + 1) hi
        else if c < r.lo then search ranges c probes lo middle
        else true
    else false

/-- Membership. -/
def has (s : CharSet) (c : Char) : Bool :=
  search s.ranges.toArray c s.ranges.length 0 s.ranges.length

/-- Number of characters. -/
def size (s : CharSet) : Nat := s.ranges.foldl (fun n r => n + r.size) 0

/-- The only character of the set, if it has one range of one character. -/
def single? (s : CharSet) : Option Char :=
  match s.ranges with
  | [r] => if r.lo = r.hi then some r.lo else none
  | _ => none

/-- The ranges in brackets, for messages. -/
def toText (s : CharSet) : List Char :=
  let range (r : Range) : List Char :=
    if r.lo = r.hi then Text.escape r.lo else Text.escape r.lo ++ '-' :: Text.escape r.hi
  '[' :: s.ranges.flatMap range ++ [']']

end CharSet

end RegexAudit
