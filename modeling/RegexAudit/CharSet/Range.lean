import RegexAudit.Sorting

/-!
# Ranges of characters

A range holds the characters from `lo` to `hi`, both included. Characters are Unicode scalar
values, so there is a gap after U+D7FF: `after` and `before` step over it, while `touches` counts
with plain code points. Hence `..U+D7FF` and `U+E000..` are two ranges that do not touch.

Range lists are the stored form of a set. The walks below go through two lists side by side:

* `coalesce`: merge the touching neighbours of a sorted list.
* `meetAll`: the pairwise intersections.
* `cutAll`: what is left of the first list without the second.
* `gaps`: what lies between the ranges and after the last one.
-/

namespace RegexAudit

/-- The last character. -/
def topChar : Char := Char.ofNat 0x10FFFF

/-- The next character, stepping over the surrogate gap. -/
def after (c : Char) : Char :=
  if c.toNat = 0xD7FF then Char.ofNat 0xE000 else Char.ofNat (c.toNat + 1)

/-- The previous character, stepping over the surrogate gap. -/
def before (c : Char) : Char :=
  if c.toNat = 0xE000 then Char.ofNat 0xD7FF else Char.ofNat (c.toNat - 1)

/-- The characters from `lo` to `hi`. -/
structure Range where
  lo : Char
  hi : Char
  ordered : lo ≤ hi
deriving DecidableEq

namespace Range

/-- The range with these two ends, in either order. -/
def between (a b : Char) : Range :=
  if h : a ≤ b then ⟨a, b, h⟩ else ⟨b, a, (Char.le_total a b).resolve_left h⟩

def single (c : Char) : Range := ⟨c, c, Char.le_refl c⟩

/-- The range of two code points. -/
def ofCodes (a b : Nat) : Range := between (Char.ofNat a) (Char.ofNat b)

def has (r : Range) (c : Char) : Bool := r.lo ≤ c && c ≤ r.hi

/-- Order by lower end, then by upper end. -/
def le (r s : Range) : Bool := r.lo < s.lo || (r.lo == s.lo && r.hi ≤ s.hi)

/-- Whether two ranges overlap or are neighbours as code points. -/
def touches (r s : Range) : Bool :=
  max r.lo.toNat s.lo.toNat ≤ min r.hi.toNat s.hi.toNat + 1

/-- The least range around both. -/
def hull (r s : Range) : Range :=
  between (if r.lo ≤ s.lo then r.lo else s.lo) (if r.hi ≤ s.hi then s.hi else r.hi)

/-- The common part of two ranges. -/
def meet? (r s : Range) : Option Range :=
  let lo := if r.lo ≤ s.lo then s.lo else r.lo
  let hi := if r.hi ≤ s.hi then r.hi else s.hi
  if h : lo ≤ hi then some ⟨lo, hi, h⟩ else none

def isDisjoint (r s : Range) : Bool := (r.meet? s).isNone

/-- Number of characters. -/
def size (r : Range) : Nat :=
  let codes := r.hi.toNat - r.lo.toNat + 1
  if r.lo.toNat ≤ 0xD7FF && 0xE000 ≤ r.hi.toNat then codes - 0x800 else codes

/-! ## Range lists -/

/-- Merge touching neighbours; `r` is the range in the making. -/
def coalesceFrom (r : Range) : List Range → List Range
  | [] => [r]
  | s :: rest => if r.touches s then coalesceFrom (r.hull s) rest else r :: coalesceFrom s rest

def coalesce : List Range → List Range
  | [] => []
  | r :: rest => coalesceFrom r rest

/-- Sorted, with touching ranges merged. -/
def canonical (rs : List Range) : List Range := coalesce (sortBy le rs)

/-- Intersect `a` with the second list; `next` goes on with the ranges after `a`. -/
def meetEach (a : Range) (next : List Range → List Range) : List Range → List Range
  | [] => []
  | b :: bs =>
    (a.meet? b).toList ++ if a.hi < b.hi then next (b :: bs) else meetEach a next bs

/-- The intersections of two range lists, walking both in order. -/
def meetAll : List Range → List Range → List Range
  | [] => fun _ => []
  | a :: as => meetEach a (meetAll as)

/-- What is left of `r` once ranges from the second list are taken out, as long as they meet it. -/
def carve (next : List Range → List Range) (r : Range) : List Range → List Range
  | [] => r :: next []
  | b :: bs =>
    if r.isDisjoint b then r :: next (b :: bs)
    else if b.hi < r.hi then
      (if r.lo < b.lo then [between r.lo (before b.lo)] else [])
        ++ carve next (between (after b.hi) r.hi) bs
    else if r.lo < b.lo then
      let low := between r.lo (before b.lo)
      if r.hi < b.hi then low :: next (b :: bs) else carve next low bs
    else next (b :: bs)

/-- Take the second list out of `a`; `next` goes on with the ranges after `a`. -/
def cutEach (a : Range) (next : List Range → List Range) : List Range → List Range
  | [] => a :: next []
  | b :: bs =>
    if b.hi < a.lo then cutEach a next bs
    else if a.hi < b.lo then a :: next (b :: bs)
    else carve next a (b :: bs)

/-- The difference of two range lists, walking both in order. -/
def cutAll : List Range → List Range → List Range
  | [] => fun _ => []
  | a :: as => cutEach a (cutAll as)

/-- The ranges between neighbours, and what follows the last one. -/
def gaps : List Range → List Range
  | [] => []
  | [r] => if r.hi < topChar then [between (after r.hi) topChar] else []
  | r :: s :: rest => between (after r.hi) (before s.lo) :: gaps (s :: rest)

/-- The complement of a range list. -/
def complement : List Range → List Range
  | [] => [between (Char.ofNat 0) topChar]
  | r :: rest =>
    (if Char.ofNat 0 < r.lo then [between (Char.ofNat 0) (before r.lo)] else []) ++ gaps (r :: rest)

end Range

end RegexAudit
