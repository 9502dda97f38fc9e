import RegexAudit.CharSet.Basic

/-!
# First characters

What can be told about the character at a position: which characters may stand there (`Look`), and
which characters a part of a pattern may consume first (`First`). Both are supersets of what can
happen, and exact if they say so.
-/

namespace RegexAudit

/-- The character that follows a position. -/
structure Look where
  chars : CharSet
  /-- Whether each of `chars` can follow; otherwise they are a superset. -/
  exact : Bool
  /-- Whether the end of the input may follow. -/
  edge : Bool

namespace Look

/-- Anything may follow. -/
def anything : Look := ⟨.all, true, true⟩

/-- Only the end of the input may follow. -/
def onlyEdge : Look := ⟨.empty, true, true⟩

/-- Nothing is known. -/
def unknown : Look := ⟨.all, false, true⟩

/-- What follows where both hold. -/
def both (x y : Look) : Look := ⟨x.chars.meet y.chars, x.exact && y.exact, x.edge && y.edge⟩

/-- What follows where one of them holds. -/
def either (x y : Look) : Look := ⟨x.chars.join y.chars, x.exact && y.exact, x.edge || y.edge⟩

def isOnlyEdge (x : Look) : Bool := x.edge && x.chars.isEmpty

end Look

/-- The characters that are consumed first. -/
structure First where
  chars : CharSet
  /-- Whether each of `chars` can come first; otherwise they are a superset. -/
  exact : Bool
  /-- What has to follow if nothing is consumed; none if something always is. -/
  look? : Option Look

namespace First

/-- Consumes one of the characters. -/
def always (chars : CharSet) : First := ⟨chars, true, none⟩

/-- Consumes nothing, and `look` has to follow. -/
def nothing (look : Look) : First := ⟨.empty, true, some look⟩

/-- Nothing is known. -/
def unknown : First := ⟨.all, false, some .unknown⟩

/-- What is consumed first by `x` with `y` after it. Only if `x` may consume nothing is `y` asked
for. -/
def andThen (x : First) (y : Unit → First) : First :=
  match x.look? with
  | none => x
  | some look =>
    let y := y ()
    ⟨x.chars.join (y.chars.meet look.chars), x.exact && y.exact && look.exact,
      y.look?.map look.both⟩

/-- What is consumed first by parts in a row. -/
def row (parts : List First) : First :=
  parts.foldl (fun x y => x.andThen fun _ => y) (nothing .anything)

/-- One of two looks, where each may be missing. -/
def eitherLook : Option Look → Option Look → Option Look
  | some x, some y => some (x.either y)
  | none, y => y
  | x, none => x

/-- What is consumed first by one of some parts. -/
def oneOf (parts : List First) : First :=
  parts.foldl
    (fun acc x => ⟨acc.chars.join x.chars, acc.exact && x.exact, eitherLook acc.look? x.look?⟩)
    ⟨.empty, true, none⟩

/-- The part, or nothing. -/
def orNothing (x : First) : First := oneOf [x, nothing .anything]

/-- What follows a position where the part comes next. -/
def toLook (x : First) : Look :=
  match x.look? with
  | none => ⟨x.chars, x.exact, false⟩
  | some look => ⟨x.chars.join look.chars, x.exact && look.exact, look.edge⟩

/-- The part, matched again through a reference. The text is the same as before, so a choice of
characters is none here; and what followed the group does not follow the reference. -/
def asReference (x : First) : First :=
  ⟨x.chars, x.exact && decide (x.chars.size ≤ 1), x.look?.map fun _ => .unknown⟩

end First

end RegexAudit
