import RegexAudit.Unicode.Hidden

/-!
# Text

A pattern is a list of characters, and a place in it is a byte offset of its UTF-8 form.

* `width`: the bytes of a text.
* `cut?`: divide a text at a byte offset; no division inside a character or past the end.
* `slice?`: the text between two byte offsets.
* `position`: the byte offset at which an end of a text begins.
* `strip?`: what follows a given beginning.
* `replace?`: put new text between two offsets.
* `quote`, `escape`: printable forms, used in messages.
-/

namespace RegexAudit.Text

/-! ## Byte offsets -/

/-- Number of bytes of the UTF-8 form. -/
def width : List Char → Nat
  | [] => 0
  | c :: cs => c.utf8Size + width cs

/-- Divide a text at byte `n`, if that is the end of the text or the start of a character. -/
def cut? : Nat → List Char → Option (List Char × List Char)
  | 0, cs => some ([], cs)
  | _ + 1, [] => none
  | n + 1, c :: cs =>
    if c.utf8Size ≤ n + 1 then
      (cut? (n + 1 - c.utf8Size) cs).map fun (front, back) => (c :: front, back)
    else
      none

/-- The text between two byte offsets. -/
def slice? (start stop : Nat) (cs : List Char) : Option (List Char) := do
  let (front, _) ← cut? stop cs
  let (_, middle) ← cut? start front
  return middle

/-- The byte offset at which `rest` begins, which is an end of the source. -/
def position (source rest : List Char) : Nat := width source - width rest

/-- The text before byte `start`, then `middle`, then the text from byte `stop` on. -/
def replace? (start stop : Nat) (middle cs : List Char) : Option (List Char) := do
  let (front, _) ← cut? start cs
  let (_, back) ← cut? stop cs
  return front ++ middle ++ back

/-- Join texts with `separator` between them. -/
def join (separator : List Char) : List (List Char) → List Char
  | [] => []
  | [t] => t
  | t :: ts => t ++ separator ++ join separator ts

/-- What follows `front` in a text that starts with it. -/
def strip? : (front text : List Char) → Option (List Char)
  | [], cs => some cs
  | _ :: _, [] => none
  | c :: front, d :: cs => if c = d then strip? front cs else none

@[simp] theorem width_nil : width [] = 0 := rfl

@[simp] theorem width_cons (c : Char) (cs : List Char) :
    width (c :: cs) = c.utf8Size + width cs := rfl

@[simp] theorem width_append (xs ys : List Char) : width (xs ++ ys) = width xs + width ys := by
  induction xs with
  | nil => simp
  | cons c cs ih => simp [ih, Nat.add_assoc]

theorem cut?_width (front back : List Char) :
    cut? (width front) (front ++ back) = some (front, back) := by
  induction front with
  | nil => rw [width_nil, List.nil_append, cut?]
  | cons c front ih =>
    have hsize : 0 < c.utf8Size := c.utf8Size_pos
    obtain ⟨n, hn⟩ : ∃ n, width (c :: front) = n + 1 :=
      Nat.exists_eq_succ_of_ne_zero (by rw [width_cons]; omega)
    have hrest : n + 1 - c.utf8Size = width front := by rw [← hn, width_cons]; omega
    have hle : c.utf8Size ≤ n + 1 := by rw [← hn, width_cons]; omega
    rw [hn, List.cons_append, cut?, if_pos hle, hrest, ih]
    rfl

theorem slice?_width (front middle back : List Char) :
    slice? (width front) (width front + width middle) (front ++ middle ++ back) = some middle := by
  rw [slice?, ← width_append, cut?_width]
  simp only [Option.bind_eq_bind, Option.bind_some, cut?_width]
  rfl

/-! ## Printable forms -/

/-- A character as it stands in a message: common controls and the characters of `marks` get a
backslash, other hidden characters their number. -/
def escapeWith (marks : List Char) (c : Char) : List Char :=
  if c = '\x00' then ['\\', '0']
  else if c = '\t' then ['\\', 't']
  else if c = '\r' then ['\\', 'r']
  else if c = '\n' then ['\\', 'n']
  else if marks.contains c then ['\\', c]
  else if Unicode.isHidden c then
    ['\\', 'u', '\x7b'] ++ (Nat.toDigits 16 c.toNat) ++ ['\x7d']
  else [c]

/-- A single character in a message; backslash and both quotes are marked. -/
def escape (c : Char) : List Char := escapeWith ['\\', '"', '\''] c

/-- A text in double quotes; backslash and double quote are marked. -/
def quote (cs : List Char) : List Char :=
  '"' :: cs.flatMap (escapeWith ['\\', '"']) ++ ['"']

end RegexAudit.Text
