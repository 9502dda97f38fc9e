import RegexAudit.Proofs.LexemesAlone

/-!
# Fences

A fence is the end of the source, or a mark that no lexeme goes on with: the bracket that closes a
class, a bar, or a parenthesis. What was read before any text is read before a fence as well, if it
has a character of its own:

    characterEscape setting inClass (x ++ u) = .ok (n, r ++ u)  →  Fence u'  →
      characterEscape setting' inClass (x ++ u') = .ok (n, r ++ u')

First the text `u` is cut off, then the fence is put in its place. Sets are read before any text.
-/

namespace RegexAudit

namespace Lexeme

/-! ## Fences -/

/-- The text is empty or starts with a mark that no lexeme goes on with. -/
def Fence (u : List Char) : Prop := ∀ c ∈ u.head?, c ∈ [']', '|', '(', ')']

namespace Fence

theorem nil : Fence [] := nofun

theorem cons {c : Char} (hc : c ∈ [']', '|', '(', ')']) (r : List Char) : Fence (c :: r) := by
  rintro _ ⟨⟩
  exact hc

theorem bracket (r : List Char) : Fence (']' :: r) := .cons (by decide) r

/-- What does not hold of the marks holds of no character at the front of a fence. -/
theorem eq_false {u : List Char} (hu : Fence u) {p : Char → Bool}
    (hp : [']', '|', '(', ')'].any p = false) {c : Char} (hc : u.head? = some c) : p c = false :=
  Bool.eq_false_iff.2 (List.any_eq_false.1 hp c (hu c hc))

theorem not_head? {u : List Char} (hu : Fence u) {p : Char → Bool}
    (hp : [']', '|', '(', ')'].any p = false) : u.head?.any p = false := by
  cases u with
  | nil => rfl
  | cons c u => exact hu.eq_false hp rfl

theorem head?_ne {u : List Char} (hu : Fence u) {c : Char} (hc : c ∉ [']', '|', '(', ')']) :
    u.head? ≠ some c := fun hhead => hc (hu c hhead)

theorem ne_cons {u : List Char} (hu : Fence u) {c : Char} (hc : c ∉ [']', '|', '(', ')'])
    (r : List Char) : u ≠ c :: r := by
  rintro rfl
  exact hu.head?_ne hc rfl

/-- Another character than the marks stands before the fence. -/
theorem exists_cons {u : List Char} (hu : Fence u) {c : Char} (hc : c ∉ [']', '|', '(', ')'])
    {x r : List Char} (h : x ++ u = c :: r) : ∃ y, x = c :: y ∧ r = y ++ u := by
  cases x with
  | nil => exact absurd h (hu.ne_cons hc r)
  | cons d y =>
    obtain ⟨rfl, rfl⟩ := List.cons.inj h
    exact ⟨y, rfl, rfl⟩

end Fence

section
variable {u : List Char} (hu : Fence u)

include hu

theorem while_fence {p : Char → Bool} (hp : [']', '|', '(', ')'].any p = false)
    (x : List Char) : (x ++ u).takeWhile p = x.takeWhile p ∧
      (x ++ u).dropWhile p = x.dropWhile p ++ u := by
  induction x with
  | nil =>
    cases u with
    | nil => exact ⟨rfl, rfl⟩
    | cons c u => simp [hu.eq_false hp rfl]
  | cons c x ih => by_cases hc : p c = true <;> simp [hc, ih]

/-- Digits end before a fence. -/
theorem exists_of_hex? {k : Nat} {x after : List Char} {n : Nat}
    (h : hex? k (x ++ u) = some (n, after)) : ∃ r, hex? k x = some (n, r) := by
  obtain ⟨digits, htext, hlength, hdigits, hn⟩ := hex?_eq_some.1 h
  rcases List.append_eq_append_iff.1 htext with ⟨m, rfl, hm⟩ | ⟨m, rfl, -⟩
  · cases m with
    | nil => exact ⟨[], hex?_eq_some.2 ⟨x ++ [], by simp, hlength, hdigits, hn⟩⟩
    | cons c m =>
      have hnone : isHexDigit c = false := hu.eq_false (by decide) (by rw [hm]; rfl)
      rw [hdigits c (by simp)] at hnone
      cases hnone
  · exact ⟨m, hex?_eq_some.2 ⟨digits, rfl, hlength, hdigits, hn⟩⟩

theorem hex?_none_fence {k : Nat} {x : List Char} (h : hex? k x = none) :
    hex? k (x ++ u) = none :=
  Option.eq_none_iff_forall_ne_some.2 fun read hread => by
    obtain ⟨r, hr⟩ := exists_of_hex? hu hread
    rw [h] at hr
    cases hr

theorem octal_fence (k value : Nat) (x : List Char) :
    octal k value (x ++ u) = ((octal k value x).1, (octal k value x).2 ++ u) := by
  induction x generalizing k value with
  | nil =>
    have hnone : [']', '|', '(', ')'].any isOctalDigit = false := by decide
    cases k with
    | zero => rfl
    | succ k =>
      cases u with
      | nil => rfl
      | cons c u => simp [octal, hu.eq_false hnone rfl]
  | cons c x ih =>
    cases k with
    | zero => rfl
    | succ k =>
      simp only [List.cons_append, octal]
      split
      · exact ih _ _
      · rfl

theorem octalOrSelf_fence (c : Char) (x : List Char) :
    octalOrSelf (c :: (x ++ u)) = ((octalOrSelf (c :: x)).1, (octalOrSelf (c :: x)).2 ++ u) := by
  simp only [octalOrSelf]
  split
  · exact octal_fence hu 3 0 (c :: x)
  · rfl

theorem trailSurrogate?_none_fence {x : List Char} (h : trailSurrogate? x = none) :
    trailSurrogate? (x ++ u) = none :=
  Option.eq_none_iff_forall_ne_some.2 fun read hread => by
    obtain ⟨tail, htext, hhex, hrange⟩ := trailSurrogate?_eq_some.1 hread
    obtain ⟨y, rfl, hy⟩ := hu.exists_cons (by decide) htext
    obtain ⟨z, rfl, rfl⟩ := hu.exists_cons (by decide) hy.symm
    obtain ⟨r, hr⟩ := exists_of_hex? hu hhex
    rw [trailSurrogate?_eq_some.2 ⟨z, rfl, hr, hrange⟩] at h
    cases h

theorem UnicodeEscape.fence {strict : Bool} {x r : List Char} {n : Nat}
    (h : UnicodeEscape strict x n r) : UnicodeEscape strict (x ++ u) n (r ++ u) := by
  cases h with
  | braced hstrict hcode => exact .braced hstrict (bracedCode?_append u hcode)
  | pair hstrict hhex hlow hhigh htrail =>
    exact .pair hstrict (hex?_append u hhex) hlow hhigh (trailSurrogate?_append u htrail)
  | single hhex htrail =>
    exact .single (hex?_append u hhex) fun hstrict hlow hhigh =>
      trailSurrogate?_none_fence hu (htrail hstrict hlow hhigh)
  | self hlenient hhex => exact .self hlenient (hex?_none_fence hu hhex)

theorem head?_any_fence {p : Char → Bool} (hp : [']', '|', '(', ')'].any p = false)
    (x : List Char) : (x ++ u).head?.any p = x.head?.any p := by
  cases x with
  | nil => exact hu.not_head? hp
  | cons _ _ => rfl

theorem CharacterEscape.fence {setting : Setting} {inClass : Bool} {x r : List Char} {n : Nat}
    (h : CharacterEscape setting inClass x n r) :
    CharacterEscape setting inClass (x ++ u) n (r ++ u) := by
  cases h with
  | control hm => exact .control hm
  | letter hletter => exact .letter hletter
  | backslash hlenient hletter =>
    refine .backslash hlenient ((head?_any_fence hu ?_ _).trans hletter)
    cases inClass <;> simp [isControlLetter, hlenient]
  | hex hhex => exact .hex (hex?_append u hhex)
  | plainHex hlenient hhex => exact .plainHex hlenient (hex?_none_fence hu hhex)
  | unicode hcode => exact .unicode (hcode.fence hu)
  | zero hdigit => exact .zero ((head?_any_fence hu (by decide) _).trans hdigit)
  | octal hlenient hdigit hzero hoctal =>
    refine .octal hlenient hdigit (fun hc => (head?_any_fence hu (by decide) _).trans (hzero hc)) ?_
    exact (octalOrSelf_fence hu _ _).trans (by rw [hoctal])
  | backspace hclass => exact .backspace hclass
  | self hc => exact .self hc

end

section
variable {setting setting' : Setting} {x r u : List Char} {n : Nat}

/-- The text `u` gives no meaning to a backslash that stands alone before it: that takes a `c` after
the backslash, of which nothing is read. -/
def Delimited (setting : Setting) (r u : List Char) : Prop :=
  setting.strict = true ∨ r ≠ [] ∨ Fence u

theorem ne_nil_of_characterEscape {inClass : Bool} (hend : Delimited setting r u)
    (h : characterEscape setting inClass (x ++ u) = .ok (n, r ++ u)) : x ≠ [] := by
  rintro rfl
  obtain ⟨c, tail, rfl, hsuffix | ⟨rfl, -, hrest, hlenient⟩⟩ := characterEscape_tail h
  · have hle := hsuffix.length_le
    simp only [List.length_append, List.length_cons] at hle
    omega
  · rcases hend with hstrict | hr | hu
    · rw [hstrict] at hlenient
      cases hlenient
    · exact hr (List.append_left_eq_self.1 hrest)
    · exact hu.ne_cons (by decide) tail rfl

/-- Escapes with a character of their own are the same before every fence. -/
theorem characterEscape_fence {inClass : Bool} {u' : List Char} (hu' : Fence u')
    (hnarrows : setting'.Narrows setting) (hx : x ≠ [])
    (h : characterEscape setting inClass (x ++ u) = .ok (n, r ++ u)) :
    characterEscape setting' inClass (x ++ u') = .ok (n, r ++ u') := by
  obtain ⟨c, x, rfl⟩ := List.exists_cons_of_ne_nil hx
  exact characterEscape_iff.2 (((characterEscape_iff.1 h).cut.narrow hnarrows).fence hu')

/-! ## Sets -/

theorem property_append {negate : Bool} {w r : List Char} {set : Shorthand}
    (hsets : setting'.flags.unicodeSets = setting.flags.unicodeSets) (u : List Char)
    (h : property setting negate w = .ok (set, r)) :
    property setting' negate (w ++ u) = .ok (set, r ++ u) := by
  obtain ⟨body, key, value, rfl, hclose, hparts, hstring, rfl⟩ := property_iff.1 h
  rw [← hsets] at hstring
  exact property_iff.2 ⟨body, key, value, by simp, hclose, hparts, hstring, rfl⟩

/-- A set stays what it is, whatever comes after it. -/
theorem shorthand?_joined {w u r : List Char} {set : Shorthand}
    (hnarrows : setting'.Narrows setting) (u' : List Char)
    (h : shorthand? setting (w ++ u) = .ok (some set, r ++ u)) :
    shorthand? setting' (w ++ u') = .ok (some set, r ++ u') := by
  obtain ⟨c, tail, rfl, hread⟩ := shorthand?_iff.1 (shorthand?_alone h)
  refine shorthand?_iff.2 ⟨c, tail ++ u', rfl, ?_⟩
  rcases hread with ⟨hset, rfl⟩ | ⟨hstrict, hp, hproperty⟩
  · exact .inl ⟨hset, rfl⟩
  · have hproperty := property_append hnarrows.unicodeSets u' hproperty
    exact .inr ⟨hnarrows.strict.trans hstrict, hp, hproperty⟩

/-- Whether a set is written is told by the first character. -/
theorem shorthand?_none_joined {c : Char} {w m : List Char} (hnarrows : setting'.Narrows setting)
    (w' : List Char) (h : shorthand? setting (c :: w) = .ok (none, m)) :
    shorthand? setting' (c :: w') = .ok (none, c :: w') := by
  obtain ⟨-, hsets, hp⟩ := shorthand?_none_iff.1 h
  exact shorthand?_none_iff.2 ⟨rfl, hsets, fun hstrict => hp (hnarrows.strict.symm.trans hstrict)⟩

end

end Lexeme

end RegexAudit
