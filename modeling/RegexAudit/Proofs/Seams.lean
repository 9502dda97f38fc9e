import RegexAudit.Proofs.LexemesJoined
import RegexAudit.Proofs.Runs

/-!
# Runs along joined texts

When another text comes to stand behind the beginning of a source, the steps along the beginning can
be taken again, and those along the other text after them:

    Run setting ⟨opened, pending, x ++ v⟩ ⟨opened', pending', v⟩
      → Run setting' ⟨opened', pending', w⟩ finished → Run setting' ⟨opened, pending, x ++ w⟩ finished

What is read of `x` is told by `x`, with these exceptions. Without `u` and `v` an escape at the end of
`x` can take letters and digits of `w`, which were characters of their own, and a brace in `x` can
become part of a quantifier. With `u` or `v` digits of `w` can join those of a reference or of the
escape `\0`, and the second half of a pair of surrogates can join the first. Letters and surrogates
are taken from a run without harm; the other two are what `Seam` excludes.
-/

namespace RegexAudit

open Node

namespace Lexeme

/-! ## Texts without quantifiers -/

theorem atQuantifier_cons {c : Char} (hc : c ∉ ['*', '+', '?', '{']) (r : List Char) :
    atQuantifier (c :: r) = false := by
  refine Bool.eq_false_iff.2 fun h => hc ?_
  obtain ⟨counts, rest, hcounts⟩ := atQuantifier_iff.1 h
  cases hcounts <;> simp

end Lexeme

namespace Pattern

open Lexeme

variable {setting : Setting} {limit : Nat} {q : Node → Prop} {opened : List Bool}
  {v : List Char} {ls : List (Option (List Char))}

/-- No quantifier starts here, nor what looks like one. -/
structure Unrepeated (setting : Setting) (v : List Char) : Prop where
  quantifier : atQuantifier v = false
  brace : setting.strict = true → v.head? ≠ some '{'

namespace Unrepeated

theorem cons {c : Char} (hc : c ∉ ['*', '+', '?', '{']) (r : List Char) :
    Unrepeated setting (c :: r) where
  quantifier := atQuantifier_cons hc r
  brace _ hhead := by
    cases hhead
    exact hc (by decide)

theorem passes (h : Unrepeated setting v) (repeats : Bool) : Passes setting repeats v v := by
  cases repeats with
  | false => exact .unrepeatable h.quantifier
  | true => exact .repeatable (quantifier?_eq_none.2 ⟨rfl, h.quantifier, h.brace⟩)

theorem head_ne (h : Unrepeated setting v) : v.head? ≠ some '?' := by
  intro hhead
  obtain ⟨r, rfl⟩ := List.head?_eq_some_iff.1 hhead
  cases h.quantifier

end Unrepeated

theorem Leaf.unrepeated {innerClass : List Char → Except Fault (Node × List Char)} {n : Node}
    {repeats : Bool} {rest : List Char} (h : Leaf setting innerClass v n repeats rest) :
    Unrepeated setting v := by
  cases h with
  | edge e =>
    cases e with
    | word negate => cases negate <;> exact .cons (by decide) _
    | _ => exact .cons (by decide) _
  | any | charClass _ | escape _ _ _ => exact .cons (by decide) _
  | plain h =>
    refine ⟨h.unrepeated, fun hstrict hhead => ?_⟩
    cases hhead
    exact h.bracket hstrict (by decide)

/-- Where a run goes on with an element, no quantifier starts. -/
theorem Run.unrepeated (h : Run setting limit q ⟨opened, none, v⟩ ls .finished) :
    Unrepeated setting v := by
  generalize hσ : (⟨opened, none, v⟩ : State) = σ at h
  generalize hτ : State.finished = τ at h
  cases h with
  | refl =>
    cases hσ.trans hτ.symm
    exact ⟨rfl, fun _ => nofun⟩
  | step hstep _ =>
    cases hstep with
    | bar | closing =>
      cases hσ
      exact .cons (by decide) _
    | leaf _ hleaf _ =>
      cases hσ
      exact hleaf.unrepeated
    | opening _ _ =>
      rename_i o r _ _ _
      cases hσ
      obtain ⟨tail, htext⟩ := o.exists_text_cons
      rw [htext]
      exact .cons (by decide) _
    | passing _ => cases hσ

/-- An element may be read before such a run. -/
theorem Run.later (h : Run setting limit q ⟨opened, none, v⟩ ls .finished) (repeats : Bool) :
    Run setting limit q ⟨opened, some repeats, v⟩ ls .finished :=
  .step (.passing (h.unrepeated.passes repeats)) h

/-! ## Runs to the end -/

/-- A run to the end of a source with some groups. -/
abbrev Finishes (flags : Flags) (labels : List (Option (List Char))) (limit : Nat) (σ : State)
    (ls : List (Option (List Char))) : Prop :=
  Run (settingFor flags labels) limit (Sound labels) σ ls .finished

/-- Where no quantifier starts, a run passes on to the next element. -/
theorem Run.element {repeats : Bool}
    (h : Run setting limit q ⟨opened, some repeats, v⟩ ls .finished) (hv : Unrepeated setting v) :
    Run setting limit q ⟨opened, none, v⟩ ls .finished := by
  generalize hτ : State.finished = τ at h
  cases h with
  | refl => cases hτ
  | step hstep hrun =>
    subst hτ
    cases hstep with
    | passing hpasses =>
      cases hpasses with
      | repeatable _ | unrepeatable _ => exact hrun
      | repeated hread =>
        rw [quantifier?_eq_none.2 ⟨rfl, hv.quantifier, hv.brace⟩] at hread
        cases hread

/-- Where nothing is opened or closed, the next element is a leaf. -/
theorem Run.leaf {c : Char} {r : List Char}
    (h : Run setting limit q ⟨opened, none, c :: r⟩ ls .finished) (hc : c ∉ ['|', '(', ')']) :
    ∃ n repeats rest,
      Leaf setting (Class.nested setting (limit - opened.length)) (c :: r) n repeats rest ∧
        Run setting limit q ⟨opened, some repeats, rest⟩ ls .finished := by
  generalize hσ : (⟨opened, none, c :: r⟩ : State) = σ at h
  generalize hτ : State.finished = τ at h
  cases h with
  | refl => cases hσ.trans hτ.symm
  | step hstep hrun =>
    subst hτ
    cases hstep with
    | bar | closing =>
      cases hσ
      simp at hc
    | leaf _ hleaf _ =>
      cases hσ
      exact ⟨_, _, _, hleaf, hrun⟩
    | opening _ _ =>
      rename_i o r' _ _
      obtain ⟨tail, htext⟩ := o.exists_text_cons
      rw [htext, List.cons_append] at hσ
      cases hσ
      simp at hc
    | passing _ => cases hσ

/-! ### Letters -/

theorem not_mem_of_isAlphanum {c : Char} {marks : List Char}
    (hmarks : marks.all (fun m => !m.isAlphanum) = true) (hc : c.isAlphanum = true) :
    c ∉ marks := by
  intro hmem
  have hmark := List.all_eq_true.1 hmarks c hmem
  rw [hc] at hmark
  cases hmark

theorem Leaf.letter {innerClass : List Char → Except Fault (Node × List Char)} {c : Char} {n : Node}
    {repeats : Bool} {r rest : List Char} (h : Leaf setting innerClass (c :: r) n repeats rest)
    (hc : c.isAlphanum = true) : repeats = true ∧ rest = r := by
  generalize htext : c :: r = text at h
  have hmark : c ∉ ['^', '$', '\\', '.', '['] := not_mem_of_isAlphanum (by decide) hc
  cases h with
  | edge e =>
    cases e with
    | word negate => cases negate <;> cases htext <;> simp at hmark
    | _ => cases htext; simp at hmark
  | any | charClass _ | escape _ _ _ =>
    cases htext
    simp at hmark
  | plain _ =>
    cases htext
    exact ⟨rfl, rfl⟩

variable {flags : Flags} {labels : List (Option (List Char))}

theorem sound_character (letter : Letter) : (character letter).Throughout (Sound labels) :=
  throughout_iff.2 ⟨sound_of_not_reference nofun rfl, by simp [children]⟩

/-- Letters and digits are characters of their own. -/
theorem Finishes.push {w : List Char} (h : Finishes flags labels limit ⟨opened, some true, v⟩ ls)
    (hw : ∀ c ∈ w, c.isAlphanum = true) :
    Finishes flags labels limit ⟨opened, some true, w ++ v⟩ ls := by
  induction w with
  | nil => exact h
  | cons c w ih =>
    rw [List.forall_mem_cons] at hw
    have hend : ¬ AtEnd (c :: (w ++ v)) := by
      rintro (h | ⟨_, h | h⟩)
      · cases h
      · cases h
        exact absurd hw.1 (by decide)
      · cases h
        exact absurd hw.1 (by decide)
    have hplain : IsPlain (settingFor flags labels) c (w ++ v) :=
      ⟨not_mem_of_isAlphanum (by decide) hw.1,
        atQuantifier_cons (not_mem_of_isAlphanum (by decide) hw.1) _,
        fun _ => not_mem_of_isAlphanum (by decide) hw.1⟩
    have hunrepeated : Unrepeated (settingFor flags labels) (c :: (w ++ v)) :=
      .cons (not_mem_of_isAlphanum (by decide) hw.1) _
    exact .step (.passing (hunrepeated.passes true))
      (.step (.leaf hend (.plain hplain) (sound_character _)) (ih hw.2))

theorem Finishes.drop {w : List Char}
    (h : Finishes flags labels limit ⟨opened, some true, w ++ v⟩ ls)
    (hw : ∀ c ∈ w, c.isAlphanum = true) :
    Finishes flags labels limit ⟨opened, some true, v⟩ ls := by
  induction w with
  | nil => exact h
  | cons c w ih =>
    rw [List.forall_mem_cons] at hw
    have helement := h.element (.cons (not_mem_of_isAlphanum (by decide) hw.1) _)
    obtain ⟨n, repeats, rest, hleaf, hrun⟩ :=
      helement.leaf (not_mem_of_isAlphanum (by decide) hw.1)
    obtain ⟨rfl, rfl⟩ := hleaf.letter hw.1
    exact ih hrun hw.2

/-- An escape may take other letters and digits than those that stand behind it. -/
theorem Finishes.letters {w rest : List Char}
    (h : Finishes flags labels limit ⟨opened, some true, v⟩ ls)
    (hw : ∀ c ∈ w, c.isAlphanum = true) (htakes : TakesLetters (w ++ v) rest) :
    Finishes flags labels limit ⟨opened, some true, rest⟩ ls := by
  obtain ⟨w', htext, hw'⟩ := htakes
  have hpush := h.push hw
  rw [htext] at hpush
  exact hpush.drop hw'

/-! ### Surrogates -/

/-- With `u` or `v` the second half of a pair is read alone if there is no first half. -/
theorem escaped_trail {tail rest rest' : List Char} {m : Nat} {n : Node}
    (hhex : hex? 4 tail = some (m, rest)) (htrail : 0xDC00 ≤ m)
    (h : escaped setting ('u' :: tail) = .ok (n, rest')) : rest' = rest := by
  generalize htext : 'u' :: tail = text at h
  have hvalue : characterEscape setting false ('u' :: tail) = .ok (m, rest) :=
    characterEscape_iff.2 (.unicode (.single hhex fun _ _ hhigh => by omega))
  cases escaped_iff.1 h with
  | shorthand hset =>
    subst htext
    simp [shorthand?] at hset
  | name _ _ => cases htext
  | index h1 h9 _ _ =>
    cases htext
    exact absurd h9 (by decide)
  | octal h1 h9 _ _ _ _ =>
    cases htext
    exact absurd h9 (by decide)
  | character _ _ _ hread =>
    cases htext
    rw [hvalue] at hread
    cases hread
    rfl

theorem Leaf.escaped {innerClass : List Char → Except Fault (Node × List Char)} {n : Node}
    {repeats : Bool} {r rest : List Char} (h : Leaf setting innerClass ('\\' :: r) n repeats rest)
    (hb : r.head? ≠ some 'b') (hB : r.head? ≠ some 'B') :
    repeats = true ∧ Pattern.escaped setting r = .ok (n, rest) := by
  generalize htext : '\\' :: r = text at h
  cases h with
  | edge e =>
    cases e with
    | word negate => cases negate <;> cases htext <;> simp at hb hB
    | _ => cases htext
  | any | charClass _ => cases htext
  | escape _ _ hread =>
    cases htext
    exact ⟨rfl, hread⟩
  | plain h =>
    cases htext
    exact absurd h.unmarked (by decide)

theorem Finishes.trail {m : Nat} {rest : List Char}
    (h : Finishes flags labels limit ⟨opened, some true, v⟩ ls)
    (htrail : trailSurrogate? v = some (m, rest)) :
    Finishes flags labels limit ⟨opened, some true, rest⟩ ls := by
  obtain ⟨tail, rfl, hhex, hm, -⟩ := trailSurrogate?_eq_some.1 htrail
  have helement := h.element (.cons (by decide) _)
  obtain ⟨n, repeats, rest', hleaf, hrun⟩ := helement.leaf (by decide)
  obtain ⟨rfl, hread⟩ := hleaf.escaped (by simp) (by simp)
  rw [escaped_trail hhex hm hread] at hrun
  exact hrun

/-! ## Escapes -/

/-- Without `u` and `v` something is read after every backslash. -/
theorem exists_escape {c : Char} {t : List Char}
    (hlenient : (settingFor flags labels).strict = false)
    (hk : c = 'k' → (settingFor flags labels).named = false)
    (hset : shorthand? (settingFor flags labels) (c :: t) = .ok (none, c :: t)) :
    ∃ n rest, Escape (settingFor flags labels) (c :: t) n rest ∧ n.Throughout (Sound labels) ∧
      (TakesLetters t rest ∨ c = 'c' ∧ rest = c :: t) := by
  by_cases h19 : '1' ≤ c ∧ c ≤ '9'
  · have hdigit := isDigit_of_le h19.1 h19.2
    obtain ⟨k, after, hdecimal⟩ := exists_decimal? hdigit t
    by_cases hle : k ≤ labels.length
    · refine ⟨_, after, .index h19.1 h19.2 hdecimal hle, ?_, .inl ?_⟩
      · refine throughout_iff.2 ⟨⟨?_, nofun, rfl⟩, by simp [children]⟩
        rintro _ ⟨⟩
        exact hle
      · obtain ⟨-, -, rfl⟩ := decimal?_eq_some.1 hdecimal
        rw [List.dropWhile_cons_of_pos hdigit]
        exact ⟨_, List.takeWhile_append_dropWhile.symm, fun d hd =>
          isAlphanum_of_isDigit (List.mem_takeWhile_imp hd)⟩
    · exact ⟨_, _, .octal h19.1 h19.2 hdecimal (Nat.lt_of_not_le hle) hlenient rfl,
        sound_character _, .inl (takesLetters_octalOrSelf c t)⟩
  · obtain ⟨value, rest, hvalue, htakes⟩ := characterEscape_lenient hlenient hk t
    refine ⟨_, rest, .character h19 (fun hc => ?_) hset hvalue, sound_character _, htakes⟩
    rw [hlenient, hk hc]
    rfl

/-- Without `u` and `v` an escape that is no set and no name is a character with some letters and
digits after it, or the backslash alone. -/
theorem Escape.takes {c : Char} {r rest : List Char} {n : Node}
    (h : Escape setting (c :: r) n rest) (hlenient : setting.strict = false)
    (hset : ∀ set, n ≠ .shorthand set) (hname : ∀ name, n ≠ .backreference (.name name)) :
    shorthand? setting (c :: r) = .ok (none, c :: r) ∧ (c = 'k' → setting.named = false) ∧
      (TakesLetters r rest ∨ c = 'c' ∧ rest = c :: r) := by
  have hnumber (h1 : '1' ≤ c) (h9 : c ≤ '9') : shorthand? setting (c :: r) = .ok (none, c :: r) ∧
      (c = 'k' → setting.named = false) := by
    refine ⟨shorthand?_digit (isDigit_of_le h1 h9) r, ?_⟩
    rintro rfl
    exact absurd h9 (by decide)
  cases h with
  | shorthand _ => exact absurd rfl (hset _)
  | name _ _ => exact absurd rfl (hname _)
  | index h1 h9 hdecimal _ =>
    obtain ⟨-, -, rfl⟩ := decimal?_eq_some.1 hdecimal
    rw [List.dropWhile_cons_of_pos (isDigit_of_le h1 h9)]
    refine ⟨(hnumber h1 h9).1, (hnumber h1 h9).2, .inl ?_⟩
    exact ⟨_, List.takeWhile_append_dropWhile.symm, fun d hd =>
      isAlphanum_of_isDigit (List.mem_takeWhile_imp hd)⟩
  | octal h1 h9 _ _ _ hoctal =>
    refine ⟨(hnumber h1 h9).1, (hnumber h1 h9).2, .inl ?_⟩
    have htakes := takesLetters_octalOrSelf c r
    rw [hoctal] at htakes
    exact htakes
  | character _ hk hnone hread =>
    have hk' (hc : c = 'k') : setting.named = false := (Bool.or_eq_false_iff.1 (hk hc)).2
    obtain ⟨value, rest', hread', htakes⟩ := characterEscape_lenient hlenient hk' r
    obtain ⟨-, rfl⟩ := eq_of_ok hread hread'
    exact ⟨hnone, hk', htakes⟩

/-- A backslash alone stands before a `c`. -/
theorem Escape.head?_of_lone {n : Node} (h : Escape setting v n v) : v.head? = some 'c' := by
  obtain ⟨w, htext, hquiet⟩ | ⟨tail, rfl, -⟩ := h.quiet
  · obtain rfl : w = [] := List.self_eq_append_left.1 htext
    cases hquiet with
    | char hc _ => cases hc
  · rfl

/-- Behind a lexeme, another text may stand in the place of the one that was there. -/
structure Behind (strict : Bool) (y v v' : List Char) : Prop where
  digits : strict = true → ∀ u, y = '\\' :: u → u ≠ [] → (∀ d ∈ u, d.isDigit = true) →
    v.head?.any Char.isDigit = false → v'.head?.any Char.isDigit = false
  lone : y = ['\\'] → v.head? = some 'c' → v'.head? = some 'c'
  brace : strict = false → y = ['{'] → atQuantifier ('{' :: v) = false →
    atQuantifier ('{' :: v') = false

/-- What stands at the end of `x` is not joined by what stands at the front of `w`. With `u` or `v` no
digit comes behind a backslash and digits; without them no brace of `x` starts a quantifier that ends
in `w`. -/
structure Seam (strict : Bool) (x w : List Char) : Prop where
  digits : strict = true → ∀ front digits, x = front ++ '\\' :: digits → digits ≠ [] →
    (∀ d ∈ digits, d.isDigit = true) → w.head?.any Char.isDigit = false
  braces : strict = false → ∀ front inside counts rest, x = front ++ '{' :: inside →
    braces? ('{' :: (inside ++ w)) = some (counts, rest) → w <:+ rest

namespace Seam

variable {strict : Bool} {x y w : List Char}

theorem suffix (h : Seam strict (y ++ x) w) : Seam strict x w where
  digits hstrict front digits hx := h.digits hstrict (y ++ front) digits (by rw [hx, List.append_assoc])
  braces hstrict front inside counts rest hx :=
    h.braces hstrict (y ++ front) inside counts rest (by rw [hx, List.append_assoc])

/-- Behind the first of the lexemes in `x`, the rest of `x` and then `w` may stand. -/
theorem behind (h : Seam strict (y ++ x) w) (hv : v.head? ≠ some 'c') :
    Behind strict y (x ++ v) (x ++ w) where
  digits hstrict u hy hu hdigits hstop := by
    cases x with
    | nil => exact h.digits hstrict [] u (by rw [hy, List.append_nil, List.nil_append]) hu hdigits
    | cons d x => exact hstop
  lone _ hhead := by
    cases x with
    | nil => exact absurd hhead hv
    | cons d x => exact hhead
  brace hstrict hy hnone := by
    refine Bool.eq_false_iff.2 fun hsome => ?_
    obtain ⟨⟨counts, rest⟩, hbraces⟩ := Option.isSome_iff_exists.1 hsome
    obtain ⟨r, rfl⟩ := h.braces hstrict [] x counts rest (by rw [hy]; rfl) hbraces
    have halone : Counts ('{' :: x) counts r := Counts.cut (u := w) (braces?_eq_some.1 hbraces).2
    have hold : atQuantifier ('{' :: x ++ v) = true :=
      atQuantifier_append v (atQuantifier_iff.2 ⟨counts, r, halone⟩)
    exact Bool.false_ne_true (hnone.symm.trans hold)

/-- A number ends before what is no digit. -/
theorem exists_of_count? {r w after : List Char} {c d : Char} {n : Nat} (hc : c.isDigit = false)
    (hd : d ≠ c) (h : count? (r ++ c :: w) = some (n, d :: after)) :
    ∃ r', after = r' ++ c :: w := by
  obtain ⟨⟨n', rest⟩, hdecimal, hrest⟩ := Option.map_eq_some_iff.1 h
  cases hrest
  obtain ⟨-, -, hdrop⟩ := decimal?_eq_some.1 hdecimal
  rw [List.dropWhile_append, List.dropWhile_cons_of_neg (Bool.eq_false_iff.1 hc)] at hdrop
  cases hr : r.dropWhile Char.isDigit with
  | nil =>
    rw [hr] at hdrop
    cases hdrop
    exact absurd rfl hd
  | cons e r' =>
    rw [hr] at hdrop
    cases hdrop
    exact ⟨r', rfl⟩

/-- Before anything but a digit, a comma or a closing brace every seam holds. -/
theorem of_head (strict : Bool) (x : List Char)
    (hw : ∀ c ∈ w.head?, c.isDigit = false ∧ c ≠ ',' ∧ c ≠ '}') : Seam strict x w where
  digits _ _ _ _ _ _ := by
    cases hhead : w.head? with
    | none => rfl
    | some c => exact (hw c hhead).1
  braces _ front inside counts rest _ h := by
    cases w with
    | nil => exact List.nil_suffix
    | cons c w =>
      obtain ⟨hdigit, hcomma, hclose⟩ := hw c rfl
      cases (braces?_eq_some.1 h).2 with
      | exactly hread =>
        obtain ⟨r, hr⟩ := exists_of_count? hdigit hclose.symm hread
        exact ⟨r, hr.symm⟩
      | atLeast hread =>
        obtain ⟨r, hr⟩ := exists_of_count? hdigit hcomma.symm hread
        cases r with
        | nil =>
          cases hr
          exact absurd rfl hclose
        | cons d r =>
          cases hr
          exact ⟨r, rfl⟩
      | between hleast hmost =>
        obtain ⟨r, rfl⟩ := exists_of_count? hdigit hcomma.symm hleast
        obtain ⟨r, hr⟩ := exists_of_count? hdigit hclose.symm hmost
        exact ⟨r, hr.symm⟩

theorem of_atEnd (strict : Bool) (x : List Char) (h : AtEnd w) : Seam strict x w := by
  refine .of_head _ _ fun c hc => ?_
  obtain rfl | ⟨rest, rfl | rfl⟩ := h
  · cases hc
  · cases hc
    exact ⟨rfl, by decide, by decide⟩
  · cases hc
    exact ⟨rfl, by decide, by decide⟩

end Seam

section
variable {u v' : List Char} {n : Node} (hwithin : (settingFor flags labels).Within setting)

include hwithin

/-- Without `u` and `v` an escape before another text may end elsewhere, among letters and digits. -/
theorem Escape.joined_lenient (h : Escape setting (u ++ v) n v) (hlenient : setting.strict = false)
    (hset : ∀ set, n ≠ .shorthand set) (hname : ∀ name, n ≠ .backreference (.name name))
    (hlone : u = [] → v.head? = some 'c' → v'.head? = some 'c')
    (hrun : Finishes flags labels limit ⟨opened, some true, v'⟩ ls) :
    ∃ n' rest, Escape (settingFor flags labels) (u ++ v') n' rest ∧
      n'.Throughout (Sound labels) ∧ Finishes flags labels limit ⟨opened, some true, rest⟩ ls := by
  have hlenient' := hwithin.strict.trans hlenient
  cases u with
  | nil =>
    -- the backslash stands alone before a `c`
    obtain ⟨c, r, rfl⟩ : ∃ c r, v = c :: r := by
      cases v with
      | nil =>
        cases h
        exact absurd rfl (hset _)
      | cons c r => exact ⟨c, r, rfl⟩
    obtain ⟨-, -, ⟨w, htext, -⟩ | ⟨rfl, -⟩⟩ := h.takes hlenient hset hname
    · have hlength := congrArg List.length htext
      simp only [List.length_append, List.length_cons] at hlength
      omega
    · obtain ⟨t, rfl⟩ := List.head?_eq_some_iff.1 (hlone rfl rfl)
      have hnone : shorthand? (settingFor flags labels) ('c' :: t) = .ok (none, 'c' :: t) :=
        if_neg fun h => absurd (Bool.and_eq_true_iff.1 h).2 (by decide)
      obtain ⟨n', rest, hescape, hn', htakes | ⟨-, rfl⟩⟩ :=
        exists_escape hlenient' (fun hc => absurd hc (by decide)) hnone
      · have hdropped : Finishes flags labels limit ⟨opened, some true, t⟩ ls :=
          hrun.drop (w := ['c']) (List.forall_mem_singleton.2 (by decide))
        exact ⟨n', rest, hescape, hn', hdropped.letters (w := []) (by simp) htakes⟩
      · exact ⟨n', _, hescape, hn', hrun⟩
  | cons c u =>
    rw [List.cons_append] at h ⊢
    obtain ⟨hnone, hk, htakes⟩ := h.takes hlenient hset hname
    have hu : ∀ d ∈ u, d.isAlphanum = true := by
      obtain ⟨w, htext, hw⟩ | ⟨-, htext⟩ := htakes
      · rwa [List.append_cancel_right htext]
      · have hlength := congrArg List.length htext
        simp only [List.length_append, List.length_cons] at hlength
        omega
    obtain ⟨n', rest, hescape, hn', htakes' | ⟨rfl, rfl⟩⟩ := exists_escape (t := u ++ v') hlenient'
      (fun hc => hwithin.unnamed (hk hc)) (shorthand?_none_joined hwithin.narrows _ hnone)
    · exact ⟨n', rest, hescape, hn', hrun.letters hu htakes'⟩
    · refine ⟨n', _, hescape, hn', hrun.push (w := 'c' :: u) ?_⟩
      exact List.forall_mem_cons.2 ⟨by decide, hu⟩

theorem Escape.joined (h : Escape setting (u ++ v) n v) (hn : n.Throughout (Sound labels))
    (hdigits : setting.strict = true → u ≠ [] → (∀ d ∈ u, d.isDigit = true) →
      v.head?.any Char.isDigit = false → v'.head?.any Char.isDigit = false)
    (hlone : u = [] → v.head? = some 'c' → v'.head? = some 'c')
    (hrun : Finishes flags labels limit ⟨opened, some true, v'⟩ ls) :
    ∃ n' rest, Escape (settingFor flags labels) (u ++ v') n' rest ∧
      n'.Throughout (Sound labels) ∧ Finishes flags labels limit ⟨opened, some true, rest⟩ ls := by
  have hlenient (hstrict : setting.strict = false) (hset : ∀ set, n ≠ .shorthand set)
      (hname : ∀ name, n ≠ .backreference (.name name)) :=
    h.joined_lenient hwithin hstrict hset hname hlone hrun
  generalize htext : u ++ v = text at h
  cases h with
  | shorthand hread =>
    subst htext
    exact ⟨_, v', .shorthand (shorthand?_joined (r := []) hwithin.narrows v' hread), hn, hrun⟩
  | name hk hname =>
    rename_i name
    obtain rfl : u = 'k' :: '<' :: (name ++ ['>']) :=
      (List.append_left_inj v).1 (htext.trans (by simp))
    have hknown := (hn _ .self).name name rfl
    have hnamed : (settingFor flags labels).named = true :=
      List.any_eq_true.2 ⟨_, hknown, rfl⟩
    refine ⟨_, v', ?_, hn, hrun⟩
    rw [List.cons_append, List.cons_append, List.append_assoc]
    exact .name (by rw [hnamed, Bool.or_true]) hname
  | index h1 h9 hdecimal hle =>
    rename_i c r k
    cases hstrict : setting.strict with
    | false => exact hlenient hstrict nofun nofun
    | true =>
      obtain ⟨w, hw, hwdigits⟩ := decimal?_quiet hdecimal
      obtain rfl : u = w := List.append_cancel_right (htext.trans hw)
      have hstop := decimal?_stop hdecimal
      obtain ⟨u, rfl⟩ : ∃ t, u = c :: t := by
        cases u with
        | nil =>
          obtain rfl : v = c :: r := htext
          exact absurd (isDigit_of_le h1 h9) (Bool.eq_false_iff.1 hstop)
        | cons d u =>
          cases htext
          exact ⟨u, rfl⟩
      rw [← htext] at hdecimal
      have hdecimal' := decimal?_joined hdecimal (hdigits hstrict (by simp) hwdigits hstop)
      exact ⟨_, v', .index h1 h9 hdecimal' ((hn _ .self).index k rfl), hn, hrun⟩
  | octal _ _ _ _ hstrict _ => exact hlenient hstrict nofun nofun
  | character h19 hk hnone hread =>
    rename_i c r value
    cases hstrict : setting.strict with
    | false => exact hlenient hstrict nofun nofun
    | true =>
      obtain ⟨u, rfl⟩ : ∃ t, u = c :: t := by
        cases u with
        | nil =>
          obtain rfl : v = c :: r := htext
          exact absurd (characterEscape_lt hstrict hread) (Nat.lt_irrefl _)
        | cons d u =>
          cases htext
          exact ⟨u, rfl⟩
      cases htext
      have hstrict' : (settingFor flags labels).strict = true := hwithin.strict.trans hstrict
      have hescape {value' : Nat} {rest : List Char}
          (hread' : characterEscape (settingFor flags labels) false (c :: (u ++ v')) =
            .ok (value', rest)) : Escape (settingFor flags labels) (c :: (u ++ v'))
          (.character ⟨value', '\\' :: textBefore (c :: (u ++ v')) rest⟩) rest := by
        refine .character h19 (fun hc => ?_) (shorthand?_none_joined hwithin.narrows _ hnone) hread'
        have := hk hc
        rw [hstrict] at this
        cases this
      have hzero (hu : c :: u = ['0']) : v'.head?.any Char.isDigit = false := by
        cases hu
        refine hdigits hstrict (by simp) (by simp) (Bool.eq_false_iff.2 fun hdigit => ?_)
        have hfault : characterEscape setting false ('0' :: v) = .error ⟨.invalidEscape, '0' :: v⟩ := by
          simp [characterEscape, hdigit, hstrict]
        cases hfault.symm.trans hread
      obtain hread' | ⟨value', m, rest, htrail, hread'⟩ :=
        characterEscape_joined (x := c :: u) hwithin hstrict hread hzero
      · exact ⟨_, v', hescape hread', sound_character _, hrun⟩
      · exact ⟨_, rest, hescape hread', sound_character _, hrun.trail htrail⟩

/-! ## Leaves -/

theorem Leaf.joined {y : List Char} {repeats : Bool} {depth depth' : Nat} (hdepth : depth ≤ depth')
    (h : Leaf setting (Class.nested setting depth) (y ++ v) n repeats v)
    (hn : n.Throughout (Sound labels)) (hbehind : Behind setting.strict y v v')
    (hrun : Finishes flags labels limit ⟨opened, some repeats, v'⟩ ls) :
    ∃ n' rest,
      Leaf (settingFor flags labels) (Class.nested (settingFor flags labels) depth') (y ++ v') n'
          repeats rest ∧
        n'.Throughout (Sound labels) ∧
          Finishes flags labels limit ⟨opened, some repeats, rest⟩ ls := by
  generalize htext : y ++ v = text at h
  cases h with
  | edge e =>
    obtain rfl := List.append_cancel_right htext
    exact ⟨_, v', .edge e v', hn, hrun⟩
  | any =>
    obtain rfl : y = ['.'] := (List.append_left_inj v).1 htext
    exact ⟨_, v', .any v', hn, hrun⟩
  | charClass hread =>
    have hclass : ∃ w, y = '[' :: w ∧ (if (settingFor flags labels).flags.unicodeSets
        then Class.nested (settingFor flags labels) depth' (w ++ v')
        else Class.listed (settingFor flags labels) (w ++ v')) = .ok (n, v') := by
      rw [hwithin.flags]
      split at hread
      · rename_i hsets
        obtain ⟨w, rfl, hagrees⟩ := Class.nested_agrees hwithin.narrows hdepth hread
        refine ⟨w, (List.append_left_inj v).1 htext, ?_⟩
        rw [if_pos hsets]
        exact hagrees v'
      · rename_i hsets
        obtain ⟨w, rfl, hagrees⟩ := Class.listed_agrees hwithin.narrows hread
        refine ⟨w, (List.append_left_inj v).1 htext, ?_⟩
        rw [if_neg hsets]
        exact hagrees v'
    obtain ⟨w, rfl, hread'⟩ := hclass
    exact ⟨n, v', .charClass hread', hn, hrun⟩
  | escape hb hB hread =>
    rename_i r
    obtain ⟨u, rfl, rfl⟩ := exists_cons_of_suffix (r := []) htext (suffix_escaped hread)
    have hescape := escaped_iff.1 hread
    have hlone (hu : u = []) : v.head? = some 'c' → v'.head? = some 'c' :=
      hbehind.lone (by rw [hu])
    obtain ⟨n', rest, hescape', hn', hrun'⟩ := hescape.joined hwithin hn
      (fun hstrict => hbehind.digits hstrict u rfl) hlone hrun
    have hhead : (u ++ v').head? = (u ++ v).head? := by
      cases u with
      | nil => exact (hlone rfl hescape.head?_of_lone).trans hescape.head?_of_lone.symm
      | cons c u => rfl
    rw [← hhead] at hb hB
    exact ⟨n', rest, .escape hb hB (escaped_iff.2 hescape'), hn', hrun'⟩
  | plain hplain =>
    rename_i c
    obtain rfl : y = [c] := (List.append_left_inj v).1 htext
    have hplain' : IsPlain (settingFor flags labels) c v' := by
      refine ⟨hplain.unmarked, ?_, fun hstrict => hplain.bracket (hwithin.strict ▸ hstrict)⟩
      by_cases hc : c = '{'
      · subst hc
        have hlenient : setting.strict = false :=
          Bool.eq_false_iff.2 fun hstrict => hplain.bracket hstrict (by simp)
        exact hbehind.brace hlenient rfl hplain.unrepeated
      · refine atQuantifier_cons ?_ v'
        rintro hmark
        simp only [List.mem_cons, List.not_mem_nil, or_false] at hmark
        obtain rfl | rfl | rfl | rfl := hmark
        · cases hplain.unrepeated
        · cases hplain.unrepeated
        · cases hplain.unrepeated
        · exact hc rfl
    exact ⟨_, v', .plain hplain', sound_character _, hrun⟩

/-! ## Runs -/

section
variable {limit' : Nat} {base : List Bool} {σ τ : State} {ms : List (Option (List Char))}
  (hlimit : limit + base.length ≤ limit')

include hlimit

theorem Step.joined {y : List Char} (h : Step setting limit (Sound labels) σ ls τ)
    (htext : σ.rest = y ++ τ.rest) (hbehind : Behind setting.strict y τ.rest v')
    (hrun : Finishes flags labels limit' ⟨τ.opened ++ base, τ.pending, v'⟩ ms) :
    Finishes flags labels limit' ⟨σ.opened ++ base, σ.pending, y ++ v'⟩ (ls ++ ms) := by
  cases h with
  | bar =>
    rename_i opened r
    obtain rfl : ['|'] = y := (List.append_left_inj r).1 htext
    exact .step .bar hrun
  | leaf hend hleaf hn =>
    rename_i opened text rest n repeats
    obtain rfl : text = y ++ rest := htext
    obtain ⟨c, tail, hcons, hsuffix⟩ := hleaf.tail
    obtain ⟨y, rfl, rfl⟩ := exists_cons_of_suffix (r := []) hcons hsuffix
    have hdepth : limit - opened.length ≤ limit' - (opened ++ base).length := by
      rw [List.length_append]
      omega
    obtain ⟨n', rest', hleaf', hn', hrun'⟩ := hleaf.joined hwithin hdepth hn hbehind hrun
    have hend' : ¬ AtEnd (c :: y ++ v') := by
      rintro (h | ⟨_, h | h⟩)
      · cases h
      · cases h
        exact hend (.inr ⟨_, .inl rfl⟩)
      · cases h
        exact hend (.inr ⟨_, .inr rfl⟩)
    exact .step (.leaf hend' hleaf' hn') hrun'
  | opening hfits hopened =>
    rename_i opened o r
    obtain rfl : o.text = y := (List.append_left_inj r).1 htext
    have hfits' : o.Fits v' := by
      cases o with
      | capture name =>
        cases name with
        | none => exact hrun.unrepeated.head_ne
        | some name => exact hfits
      | _ => trivial
    have hrepeats : o.repeats (settingFor flags labels) = o.repeats setting := by
      cases o with
      | look direction negate => rw [Opening.repeats, Opening.repeats, hwithin.strict]
      | _ => rfl
    have hopened' : (opened ++ base).length < limit' := by
      rw [List.length_append]
      omega
    refine .step (.opening hfits' hopened') ?_
    rw [hrepeats]
    exact hrun
  | closing =>
    rename_i opened repeats r
    obtain rfl : [')'] = y := (List.append_left_inj r).1 htext
    exact .step .closing hrun
  | passing hpasses =>
    rename_i opened repeats text rest
    cases hpasses with
    | repeatable _ | unrepeatable _ =>
      obtain rfl : y = [] := List.self_eq_append_left.1 htext
      exact hrun.later _
    | repeated hread =>
      obtain rfl : text = y ++ rest := htext
      exact .step (.passing (.repeated (quantifier?_joined hread hrun.unrepeated.head_ne))) hrun

/-- The steps along the beginning of a text are taken again where another text stands behind it. -/
theorem Run.joined {x w : List Char} (h : Run setting limit (Sound labels) σ ls τ)
    (htext : σ.rest = x ++ τ.rest) (hseam : Seam setting.strict x w) (hc : τ.rest.head? ≠ some 'c')
    (hrun : Finishes flags labels limit' ⟨τ.opened ++ base, τ.pending, w⟩ ms) :
    Finishes flags labels limit' ⟨σ.opened ++ base, σ.pending, x ++ w⟩ (ls ++ ms) := by
  induction h generalizing x with
  | refl =>
    obtain rfl : x = [] := List.self_eq_append_left.1 htext
    exact hrun
  | step hstep hsteps ih =>
    obtain ⟨y, hy⟩ := hstep.suffix
    obtain ⟨x', hx'⟩ := hsteps.suffix
    obtain rfl : x = y ++ x' := by
      rw [← hy, ← hx', ← List.append_assoc] at htext
      exact (List.append_cancel_right htext).symm
    rw [List.append_assoc, List.append_assoc]
    refine hstep.joined hwithin hlimit hy.symm ?_ (ih hx'.symm hseam.suffix hc hrun)
    rw [← hx']
    exact hseam.behind hc

end

end

end Pattern

end RegexAudit
