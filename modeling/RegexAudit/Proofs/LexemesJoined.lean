import RegexAudit.Proofs.Fences
import RegexAudit.Proofs.Scans
import RegexAudit.Proofs.Spelling

/-!
# Lexemes before other texts

What a lexeme is read as can depend on the text after it: `\x4` is an escape of `x` before a bracket,
and the beginning of another escape before a digit. When the text after a lexeme is replaced, these
things can happen:

- Before a fence nothing changes, whatever is behind it (`characterEscape_fence`,
  `quantifier?_fence`). Fences are the bracket at the end of a class, bars and parentheses, and the
  end of the source.
- Without `u` and `v` an escape is read in any case. It may take some letters and digits that were
  read on their own before, or leave some (`characterEscape_lenient`).
- With `u` or `v` an escape stays what it is, unless digits come to stand behind digits; but the
  first half of a pair of surrogates may find its second half (`characterEscape_joined`).
- Numbers end before anything but a digit (`decimal?_joined`), and quantifiers before anything but a
  question mark (`quantifier?_joined`).
-/

namespace RegexAudit

/-- The flags are those of the other setting, and there are no groups but those. -/
structure Setting.Within (setting' setting : Setting) : Prop where
  flags : setting'.flags = setting.flags
  groups : setting'.groups ≤ setting.groups
  named : setting'.named = true → setting.named = true

namespace Setting.Within

variable {setting' setting : Setting}

theorem refl (setting : Setting) : setting.Within setting := ⟨rfl, Nat.le_refl _, id⟩

theorem strict (h : setting'.Within setting) : setting'.strict = setting.strict := by
  rw [Setting.strict, h.flags]
  rfl

theorem unnamed (h : setting'.Within setting) (hnamed : setting.named = false) :
    setting'.named = false := by
  cases hnamed' : setting'.named with
  | false => rfl
  | true =>
    rw [h.named hnamed'] at hnamed
    cases hnamed

theorem narrows (h : setting'.Within setting) : setting'.Narrows setting :=
  ⟨h.strict, by rw [h.flags], h.unnamed⟩

end Setting.Within

namespace Lexeme

/-! ## Letters and digits -/

theorem isAlphanum_of_isDigit {c : Char} (h : c.isDigit = true) : c.isAlphanum = true := by
  rw [Char.isAlphanum, h, Bool.or_true]

theorem isAlphanum_of_isHexDigit {c : Char} (h : isHexDigit c = true) : c.isAlphanum = true := by
  simp only [isHexDigit, Bool.or_eq_true, Bool.and_eq_true, decide_eq_true_eq, Char.le_def,
    UInt32.le_iff_toNat_le] at h
  rcases h with (h | ⟨ha, hf⟩) | ⟨hA, hF⟩
  · exact isAlphanum_of_isDigit h
  · have hlower : c.isLower = true := by
      show (decide ('a'.val ≤ c.val) && decide (c.val ≤ 'z'.val)) = true
      simp only [Bool.and_eq_true, decide_eq_true_eq, UInt32.le_iff_toNat_le]
      exact ⟨ha, hf.trans (by decide)⟩
    show (c.isUpper || c.isLower || c.isDigit) = true
    rw [hlower, Bool.or_true, Bool.true_or]
  · have hupper : c.isUpper = true := by
      show decide ('A'.val ≤ c.val ∧ c.val ≤ 'Z'.val) = true
      simp only [decide_eq_true_eq, UInt32.le_iff_toNat_le]
      exact ⟨hA, hF.trans (by decide)⟩
    show (c.isUpper || c.isLower || c.isDigit) = true
    rw [hupper, Bool.true_or, Bool.true_or]

theorem isDigit_of_isOctalDigit {c : Char} (h : isOctalDigit c = true) : c.isDigit = true := by
  simp only [isOctalDigit, Bool.and_eq_true, decide_eq_true_eq, Char.le_def,
    UInt32.le_iff_toNat_le] at h
  simp only [Char.isDigit, Bool.and_eq_true, decide_eq_true_eq, UInt32.le_iff_toNat_le, ge_iff_le]
  exact ⟨h.1, h.2.trans (by decide)⟩

/-! ## Numbers and quantifiers -/

/-- A number is followed by no digit. -/
theorem decimal?_stop {r after : List Char} {n : Nat} (h : decimal? r = some (n, after)) :
    after.head?.any Char.isDigit = false := by
  obtain ⟨-, -, rfl⟩ := decimal?_eq_some.1 h
  have hstop := List.head?_dropWhile_not Char.isDigit r
  cases hhead : (r.dropWhile Char.isDigit).head? with
  | none => rfl
  | some c =>
    rw [hhead] at hstop
    exact hstop

theorem decimal?_joined {w v v' : List Char} {n : Nat} (h : decimal? (w ++ v) = some (n, v))
    (hv' : v'.head?.any Char.isDigit = false) : decimal? (w ++ v') = some (n, v') := by
  obtain ⟨hne, hn, hrest⟩ := decimal?_eq_some.1 (decimal?_alone (r := []) h)
  have hall : ∀ d ∈ w, d.isDigit = true := List.dropWhile_eq_nil_iff.1 hrest.symm
  have htake : w.takeWhile Char.isDigit = w := List.takeWhile_eq_self_iff.2 hall
  have hhead : v'.takeWhile Char.isDigit = [] ∧ v'.dropWhile Char.isDigit = v' := by
    cases v' with
    | nil => exact ⟨rfl, rfl⟩
    | cons c v' =>
      have hc : ¬ c.isDigit = true := Bool.eq_false_iff.1 hv'
      exact ⟨List.takeWhile_cons_of_neg hc, List.dropWhile_cons_of_neg hc⟩
  rw [htake] at hne hn
  refine decimal?_eq_some.2 ⟨?_, ?_, ?_⟩
  · rw [List.takeWhile_append_of_pos hall, hhead.1, List.append_nil]
    exact hne
  · rw [List.takeWhile_append_of_pos hall, hhead.1, List.append_nil, hn]
  · rw [List.dropWhile_append_of_pos hall, hhead.2]

/-- A lazy quantifier is written as one, a greedy one with no question mark after it. -/
theorem Quantifies.joined {w r : List Char} {read : Bounds × Bool} (h : Quantifies w read r)
    {u : List Char} (hu : r = [] → u.head? ≠ some '?') : Quantifies (w ++ u) read (r ++ u) := by
  cases h with
  | lazy hcounts hbounds => exact .lazy (hcounts.append u) hbounds
  | greedy hcounts hbounds hmark =>
    refine .greedy (hcounts.append u) hbounds fun hhead => ?_
    cases r with
    | nil => exact hu rfl hhead
    | cons c r => exact hmark hhead

theorem quantifier?_joined {setting setting' : Setting} {w v v' : List Char} {read : Bounds × Bool}
    (h : quantifier? setting (w ++ v) = .ok (some read, v)) (hv' : v'.head? ≠ some '?') :
    quantifier? setting' (w ++ v') = .ok (some read, v') :=
  have hread : Quantifies w read [] := Quantifies.cut (u := v) (quantifier?_eq_some.1 h)
  quantifier?_eq_some.2 (hread.joined fun _ => hv')

section
variable {u : List Char} (hu : Fence u)

include hu

theorem decimal?_fence (x : List Char) :
    decimal? (x ++ u) = (decimal? x).map fun (n, r) => (n, r ++ u) := by
  obtain ⟨htake, hdrop⟩ := while_fence hu (p := Char.isDigit) (by decide) x
  simp only [decimal?, htake, hdrop]
  split <;> rfl

theorem count?_fence (x : List Char) :
    count? (x ++ u) = (count? x).map fun (n, r) => (n, r ++ u) := by
  rw [count?, count?, decimal?_fence hu, Option.map_map, Option.map_map]
  rfl

/-- A count is followed by another character than a fence before the fence. -/
theorem exists_of_count? {x r : List Char} {n : Nat} {c : Char} (hc : c ∉ [']', '|', '(', ')'])
    (h : count? (x ++ u) = some (n, c :: r)) : ∃ y, count? x = some (n, c :: y) ∧ r = y ++ u := by
  rw [count?_fence hu] at h
  obtain ⟨⟨m, y⟩, hy, heq⟩ := Option.map_eq_some_iff.1 h
  obtain ⟨rfl, htext⟩ := Prod.mk.inj heq
  obtain ⟨y, rfl, rfl⟩ := hu.exists_cons hc htext
  exact ⟨y, hy, rfl⟩

/-- Counts that start before a fence end before it. -/
theorem Counts.fence {x r : List Char} {counts : Nat × Option Nat} (h : Counts (x ++ u) counts r) :
    ∃ y, Counts x counts y ∧ r = y ++ u := by
  generalize htext : x ++ u = text at h
  cases h with
  | star _ =>
    obtain ⟨y, rfl, rfl⟩ := hu.exists_cons (by decide) htext
    exact ⟨y, .star y, rfl⟩
  | plus _ =>
    obtain ⟨y, rfl, rfl⟩ := hu.exists_cons (by decide) htext
    exact ⟨y, .plus y, rfl⟩
  | optional _ =>
    obtain ⟨y, rfl, rfl⟩ := hu.exists_cons (by decide) htext
    exact ⟨y, .optional y, rfl⟩
  | exactly hread =>
    obtain ⟨x, rfl, rfl⟩ := hu.exists_cons (by decide) htext
    obtain ⟨y, hy, rfl⟩ := exists_of_count? hu (by decide) hread
    exact ⟨y, .exactly hy, rfl⟩
  | atLeast hread =>
    obtain ⟨x, rfl, rfl⟩ := hu.exists_cons (by decide) htext
    obtain ⟨y, hy, htext⟩ := exists_of_count? hu (by decide) hread
    obtain ⟨z, rfl, rfl⟩ := hu.exists_cons (by decide) htext.symm
    exact ⟨z, .atLeast hy, rfl⟩
  | between hleast hmost =>
    obtain ⟨x, rfl, rfl⟩ := hu.exists_cons (by decide) htext
    obtain ⟨y, hy, rfl⟩ := exists_of_count? hu (by decide) hleast
    obtain ⟨z, hz, rfl⟩ := exists_of_count? hu (by decide) hmost
    exact ⟨z, .between hy hz, rfl⟩

theorem atQuantifier_fence (x : List Char) : atQuantifier (x ++ u) = atQuantifier x := by
  rw [Bool.eq_iff_iff]
  refine ⟨fun h => ?_, atQuantifier_append u⟩
  obtain ⟨counts, r, hcounts⟩ := atQuantifier_iff.1 h
  obtain ⟨y, hy, -⟩ := hcounts.fence hu
  exact atQuantifier_iff.2 ⟨counts, y, hy⟩

end

/-- A quantifier, or none, before a fence is the same before every other fence. -/
theorem quantifier?_fence {setting setting' : Setting} {u u' x r : List Char}
    {read : Option (Bounds × Bool)} (hu' : Fence u') (hstrict : setting'.strict = setting.strict)
    (h : quantifier? setting (x ++ u) = .ok (read, r ++ u)) :
    quantifier? setting' (x ++ u') = .ok (read, r ++ u') := by
  have hhead {c : Char} (hc : c ∉ [']', '|', '(', ')']) {y : List Char}
      (hy : (y ++ u').head? = some c) : y.head? = some c := by
    obtain ⟨t, ht⟩ := List.head?_eq_some_iff.1 hy
    obtain ⟨y, rfl, -⟩ := hu'.exists_cons hc ht
    rfl
  have halone := quantifier?_alone h
  cases read with
  | some read =>
    refine quantifier?_eq_some.2 ((quantifier?_eq_some.1 halone).joined fun _ hmark => ?_)
    cases hhead (y := []) (by decide) hmark
  | none =>
    obtain ⟨rfl, hnone, hbrace⟩ := quantifier?_eq_none.1 halone
    refine quantifier?_eq_none.2 ⟨rfl, by rw [atQuantifier_fence hu', hnone], fun hs hmark => ?_⟩
    exact hbrace (hstrict.symm.trans hs) (hhead (by decide) hmark)

/-! ## Without `u` and `v` -/

/-- Some letters and digits are taken from the front of a text. -/
def TakesLetters (text rest : List Char) : Prop :=
  ∃ w, text = w ++ rest ∧ ∀ c ∈ w, c.isAlphanum = true

theorem TakesLetters.refl (text : List Char) : TakesLetters text text := ⟨[], rfl, by simp⟩

theorem takesLetters_octalOrSelf (c : Char) (t : List Char) :
    TakesLetters t (octalOrSelf (c :: t)).2 := by
  rw [octalOrSelf]
  split
  · rename_i hc
    have hle : 0 * 8 + digitValue c ≤ 255 := by
      have := digitValue_octal hc
      omega
    rw [octal, hc, decide_eq_true hle]
    obtain ⟨w, hw, hdigits⟩ := octal_quiet 2 (0 * 8 + digitValue c) t
    exact ⟨w, hw, fun d hd => isAlphanum_of_isDigit (isDigit_of_isOctalDigit (hdigits d hd))⟩
  · exact .refl t

theorem takesLetters_hex? {k : Nat} {t rest : List Char} {n : Nat}
    (h : hex? k t = some (n, rest)) : TakesLetters t rest := by
  obtain ⟨w, hw, -, hdigits, -⟩ := hex?_eq_some.1 h
  exact ⟨w, hw, fun d hd => isAlphanum_of_isHexDigit (hdigits d hd)⟩

section
variable {setting setting' : Setting} {c : Char} {t : List Char}

/-- Without `u` and `v` every character can be escaped. Letters and digits after it may belong to the
escape, or it is a backslash alone before a `c`. -/
theorem characterEscape_lenient (hlenient : setting.strict = false)
    (hk : c = 'k' → setting.named = false) (t : List Char) :
    ∃ n rest, characterEscape setting false (c :: t) = .ok (n, rest) ∧
      (TakesLetters t rest ∨ c = 'c' ∧ rest = c :: t) := by
  simp only [characterEscape_iff]
  have hnot : setting.strict ≠ true := Bool.eq_false_iff.1 hlenient
  by_cases hmeaning : c ∈ ['t', 'n', 'v', 'f', 'r', 'c', 'x', 'u']
  · have hcontrol {c : Char} {n : Nat} (hn : (c, n) ∈ controls) :
        ∃ n rest, CharacterEscape setting false (c :: t) n rest ∧
          (TakesLetters t rest ∨ c = 'c' ∧ rest = c :: t) := ⟨n, t, .control hn, .inl (.refl t)⟩
    simp only [List.mem_cons, List.not_mem_nil, or_false] at hmeaning
    rcases hmeaning with rfl | rfl | rfl | rfl | rfl | rfl | rfl | rfl
    · exact hcontrol (n := 0x09) (by decide)
    · exact hcontrol (n := 0x0A) (by decide)
    · exact hcontrol (n := 0x0B) (by decide)
    · exact hcontrol (n := 0x0C) (by decide)
    · exact hcontrol (n := 0x0D) (by decide)
    · cases hletter : t.head?.any (isControlLetter setting false) with
      | true =>
        cases t with
        | nil => cases hletter
        | cons l t =>
          have hl : isControlLetter setting false l = true := hletter
          refine ⟨_, t, .letter hl, .inl ⟨[l], rfl, ?_⟩⟩
          simp only [isControlLetter, Bool.false_and, Bool.or_false] at hl
          simp [Char.isAlphanum, hl]
      | false => exact ⟨_, _, .backslash hlenient hletter, .inr ⟨rfl, rfl⟩⟩
    · cases hhex : hex? 2 t with
      | none => exact ⟨_, t, .plainHex hlenient hhex, .inl (.refl t)⟩
      | some read => exact ⟨_, _, .hex hhex, .inl (takesLetters_hex? hhex)⟩
    · cases hhex : hex? 4 t with
      | none => exact ⟨_, t, .unicode (.self hlenient hhex), .inl (.refl t)⟩
      | some read =>
        exact ⟨_, _, .unicode (.single hhex fun hstrict => absurd hstrict hnot),
          .inl (takesLetters_hex? hhex)⟩
  · cases hdigit : c.isDigit with
    | false =>
      have hself : IsEscaped setting false c :=
        ⟨hmeaning, hdigit, by simp, fun hstrict => absurd hstrict hnot, fun _ => hk⟩
      exact ⟨_, t, .self hself, .inl (.refl t)⟩
    | true =>
      by_cases hzero : c = '0' ∧ t.head?.any Char.isDigit = false
      · obtain ⟨rfl, hnext⟩ := hzero
        exact ⟨_, t, .zero hnext, .inl (.refl t)⟩
      · refine ⟨_, _, .octal hlenient hdigit (fun hc => ?_) rfl, .inl (takesLetters_octalOrSelf c t)⟩
        exact Bool.eq_true_of_not_eq_false fun hnext => hzero ⟨hc, hnext⟩

/-! ## With `u` and `v` -/

/-- The first half of a pair may find its second half in what comes to stand behind it. -/
theorem UnicodeEscape.joined {x : List Char} {n : Nat} (h : UnicodeEscape true x n [])
    (v' : List Char) : UnicodeEscape true (x ++ v') n v' ∨ ∃ n' m rest,
      trailSurrogate? v' = some (m, rest) ∧ UnicodeEscape true (x ++ v') n' rest := by
  cases h with
  | braced hstrict hcode => exact .inl (.braced hstrict (bracedCode?_append v' hcode))
  | pair hstrict hhex hlow hhigh htrail =>
    exact .inl (.pair hstrict (hex?_append v' hhex) hlow hhigh (trailSurrogate?_append v' htrail))
  | single hhex _ =>
    have hhex := hex?_append v' hhex
    by_cases hlead : 0xD800 ≤ n ∧ n ≤ 0xDBFF
    · cases htrail : trailSurrogate? v' with
      | none => exact .inl (.single hhex fun _ _ _ => htrail)
      | some read =>
        exact .inr ⟨_, read.1, read.2, rfl, .pair rfl hhex hlead.1 hlead.2 htrail⟩
    · exact .inl (.single hhex fun _ hlow hhigh => absurd ⟨hlow, hhigh⟩ hlead)
  | self hlenient _ => cases hlenient

/-- With `u` or `v` an escape stays what it is, unless a digit comes to stand behind a zero, or it is
the first half of a pair. -/
theorem characterEscape_joined {x v v' : List Char} {n : Nat} (hwithin : setting'.Within setting)
    (hstrict : setting.strict = true) (h : characterEscape setting false (x ++ v) = .ok (n, v))
    (hzero : x = ['0'] → v'.head?.any Char.isDigit = false) :
    characterEscape setting' false (x ++ v') = .ok (n, v') ∨ ∃ n' m rest,
      trailSurrogate? v' = some (m, rest) ∧
        characterEscape setting' false (x ++ v') = .ok (n', rest) := by
  have hx : x ≠ [] := by
    rintro rfl
    exact Nat.lt_irrefl _ (characterEscape_lt hstrict h)
  obtain ⟨c, x, rfl⟩ := List.exists_cons_of_ne_nil hx
  have hstrict' : setting'.strict = true := hwithin.strict.trans hstrict
  have hnot : setting'.strict ≠ false := Bool.ne_false_iff.2 hstrict'
  have hcut := (CharacterEscape.cut (r := []) (characterEscape_iff.1 h)).narrow hwithin.narrows
  simp only [characterEscape_iff]
  generalize hrest : ([] : List Char) = rest at hcut
  cases hcut with
  | control hm => exact .inl (hrest ▸ .control hm)
  | letter hletter => exact .inl (hrest ▸ .letter hletter)
  | backslash hlenient _ | plainHex hlenient _ | octal hlenient _ _ _ => exact absurd hlenient hnot
  | hex hhex =>
    subst hrest
    exact .inl (.hex (hex?_append v' hhex))
  | unicode hcode =>
    subst hrest
    rw [hstrict'] at hcode
    obtain hcode | ⟨n', m, rest, htrail, hcode⟩ := hcode.joined v'
    · exact .inl (.unicode (hstrict' ▸ hcode))
    · exact .inr ⟨n', m, rest, htrail, .unicode (hstrict' ▸ hcode)⟩
  | zero _ =>
    subst hrest
    exact .inl (.zero (hzero rfl))
  | backspace hclass => cases hclass
  | self hc => exact .inl (hrest ▸ .self hc)

end

end Lexeme

end RegexAudit
