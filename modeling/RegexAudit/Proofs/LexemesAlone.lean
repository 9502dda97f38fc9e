import RegexAudit.Proofs.Escapes

/-!
# Lexemes read alone

What a reader reads is told by the text it takes: cut off what comes after it, and the same is read
again. Each lemma has the form

    reader (w ++ u) = (a, r ++ u) → reader w = (a, r)

for a text `w`, of which `r` is left, and a text `u` that the reader does not touch. Readers that
look further than they read have it too: what they see in `u` only keeps them from going on.

A part of a pattern is read alone without knowledge of the groups around it. Then no escape is a
reference, so this is for what was read without one.
-/

namespace RegexAudit

/-- The setting of a part of a pattern that stands alone. -/
def Setting.alone (setting : Setting) : Setting :=
  ⟨{ unicode := setting.flags.unicode, unicodeSets := setting.flags.unicodeSets }, 0, false⟩

@[simp] theorem Setting.strict_alone (setting : Setting) : setting.alone.strict = setting.strict :=
  rfl

@[simp] theorem Setting.unicodeSets_alone (setting : Setting) :
    setting.alone.flags.unicodeSets = setting.flags.unicodeSets := rfl

/-- What can be escaped with the setting can be escaped with the other: the modes are the same, and
no group has a name if none had one. -/
structure Setting.Narrows (setting' setting : Setting) : Prop where
  strict : setting'.strict = setting.strict
  unicodeSets : setting'.flags.unicodeSets = setting.flags.unicodeSets
  unnamed : setting.named = false → setting'.named = false

theorem Setting.narrows_alone (setting : Setting) : setting.alone.Narrows setting :=
  ⟨rfl, rfl, fun _ => rfl⟩

/-! ## Cutting texts -/

theorem exists_of_suffix {r u text : List Char} (h : r ++ u <:+ text) : ∃ w, text = w ++ u := by
  obtain ⟨front, rfl⟩ := h
  exact ⟨front ++ r, (List.append_assoc _ _ _).symm⟩

/-- The text that was read is longer than what has to be left, so its first character is among those
that are taken. -/
theorem exists_cons_of_suffix {c : Char} {w u r after : List Char} (h : w ++ u = c :: after)
    (hsuffix : r ++ u <:+ after) : ∃ w', w = c :: w' ∧ after = w' ++ u := by
  obtain ⟨w', rfl⟩ := exists_of_suffix hsuffix
  exact ⟨w', List.append_cancel_right (by rw [h, List.cons_append]), rfl⟩

/-- What is left of a text cannot be longer than the text. -/
theorem not_suffix_cons {r u : List Char} {c : Char} {text : List Char} (h : text <:+ u) :
    text ≠ r ++ c :: u := by
  rintro rfl
  have := h.length_le
  simp at this
  omega

theorem while_alone {p : Char → Bool} {w u r : List Char} (h : (w ++ u).dropWhile p = r ++ u) :
    (w ++ u).takeWhile p = w.takeWhile p ∧ w.dropWhile p = r := by
  induction w with
  | nil =>
    have hlength := congrArg List.length (List.takeWhile_append_dropWhile (p := p) (l := u))
    rw [List.nil_append] at h
    rw [List.length_append, h, List.length_append] at hlength
    have hr : r.length = 0 := by omega
    have htake : (u.takeWhile p).length = 0 := by omega
    rw [List.length_eq_zero_iff] at hr htake
    rw [List.nil_append, htake, hr]
    exact ⟨rfl, rfl⟩
  | cons c w ih =>
    rw [List.cons_append] at h ⊢
    cases hc : p c with
    | true =>
      rw [List.dropWhile_cons_of_pos hc] at h ⊢
      rw [List.takeWhile_cons_of_pos hc, List.takeWhile_cons_of_pos hc, (ih h).1]
      exact ⟨rfl, (ih h).2⟩
    | false =>
      have hc : ¬ p c = true := by simp [hc]
      rw [List.dropWhile_cons_of_neg hc, ← List.cons_append] at h
      rw [List.dropWhile_cons_of_neg hc, List.takeWhile_cons_of_neg hc,
        List.takeWhile_cons_of_neg hc]
      exact ⟨rfl, List.append_cancel_right h⟩

/-- A loop that stops within a text stops there however the text goes on. -/
theorem while_append {p : Char → Bool} {w r : List Char} {c : Char} (u : List Char)
    (h : w.dropWhile p = c :: r) :
    (w ++ u).takeWhile p = w.takeWhile p ∧ (w ++ u).dropWhile p = c :: r ++ u := by
  induction w with
  | nil => cases h
  | cons d w ih =>
    rw [List.cons_append]
    cases hd : p d with
    | true =>
      rw [List.dropWhile_cons_of_pos hd] at h ⊢
      rw [List.takeWhile_cons_of_pos hd, List.takeWhile_cons_of_pos hd, (ih h).1]
      exact ⟨rfl, (ih h).2⟩
    | false =>
      have hd : ¬ p d = true := by simp [hd]
      rw [List.dropWhile_cons_of_neg hd] at h ⊢
      rw [List.takeWhile_cons_of_neg hd, List.takeWhile_cons_of_neg hd, ← h]
      exact ⟨rfl, rfl⟩

namespace Lexeme

/-! ## Numbers -/

theorem decimal?_alone {w u r : List Char} {n : Nat} (h : decimal? (w ++ u) = some (n, r ++ u)) :
    decimal? w = some (n, r) := by
  obtain ⟨hne, hn, hafter⟩ := decimal?_eq_some.1 h
  obtain ⟨htake, hdrop⟩ := while_alone hafter.symm
  rw [htake] at hne hn
  exact decimal?_eq_some.2 ⟨hne, hn, hdrop.symm⟩

/-- A number that stops at some character stops there in a longer text too. -/
theorem decimal?_append {w r : List Char} {c : Char} {n : Nat} (u : List Char)
    (h : decimal? w = some (n, c :: r)) : decimal? (w ++ u) = some (n, c :: r ++ u) := by
  obtain ⟨hne, hn, hafter⟩ := decimal?_eq_some.1 h
  obtain ⟨htake, hdrop⟩ := while_append u hafter.symm
  rw [← htake] at hne hn
  exact decimal?_eq_some.2 ⟨hne, hn, hdrop.symm⟩

theorem le_of_hex? {k : Nat} {r after : List Char} {n : Nat} (h : hex? k r = some (n, after)) :
    r.length = k + after.length := by
  obtain ⟨digits, rfl, rfl, -⟩ := hex?_eq_some.1 h
  exact List.length_append

/-- Digits in a fixed number do not look at what follows. -/
theorem hex?_alone {k : Nat} {w u r : List Char} {n : Nat}
    (h : hex? k (w ++ u) = some (n, r ++ u)) : hex? k w = some (n, r) := by
  obtain ⟨digits, htext, hdigits⟩ := hex?_eq_some.1 h
  rw [← List.append_assoc] at htext
  exact hex?_eq_some.2 ⟨digits, List.append_cancel_right htext, hdigits⟩

theorem hex?_append {k : Nat} {w r : List Char} {n : Nat} (u : List Char)
    (h : hex? k w = some (n, r)) : hex? k (w ++ u) = some (n, r ++ u) := by
  obtain ⟨digits, rfl, hdigits⟩ := hex?_eq_some.1 h
  exact hex?_eq_some.2 ⟨digits, List.append_assoc _ _ _, hdigits⟩

theorem hex?_none_alone {k : Nat} {w u : List Char} (h : hex? k (w ++ u) = none) :
    hex? k w = none :=
  Option.eq_none_iff_forall_ne_some.2 fun read hread => by
    rw [hex?_append u hread] at h
    cases h

theorem octal_alone {k value : Nat} {w u r : List Char} {n : Nat}
    (h : octal k value (w ++ u) = (n, r ++ u)) : octal k value w = (n, r) := by
  induction k generalizing value w with
  | zero =>
    simp only [octal, Prod.mk.injEq, List.append_cancel_right_eq] at h ⊢
    exact h
  | succ k ih =>
    cases w with
    | cons c w =>
      simp only [List.cons_append, octal] at h ⊢
      split at h
      · rename_i hdigit
        rw [if_pos hdigit]
        exact ih h
      · rename_i hdigit
        rw [if_neg hdigit]
        simp only [Prod.mk.injEq, ← List.cons_append, List.append_cancel_right_eq] at h
        rw [h.1, h.2]
    | nil =>
      cases u with
      | nil => simpa using h
      | cons c u =>
        simp only [List.nil_append, octal] at h
        split at h
        · have hsuffix := suffix_octal k (value * 8 + digitValue c) u
          rw [h] at hsuffix
          exact absurd rfl (not_suffix_cons hsuffix)
        · simp only [Prod.mk.injEq, List.self_eq_append_left] at h
          rw [octal, h.1, h.2]
          simp

theorem octalOrSelf_alone {c : Char} {w u r : List Char} {n : Nat}
    (h : octalOrSelf (c :: w ++ u) = (n, r ++ u)) : octalOrSelf (c :: w) = (n, r) := by
  simp only [List.cons_append, octalOrSelf] at h ⊢
  split at h
  · rename_i hdigit
    rw [if_pos hdigit]
    rw [← List.cons_append] at h
    exact octal_alone h
  · rename_i hdigit
    rw [if_neg hdigit]
    simp only [Prod.mk.injEq, List.append_cancel_right_eq] at h
    rw [h.1, h.2]

/-! ## Quantifiers -/

theorem count?_alone {w u r : List Char} {n : Nat} (h : count? (w ++ u) = some (n, r ++ u)) :
    count? w = some (n, r) := by
  obtain ⟨⟨m, after⟩, hm, h⟩ := Option.map_eq_some_iff.1 h
  simp only [Prod.mk.injEq] at h
  rw [h.2] at hm
  simp [count?, decimal?_alone hm, h.1]

theorem count?_append {w r : List Char} {c : Char} {n : Nat} (u : List Char)
    (h : count? w = some (n, c :: r)) : count? (w ++ u) = some (n, c :: r ++ u) := by
  obtain ⟨⟨m, after⟩, hm, h⟩ := Option.map_eq_some_iff.1 h
  simp only [Prod.mk.injEq] at h
  rw [h.2] at hm
  simp [count?, decimal?_append u hm, h.1]

/-- Counts do not look behind their last character. -/
theorem Counts.cut {w u r : List Char} {counts : Nat × Option Nat}
    (h : Counts (w ++ u) counts (r ++ u)) : Counts w counts r := by
  obtain ⟨c, tail, htail, hsuffix⟩ := h.tail
  obtain ⟨w, rfl, rfl⟩ := exists_cons_of_suffix htail hsuffix
  rw [List.cons_append] at h
  generalize htext : w ++ u = text at h
  generalize hrest : r ++ u = rest at h
  cases h with
  | star _ =>
    rw [List.append_cancel_right (htext.trans hrest.symm)]
    exact .star r
  | plus _ =>
    rw [List.append_cancel_right (htext.trans hrest.symm)]
    exact .plus r
  | optional _ =>
    rw [List.append_cancel_right (htext.trans hrest.symm)]
    exact .optional r
  | exactly hread =>
    subst htext hrest
    exact .exactly (count?_alone (r := '}' :: r) hread)
  | atLeast hread =>
    subst htext hrest
    exact .atLeast (count?_alone (r := ',' :: '}' :: r) hread)
  | between hleast hmost =>
    subst htext hrest
    obtain ⟨mid, rfl⟩ := exists_of_suffix (r := '}' :: r) (suffix_count? hmost)
    exact .between (count?_alone (r := ',' :: mid) hleast) (count?_alone (r := '}' :: r) hmost)

theorem Counts.append {w r : List Char} {counts : Nat × Option Nat} (h : Counts w counts r)
    (u : List Char) : Counts (w ++ u) counts (r ++ u) := by
  cases h with
  | star _ => exact .star _
  | plus _ => exact .plus _
  | optional _ => exact .optional _
  | exactly hread => exact .exactly (count?_append u hread)
  | atLeast hread => exact .atLeast (count?_append u hread)
  | between hleast hmost => exact .between (count?_append u hleast) (count?_append u hmost)

/-- A quantifier that is there stays one with more text behind it. -/
theorem atQuantifier_append {w : List Char} (u : List Char) (h : atQuantifier w = true) :
    atQuantifier (w ++ u) = true := by
  obtain ⟨counts, r, hcounts⟩ := atQuantifier_iff.1 h
  exact atQuantifier_iff.2 ⟨counts, _, hcounts.append u⟩

theorem atQuantifier_alone {w u : List Char} (h : atQuantifier (w ++ u) = false) :
    atQuantifier w = false :=
  Bool.eq_false_iff.2 fun hw => Bool.eq_false_iff.1 h (atQuantifier_append u hw)

theorem Quantifies.cut {w u r : List Char} {read : Bounds × Bool}
    (h : Quantifies (w ++ u) read (r ++ u)) : Quantifies w read r := by
  generalize hrest : r ++ u = rest at h
  cases h with
  | lazy hcounts hbounds =>
    subst hrest
    exact .lazy (Counts.cut (r := '?' :: r) hcounts) hbounds
  | greedy hcounts hbounds hmark =>
    subst hrest
    refine .greedy hcounts.cut hbounds fun hhead => hmark ?_
    rw [List.head?_append, hhead]
    rfl

variable {setting : Setting}

/-- A quantifier is read the same with nothing behind it. -/
theorem quantifier?_alone {w u r : List Char} {read : Option (Bounds × Bool)}
    (h : quantifier? setting (w ++ u) = .ok (read, r ++ u)) :
    quantifier? setting.alone w = .ok (read, r) := by
  cases read with
  | some read => exact quantifier?_eq_some.2 (quantifier?_eq_some.1 h).cut
  | none =>
    obtain ⟨hrest, hnone, hbrace⟩ := quantifier?_eq_none.1 h
    refine quantifier?_eq_none.2 ⟨List.append_cancel_right hrest, atQuantifier_alone hnone, ?_⟩
    intro hstrict hhead
    refine hbrace hstrict ?_
    rw [List.head?_append, hhead]
    rfl

/-! ## Properties -/

/-- A property is closed by its own brace. -/
theorem property_alone {negate : Bool} {w u r : List Char} {set : Shorthand}
    (h : property setting negate (w ++ u) = .ok (set, r ++ u)) :
    property setting.alone negate w = .ok (set, r) := by
  obtain ⟨body, key, value, htext, hproperty⟩ := property_iff.1 h
  rw [← List.cons_append, ← List.cons_append, ← List.append_assoc] at htext
  exact property_iff.2 ⟨body, key, value, List.append_cancel_right htext, hproperty⟩

/-! ## Escapes -/

/-- A shorthand is a letter, or a property. -/
theorem shorthand?_alone {w u r : List Char} {set : Shorthand}
    (h : shorthand? setting (w ++ u) = .ok (some set, r ++ u)) :
    shorthand? setting.alone w = .ok (some set, r) := by
  obtain ⟨c, tail, htext, hread⟩ := shorthand?_iff.1 h
  have hsuffix : r ++ u <:+ tail := by
    rcases hread with ⟨-, heq⟩ | ⟨-, -, hproperty⟩
    · exact heq ▸ List.suffix_refl _
    · obtain ⟨tail, rfl, hsuffix⟩ := suffix_property hproperty
      exact hsuffix.trans (List.suffix_cons _ _)
  obtain ⟨w, rfl, rfl⟩ := exists_cons_of_suffix htext hsuffix
  refine shorthand?_iff.2 ⟨c, w, rfl, ?_⟩
  rcases hread with ⟨hset, heq⟩ | ⟨hstrict, hp, hproperty⟩
  · exact .inl ⟨hset, List.append_cancel_right heq⟩
  · exact .inr ⟨hstrict, hp, property_alone hproperty⟩

/-- Where no set is written, none is written in less of the text. -/
theorem shorthand?_none_alone {w u m : List Char}
    (h : shorthand? setting (w ++ u) = .ok (none, m)) :
    shorthand? setting.alone w = .ok (none, w) := by
  cases w with
  | nil => rfl
  | cons c w => exact shorthand?_none_iff.2 ⟨rfl, (shorthand?_none_iff.1 h).2⟩

theorem trailSurrogate?_alone {w u r : List Char} {n : Nat}
    (h : trailSurrogate? (w ++ u) = some (n, r ++ u)) : trailSurrogate? w = some (n, r) := by
  obtain ⟨tail, heq, hhex, hrange⟩ := trailSurrogate?_eq_some.1 h
  obtain ⟨tail, rfl⟩ := exists_of_suffix (suffix_hex? hhex)
  obtain rfl : w = '\\' :: 'u' :: tail := by
    rw [← List.cons_append, ← List.cons_append] at heq
    exact List.append_cancel_right heq
  exact trailSurrogate?_eq_some.2 ⟨tail, rfl, hex?_alone hhex, hrange⟩

/-- A second surrogate is read as a whole or not at all. -/
theorem trailSurrogate?_append {w r : List Char} {n : Nat} (u : List Char)
    (h : trailSurrogate? w = some (n, r)) : trailSurrogate? (w ++ u) = some (n, r ++ u) := by
  obtain ⟨tail, rfl, hhex, hrange⟩ := trailSurrogate?_eq_some.1 h
  exact trailSurrogate?_eq_some.2 ⟨tail ++ u, rfl, hex?_append u hhex, hrange⟩

theorem trailSurrogate?_none_alone {w u : List Char} (h : trailSurrogate? (w ++ u) = none) :
    trailSurrogate? w = none :=
  Option.eq_none_iff_forall_ne_some.2 fun read hread => by
    rw [trailSurrogate?_append u hread] at h
    cases h

theorem bracedCode?_alone {w u r : List Char} {n : Nat}
    (h : bracedCode? (w ++ u) = some (n, r ++ u)) : bracedCode? w = some (n, r) := by
  obtain ⟨digits, htext, hcode⟩ := bracedCode?_eq_some.1 h
  rw [← List.cons_append, ← List.append_assoc] at htext
  exact bracedCode?_eq_some.2 ⟨digits, List.append_cancel_right htext, hcode⟩

theorem bracedCode?_append {w r : List Char} {n : Nat} (u : List Char)
    (h : bracedCode? w = some (n, r)) : bracedCode? (w ++ u) = some (n, r ++ u) := by
  obtain ⟨digits, rfl, hcode⟩ := bracedCode?_eq_some.1 h
  exact bracedCode?_eq_some.2 ⟨digits, by simp, hcode⟩

theorem UnicodeEscape.cut {strict : Bool} {w u r : List Char} {n : Nat}
    (h : UnicodeEscape strict (w ++ u) n (r ++ u)) : UnicodeEscape strict w n r := by
  generalize htext : w ++ u = text at h
  generalize hrest : r ++ u = rest at h
  cases h with
  | braced hstrict hcode =>
    subst hrest
    obtain ⟨w, rfl, rfl⟩ := exists_cons_of_suffix htext (suffix_bracedCode? hcode)
    exact .braced hstrict (bracedCode?_alone hcode)
  | pair hstrict hhex hlow hhigh htrail =>
    subst htext hrest
    obtain ⟨after, rfl⟩ := exists_of_suffix (suffix_trailSurrogate? htrail)
    exact .pair hstrict (hex?_alone hhex) hlow hhigh (trailSurrogate?_alone htrail)
  | single hhex htrail =>
    subst htext hrest
    exact .single (hex?_alone hhex) fun hstrict hlow hhigh =>
      trailSurrogate?_none_alone (htrail hstrict hlow hhigh)
  | self hlenient hhex =>
    obtain rfl := List.append_cancel_right (hrest.trans htext.symm)
    subst htext
    exact .self hlenient (hex?_none_alone hhex)

/-- What does not stand at the front of a text does not stand there when the text is cut. -/
theorem head?_any_alone {p : Char → Bool} {w u : List Char} (h : (w ++ u).head?.any p = false) :
    w.head?.any p = false := by
  cases w with
  | nil => rfl
  | cons c w => exact h

/-- An escape that leaves a text is an escape of what is in front of it. -/
theorem CharacterEscape.cut {inClass : Bool} {c : Char} {w u r : List Char} {n : Nat}
    (h : CharacterEscape setting inClass (c :: (w ++ u)) n (r ++ u)) :
    CharacterEscape setting inClass (c :: w) n r := by
  generalize htext : w ++ u = text at h
  generalize hrest : r ++ u = rest at h
  have hsame (h : rest = text) : w = r :=
    List.append_cancel_right (htext.trans (h.symm.trans hrest.symm))
  cases h with
  | control hm =>
    obtain rfl := hsame rfl
    exact .control hm
  | letter hletter =>
    subst hrest
    obtain ⟨w, rfl, heq⟩ := exists_cons_of_suffix htext (List.suffix_refl _)
    obtain rfl := List.append_cancel_right heq
    exact .letter hletter
  | backslash hlenient hletter =>
    subst htext
    rw [← List.cons_append] at hrest
    obtain rfl := List.append_cancel_right hrest
    exact .backslash hlenient (head?_any_alone hletter)
  | hex hhex =>
    subst htext hrest
    exact .hex (hex?_alone hhex)
  | plainHex hlenient hhex =>
    obtain rfl := hsame rfl
    subst htext
    exact .plainHex hlenient (hex?_none_alone hhex)
  | unicode hcode =>
    subst htext hrest
    exact .unicode hcode.cut
  | zero hdigit =>
    obtain rfl := hsame rfl
    subst htext
    exact .zero (head?_any_alone hdigit)
  | octal hlenient hdigit hzero hoctal =>
    subst htext hrest
    have hoctal := octalOrSelf_alone hoctal
    by_cases hcut : c = '0' ∧ w = []
    · -- cut off before another digit, `0` is the whole number
      obtain ⟨rfl, rfl⟩ := hcut
      cases hoctal
      exact .zero rfl
    · refine .octal hlenient hdigit (fun hc => ?_) hoctal
      cases w with
      | nil => exact absurd ⟨hc, rfl⟩ hcut
      | cons d w => exact hzero hc
  | backspace hclass =>
    obtain rfl := hsame rfl
    exact .backspace hclass
  | self hc =>
    obtain rfl := hsame rfl
    exact .self hc

/-- A setting without names forbids no escape of a character. -/
theorem CharacterEscape.narrow {setting' : Setting} {inClass : Bool} {r rest : List Char} {n : Nat}
    (hnarrows : setting'.Narrows setting) (h : CharacterEscape setting inClass r n rest) :
    CharacterEscape setting' inClass r n rest := by
  have hletter : isControlLetter setting' inClass = isControlLetter setting inClass := by
    funext l
    rw [isControlLetter, isControlLetter, hnarrows.strict]
  cases h with
  | control hm => exact .control hm
  | letter hl => exact .letter (hletter ▸ hl)
  | backslash hlenient hl => exact .backslash (hnarrows.strict.trans hlenient) (hletter ▸ hl)
  | hex hhex => exact .hex hhex
  | plainHex hlenient hhex => exact .plainHex (hnarrows.strict.trans hlenient) hhex
  | unicode hcode => exact .unicode (hnarrows.strict ▸ hcode)
  | zero hdigit => exact .zero hdigit
  | octal hlenient hdigit hzero hoctal =>
    exact .octal (hnarrows.strict.trans hlenient) hdigit hzero hoctal
  | backspace hclass => exact .backspace hclass
  | self hc =>
    refine .self ⟨hc.meaningless, hc.noDigit, hc.noBackspace, fun hstrict => ?_, fun hlenient hk =>
      hnarrows.unnamed (hc.unnamed (hnarrows.strict ▸ hlenient) hk)⟩
    rw [mayEscape, hnarrows.unicodeSets]
    exact hc.allowed (hnarrows.strict ▸ hstrict)

theorem characterEscape_alone {inClass : Bool} {w u r : List Char} {n : Nat}
    (h : characterEscape setting inClass (w ++ u) = .ok (n, r ++ u)) (hw : w ≠ []) :
    characterEscape setting.alone inClass w = .ok (n, r) := by
  obtain ⟨c, w, rfl⟩ := List.exists_cons_of_ne_nil hw
  exact characterEscape_iff.2 ((characterEscape_iff.1 h).cut.narrow setting.narrows_alone)

end Lexeme

end RegexAudit
