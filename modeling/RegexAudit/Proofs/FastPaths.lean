import RegexAudit.CharSet.KnownProperties
import RegexAudit.Proofs.Complements
import RegexAudit.Proofs.Partners
import RegexAudit.Proofs.SetAlgebra
import RegexAudit.Proofs.UpperCase

/-!
# Fast paths

Two nodes that match single characters are equal if their sets are stored alike. Letters under `i`
without `u` and `v` are compared by upper case, without looking at sets. Whether the nodes have the
same characters is the same question, with two exceptions. Some sets can be stored in two ways, with
the surrogates between two ranges or inside of one:

    s.Apart → t.Apart → (s.same t ↔ (∀ c, c ∈ s ↔ c ∈ t) ∧ (s.Split ↔ t.Split))        (same_iff)

And the letters in `Unicode.irregular` are equal to the wrong ones: an irregular letter and another
one never are both equal and with the same characters (`equal_iff_members`), and each irregular
letter has another one to which it is equal or with which it has the same characters
(`exists_mistaken`).
-/

namespace RegexAudit

namespace Range

/-! ## Stored forms -/

section
variable {r t : Range} {rs ts : List Range}

theorem inSome_tail_iff (h : Sorted (r :: rs)) (c : Char) :
    inSome rs c ↔ inSome (r :: rs) c ∧ r.hi.toNat < c.toNat := by
  constructor
  · intro hc
    exact ⟨(inSome_cons ..).2 (.inr hc), h.lo_of_inSome hc⟩
  · rintro ⟨hc, hlt⟩
    rw [inSome_cons, mem_iff] at hc
    exact hc.resolve_left (by omega)

theorem Split.tail (hr : Sorted (r :: rs)) (ht : Sorted (r :: ts))
    (h : Split (r :: rs) → Split (r :: ts)) (hsplit : Split rs) : Split ts := by
  obtain ⟨⟨a, ha, hahi⟩, b, hb, hblo⟩ := hsplit
  have hra := (List.pairwise_cons.1 hr).1 a ha
  have hrb := (List.pairwise_cons.1 hr).1 b hb
  have haOrder := a.lo_le_hi
  have hrOrder := r.lo_le_hi
  obtain ⟨⟨a', ha', hahi'⟩, b', hb', hblo'⟩ := h (Split.cons ⟨⟨a, ha, hahi⟩, b, hb, hblo⟩ r)
  refine ⟨⟨a', ?_, hahi'⟩, b', ?_, hblo'⟩
  · rcases List.mem_cons.1 ha' with rfl | ha'
    · omega
    · exact ha'
  · rcases List.mem_cons.1 hb' with rfl | hb'
    · omega
    · exact hb'

/-- Of two lists that begin at one character, the one with fewer members does not go further in its
first range. -/
theorem hi_le_hi (hr : Apart (r :: rs)) (ht : Apart (t :: ts)) (hlo : r.lo = t.lo)
    (hsplit : Split (r :: rs) → Split (t :: ts))
    (h : ∀ c, inSome (t :: ts) c → inSome (r :: rs) c) : t.hi.toNat ≤ r.hi.toNat := by
  by_contra hlt
  -- The character after the shorter range would open the next one. Only after the surrogates are
  -- these two apart, and then the first list is split there, and the second one is not.
  have hrOrder := r.lo_le_hi
  have hrv := char_valid r.hi
  have htv := char_valid t.hi
  have hnext := toNat_after r.hi (by omega)
  have hmem : after r.hi ∈ t := by
    rw [mem_iff, ← hlo]
    omega
  have hlater := h (after r.hi) ((inSome_cons ..).2 (.inl hmem))
  rw [inSome_cons, mem_iff] at hlater
  rcases hlater with hin | ⟨s, hs, hin⟩
  · omega
  · have hdistance := (List.pairwise_cons.1 hr).1 s hs
    have hsv := char_valid s.lo
    rw [mem_iff] at hin hmem
    have hends : r.hi.toNat = 0xD7FF ∧ s.lo.toNat = 0xE000 := by omega
    obtain ⟨⟨u, hu, huhi⟩, -⟩ := hsplit
      ⟨⟨r, List.mem_cons_self, hends.1⟩, s, List.mem_cons_of_mem r hs, hends.2⟩
    have huOrder := u.lo_le_hi
    rcases List.mem_cons.1 hu with rfl | hu
    · omega
    · have := (List.pairwise_cons.1 ht).1 u hu
      omega

end

/-- Ranges that are apart are determined by their members, and by whether they are split. -/
theorem eq_of_inSome_iff {rs ts : List Range} (hr : Apart rs) (ht : Apart ts)
    (hsplit : Split rs ↔ Split ts) (h : ∀ c, inSome rs c ↔ inSome ts c) : rs = ts := by
  induction rs generalizing ts with
  | nil =>
    cases ts with
    | nil => rfl
    | cons t ts => exact absurd ((h t.lo).2 ⟨t, List.mem_cons_self, t.lo_mem⟩) (inSome_nil _)
  | cons r rs ih =>
    cases ts with
    | nil => exact absurd ((h r.lo).1 ⟨r, List.mem_cons_self, r.lo_mem⟩) (inSome_nil _)
    | cons t ts =>
      have hlo : r.lo = t.lo := by
        have hrt := (h r.lo).1 ⟨r, List.mem_cons_self, r.lo_mem⟩
        have htr := (h t.lo).2 ⟨t, List.mem_cons_self, t.lo_mem⟩
        refine Char.toNat_inj.1 (Nat.le_antisymm ?_ ?_)
        · exact Nat.le_of_not_lt fun hlt => not_inSome_of_lt hr.sorted hlt htr
        · exact Nat.le_of_not_lt fun hlt => not_inSome_of_lt ht.sorted hlt hrt
      have hhi : r.hi = t.hi := by
        have hrt := hi_le_hi ht hr hlo.symm hsplit.2 fun c => (h c).1
        have htr := hi_le_hi hr ht hlo hsplit.1 fun c => (h c).2
        exact Char.toNat_inj.1 (Nat.le_antisymm hrt htr)
      obtain rfl : r = t := by
        cases r
        cases t
        cases hlo
        cases hhi
        rfl
      have hrs := (List.pairwise_cons.1 hr).2
      have hts := (List.pairwise_cons.1 ht).2
      have hsplits : Split rs ↔ Split ts :=
        ⟨.tail hr.sorted ht.sorted hsplit.1, .tail ht.sorted hr.sorted hsplit.2⟩
      have hmembers (c : Char) : inSome rs c ↔ inSome ts c := by
        rw [inSome_tail_iff hr.sorted, inSome_tail_iff ht.sorted, h c]
      rw [ih hrs hts hsplits hmembers]

end Range

namespace CharSet

open Unicode

theorem same_iff {s t : CharSet} (hs : s.Apart) (ht : t.Apart) :
    s.same t = true ↔ (∀ c, c ∈ s ↔ c ∈ t) ∧ (s.Split ↔ t.Split) := by
  constructor
  · intro hsame
    refine ⟨mem_of_same hsame, ?_⟩
    rw [Split, Split, eq_of_beq hsame]
  · rintro ⟨hmem, hsplit⟩
    exact beq_iff_eq.2 (Range.eq_of_inSome_iff hs ht hsplit hmem)

/-! ## Letters -/

section
variable {flags : Flags}

theorem mem_fold_singleton_iff (hcase : flags.ignoreCase = true) (hmode : flags.unicodeMode = false)
    (c d : Char) : (∀ e, e ∈ (singleton c).fold flags ↔ e ∈ (singleton d).fold flags) ↔
      SameCase c d ∧ (c.toNat < 0x80 ↔ d.toNat < 0x80) := by
  constructor
  · intro h
    have hd := (h d).2 ((mem_fold_singleton_apart hcase hmode d d).2 ⟨.inl rfl, Iff.rfl⟩)
    exact (mem_fold_singleton_apart hcase hmode c d).1 hd
  · rintro ⟨hsame, hside⟩
    exact mem_fold_singleton hcase hmode hsame hside

/-- The characters around the surrogates have no case. -/
theorem surrogates_classes : 0xD7FF ∉ classes.flatten ∧ 0xE000 ∉ classes.flatten := by
  decide +kernel

theorem not_split_fold_singleton (hcase : flags.ignoreCase = true)
    (hmode : flags.unicodeMode = false) (c : Char) : ¬ ((singleton c).fold flags).Split := by
  rintro ⟨⟨a, ha, hhi⟩, b, hb, hlo⟩
  have hcases {d : Char} (hd : d.toNat ∉ classes.flatten) (hmem : d ∈ (singleton c).fold flags) :
      c = d := by
    obtain ⟨hsame, -⟩ := (mem_fold_singleton_apart hcase hmode c d).1 hmem
    refine hsame.resolve_right ?_
    rintro ⟨cs, hcs, -, hdcs⟩
    exact hd (List.mem_flatten.2 ⟨cs, hcs, hdcs⟩)
  have hbefore := hcases (hhi ▸ surrogates_classes.1) ⟨a, ha, a.hi_mem⟩
  have hafter := hcases (hlo ▸ surrogates_classes.2) ⟨b, hb, b.lo_mem⟩
  rw [← hbefore] at hhi
  rw [← hafter, hhi] at hlo
  cases hlo

end

end CharSet

namespace Comparison

open Unicode

/-! ## Nodes that match single characters -/

/-- Two different letters that are compared by upper case, one of them irregular. -/
def Mistakable (flags : Flags) : Node → Node → Prop
  | .character y, .character z => flags.ignoreCase = true ∧ flags.unicodeMode = false ∧
      y.value ≠ z.value ∧ (y.value ∈ irregular ∨ z.value ∈ irregular)
  | _, _ => False

variable {flags : Flags} (resolve? : Option (GroupRef → Option Nat))

theorem equal_character [Properties]
    {a b : Node} (ha : a.isCharacter = true) (hb : b.isCharacter = true) :
    equal { flags, resolve? } a b = sameCharacters flags a b := by
  rw [equal, same.eq_def, verdict, ha, hb]
  rfl

theorem of_charSet?_character [Properties] {y : Letter} {s : CharSet}
    (h : (Node.character y).charSet? flags = some s) :
    y.value.isValidChar ∧ s = (CharSet.singleton (Char.ofNat y.value)).fold flags := by
  by_cases hvalid : y.value.isValidChar
  · rw [Node.charSet?_character hvalid] at h
    exact ⟨hvalid, (Option.some.inj h).symm⟩
  · rw [Node.charSet?, Letter.charSet?, CharSet.ofCode?, if_neg hvalid] at h
    cases h

section
variable (hcase : flags.ignoreCase = true) (hmode : flags.unicodeMode = false) {y z : Letter}
include hcase hmode

variable [Properties]

theorem equal_letters_iff (hne : y.value ≠ z.value) (hy : y.value.isValidChar)
    (hz : z.value.isValidChar) :
    equal { flags, resolve? } (.character y) (.character z) = true ↔
      upper (Char.ofNat y.value) = upper (Char.ofNat z.value) := by
  have hupper : sameLetters? flags y z
      = some (sameUpper (Char.ofNat y.value) (Char.ofNat z.value)) := by
    rw [sameLetters?, if_neg hne, hcase, hmode, decide_eq_true hy, decide_eq_true hz]
    rfl
  rw [equal_character resolve? rfl rfl, sameCharacters, hupper, Option.getD_some, sameUpper_iff]

/-- For two letters that are compared by upper case. -/
theorem equal_letters_iff_members {s t : CharSet} (hne : y.value ≠ z.value)
    (hs : (Node.character y).charSet? flags = some s)
    (ht : (Node.character z).charSet? flags = some t) :
    (¬ Mistakable flags (.character y) (.character z) →
      (equal { flags, resolve? } (.character y) (.character z) = true ↔ ∀ c, c ∈ s ↔ c ∈ t)) ∧
    (Mistakable flags (.character y) (.character z) →
      ¬ (equal { flags, resolve? } (.character y) (.character z) = true ∧ ∀ c, c ∈ s ↔ c ∈ t)) ∧
    ¬ s.Split ∧ ¬ t.Split := by
  obtain ⟨hy, rfl⟩ := of_charSet?_character hs
  obtain ⟨hz, rfl⟩ := of_charSet?_character ht
  have hy' := toNat_ofNat hy
  have hz' := toNat_ofNat hz
  rw [equal_letters_iff resolve? hcase hmode hne hy hz, CharSet.mem_fold_singleton_iff hcase hmode]
  refine ⟨fun hno => upper_eq_iff ?_ ?_, ?_, CharSet.not_split_fold_singleton hcase hmode _,
    CharSet.not_split_fold_singleton hcase hmode _⟩
  · rw [hy']
    exact fun hirregular => hno ⟨hcase, hmode, hne, .inl hirregular⟩
  · rw [hz']
    exact fun hirregular => hno ⟨hcase, hmode, hne, .inr hirregular⟩
  · rintro ⟨-, -, -, hirregular⟩ ⟨hupper, hmembers⟩
    rw [← hy', ← hz'] at hirregular
    refine not_sameCase_of_upper (fun hsame => hne ?_) hirregular hupper hmembers
    rw [← hy', hsame, hz']

end

/-- Two nodes that match single characters and whose sets are stored with their ranges apart are
equal exactly if they have the same characters, and both sets or none are split at the surrogates.
But a letter in `irregular` and another one, compared by upper case, never are both equal and with
the same characters. -/
theorem equal_iff_members [Properties] {a b : Node} {s t : CharSet} (ha : a.isCharacter = true)
    (hb : b.isCharacter = true) (hs : a.charSet? flags = some s) (ht : b.charSet? flags = some t)
    (hsa : s.Apart) (hta : t.Apart) :
    (¬ Mistakable flags a b → (equal { flags, resolve? } a b = true ↔
      (∀ c, c ∈ s ↔ c ∈ t) ∧ (s.Split ↔ t.Split))) ∧
    (Mistakable flags a b →
      ¬ (equal { flags, resolve? } a b = true ∧ ∀ c, c ∈ s ↔ c ∈ t)) := by
  by_cases hletters : ∃ y z, a = .character y ∧ b = .character z ∧ y.value ≠ z.value ∧
      flags.ignoreCase = true ∧ flags.unicodeMode = false
  · obtain ⟨y, z, rfl, rfl, hne, hcase, hmode⟩ := hletters
    obtain ⟨hregular, hirregular, hs', ht'⟩ :=
      equal_letters_iff_members resolve? hcase hmode hne hs ht
    refine ⟨fun hno => ?_, hirregular⟩
    rw [hregular hno]
    exact (and_iff_left (iff_of_false hs' ht')).symm
  · have hsets : equal { flags, resolve? } a b = s.same t := by
      rw [equal_character resolve? ha hb]
      refine sameCharacters_eq hs ht fun y z hy hz hne hcase => ?_
      rw [← Bool.not_eq_false]
      exact fun hmode => hletters ⟨y, z, hy, hz, hne, hcase, hmode⟩
    rw [hsets, CharSet.same_iff hsa hta]
    refine ⟨fun _ => Iff.rfl, fun hmistakable => ?_⟩
    unfold Mistakable at hmistakable
    split at hmistakable
    · rename_i y z
      obtain ⟨hcase, hmode, hne, -⟩ := hmistakable
      exact absurd ⟨y, z, rfl, rfl, hne, hcase, hmode⟩ hletters
    · cases hmistakable

open Node in
/-- Under `i`, `é` and `É` are equal by upper case, and have the same characters. -/
theorem equal_iff_members_accent :
    let flags : Flags := { ignoreCase := true }
    let small : Node := character ⟨0xE9, ['é']⟩
    let capital : Node := character ⟨0xC9, ['É']⟩
    equal { flags } small capital = true ∧ ∃ s t, small.charSet? flags = some s ∧
      capital.charSet? flags = some t ∧ ∀ c, c ∈ s ↔ c ∈ t := by
  intro flags small capital
  have hequal : equal { flags } small capital = true := by decide +kernel
  have hs : small.charSet? flags = some ((CharSet.singleton 'é').fold flags) := rfl
  have ht : capital.charSet? flags = some ((CharSet.singleton 'É').fold flags) := rfl
  have hregular : ¬ Mistakable flags small capital := by
    rintro ⟨-, -, -, h⟩
    revert h
    decide +kernel
  have hapart (c : Char) : ((CharSet.singleton c).fold flags).Apart :=
    CharSet.apart_fold (CharSet.apart_ofRanges _) flags
  refine ⟨hequal, _, _, hs, ht, ?_⟩
  exact (((equal_iff_members none rfl rfl hs ht (hapart 'é') (hapart 'É')).1 hregular).1 hequal).1

open Node in
/-- Under `i`, `ß` and `ẞ` have the same characters and are not equal, U+A7CE and U+A7CF are equal
and have not. And all characters are not equal to all characters before and after the surrogates. -/
theorem equal_ne_members :
    let flags : Flags := { ignoreCase := true }
    let letter (n : Nat) : Node := character ⟨n, [Char.ofNat n]⟩
    let upTo (n m : Nat) : Node := range ⟨n, [Char.ofNat n]⟩ ⟨m, [Char.ofNat m]⟩
    let set (ranges : List Node) : Node := charClass false false ranges
    let whole := set [upTo 0 0x10FFFF]
    let sides := set [upTo 0 0xD7FF, upTo 0xE000 0x10FFFF]
    let alike (flags : Flags) (a b : Node) : Prop := ∃ s t, a.charSet? flags = some s ∧
      b.charSet? flags = some t ∧ ∀ c, c ∈ s ↔ c ∈ t
    (alike flags (letter 0xDF) (letter 0x1E9E) ∧
      equal { flags } (letter 0xDF) (letter 0x1E9E) = false) ∧
    (¬ alike flags (letter 0xA7CE) (letter 0xA7CF) ∧
      equal { flags } (letter 0xA7CE) (letter 0xA7CF) = true) ∧
    (alike { unicode := true } whole sides ∧
      equal { flags := { unicode := true } } whole sides = false) := by
  intro flags letter upTo set whole sides alike
  refine ⟨⟨?_, ?_⟩, ⟨?_, ?_⟩, ?_, ?_⟩
  · refine ⟨_, _, rfl, rfl, CharSet.mem_of_same ?_⟩
    decide +kernel
  · decide +kernel
  · rintro ⟨s, t, hs, ht, hmembers⟩
    obtain ⟨-, hboth, -⟩ := equal_letters_iff_members none rfl rfl (by decide) hs ht
    refine hboth ⟨rfl, rfl, by decide, .inr (by decide +kernel)⟩ ⟨?_, hmembers⟩
    decide +kernel
  · decide +kernel
  · let all : List Range := [⟨Char.ofNat 0, topChar, by decide⟩]
    let apart : List Range :=
      [⟨Char.ofNat 0, Char.ofNat 0xD7FF, by decide⟩, ⟨Char.ofNat 0xE000, topChar, by decide⟩]
    refine ⟨⟨all, false⟩, ⟨apart, false⟩, by rfl, by rfl, fun c => ?_⟩
    have hfirst : (Char.ofNat 0).toNat = 0 := rfl
    have hbefore : (Char.ofNat 0xD7FF).toNat = 0xD7FF := rfl
    have hafter : (Char.ofNat 0xE000).toNat = 0xE000 := rfl
    have hlast := toNat_topChar
    have hc := char_valid c
    show Range.inSome all c ↔ Range.inSome apart c
    simp only [all, apart, Range.inSome_cons, Range.mem_iff, Range.inSome_nil]
    omega
  · decide +kernel

theorem isValidChar_irregular : ∀ n ∈ irregular, n.isValidChar := by decide +kernel

/-- Each irregular letter is equal to another one with other characters, or not equal to one with
the same. -/
theorem exists_mistaken [Properties]
    (hcase : flags.ignoreCase = true) (hmode : flags.unicodeMode = false)
    {y : Letter} (hy : y.value ∈ irregular) :
    ∃ (z : Letter) (s t : CharSet), (Node.character y).charSet? flags = some s ∧
      (Node.character z).charSet? flags = some t ∧
      ¬ (equal { flags, resolve? } (.character y) (.character z) = true ↔ ∀ c, c ∈ s ↔ c ∈ t) := by
  have hyv := isValidChar_irregular y.value hy
  have hy' := toNat_ofNat hyv
  obtain ⟨d, hne, hd⟩ := exists_of_irregular (hy'.symm ▸ hy)
  let z : Letter := ⟨d.toNat, [d]⟩
  have hz : z.value.isValidChar := d.valid
  have hz' : Char.ofNat z.value = d := Char.ofNat_toNat d
  have hne' : y.value ≠ z.value := by
    intro hsame
    exact hne (hsame ▸ hz')
  rw [← hz'] at hd
  refine ⟨z, _, _, Node.charSet?_character hyv, Node.charSet?_character hz, fun hagree => ?_⟩
  obtain ⟨-, hboth, -⟩ := equal_letters_iff_members resolve? hcase hmode hne'
    (Node.charSet?_character hyv) (Node.charSet?_character hz)
  refine hboth ⟨hcase, hmode, hne', .inl hy⟩ ?_
  rcases hd with hupper | hmembers
  · have hequal := (equal_letters_iff resolve? hcase hmode hne' hyv hz).2 hupper
    exact ⟨hequal, hagree.1 hequal⟩
  · rw [← CharSet.mem_fold_singleton_iff hcase hmode] at hmembers
    exact ⟨hagree.2 hmembers, hmembers⟩

end Comparison

end RegexAudit
