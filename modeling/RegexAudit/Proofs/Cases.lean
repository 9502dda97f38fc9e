import Mathlib.Data.List.Nodup
import Mathlib.Data.List.Pairwise
import RegexAudit.Proofs.CharSets
import RegexAudit.Unicode.Uppercase

/-!
# Case classes

The case tables list classes of characters that differ in case only. No character is listed twice
(`nodup_classes`), so being in one class is an equivalence, `SameCase`. Closing a set under case adds
what is equivalent to a member:

    d ∈ s.closeCase ↔ ∃ c ∈ s, SameCase c d                                   (mem_closeCase)

and folding without `u` and `v` does so on each side of the end of ASCII alone (`mem_fold_apart`).
-/

namespace RegexAudit

namespace Unicode

/-! ## Classes -/

namespace PairRow

/-- The pairs of a row. -/
def pairs (row : PairRow) : List (List Nat) :=
  (List.range ((row.last - row.first) / row.step + 1)).map fun k =>
    [row.first + k * row.step, row.first + k * row.step + row.shift]

/-- The row goes up by one or by two. -/
def IsRow (row : PairRow) : Prop := (row.step = 1 ∨ row.step = 2) ∧ row.first ≤ row.last

instance (row : PairRow) : Decidable row.IsRow :=
  inferInstanceAs (Decidable ((row.step = 1 ∨ row.step = 2) ∧ row.first ≤ row.last))

theorem mem_within {row : PairRow} (h : row.IsRow) (lo hi n : Nat) :
    n ∈ row.within lo hi ↔ lo ≤ n ∧ n ≤ hi ∧
      ∃ k < (row.last - row.first) / row.step + 1, n = row.first + k * row.step := by
  obtain ⟨hstep, horder⟩ := h
  unfold within
  split
  · rename_i hout
    simp only [Bool.or_eq_true, decide_eq_true_eq] at hout
    simp only [List.not_mem_nil, false_iff, not_and, not_exists]
    rintro hlo hhi k hk rfl
    rcases hstep with hstep | hstep <;> rw [hstep] at hk hlo hhi <;> omega
  · rename_i hin
    simp only [Bool.or_eq_true, decide_eq_true_eq, not_or, Nat.not_lt] at hin
    simp only [List.mem_map, List.mem_range'_1]
    constructor
    · rintro ⟨k, hk, rfl⟩
      refine ⟨?_, ?_, k, ?_, rfl⟩ <;> rcases hstep with hstep | hstep <;> rw [hstep] at hk ⊢ <;> omega
    · rintro ⟨hlo, hhi, k, hk, rfl⟩
      refine ⟨k, ?_, rfl⟩
      rcases hstep with hstep | hstep <;> rw [hstep] at hk hlo hhi ⊢ <;> omega

theorem mem_pairs (row : PairRow) (cs : List Nat) :
    cs ∈ row.pairs ↔ ∃ c, (∃ k < (row.last - row.first) / row.step + 1,
      c = row.first + k * row.step) ∧ cs = [c, c + row.shift] := by
  simp only [pairs, List.mem_map, List.mem_range]
  constructor
  · rintro ⟨k, hk, rfl⟩
    exact ⟨_, ⟨k, hk, rfl⟩, rfl⟩
  · rintro ⟨_, ⟨k, hk, rfl⟩, rfl⟩
    exact ⟨k, hk, rfl⟩

/-- The pairs of the row with a member from `lo` to `hi`. -/
theorem mem_meeting {row : PairRow} (h : row.IsRow) (lo hi d : Nat) :
    d ∈ row.meeting lo hi ↔ ∃ cs ∈ row.pairs, d ∈ cs ∧ ∃ c ∈ cs, lo ≤ c ∧ c ≤ hi := by
  have hupper (c : Nat) :
      c ∈ (if hi < row.shift then [] else row.within (lo - row.shift) (hi - row.shift)) ↔
        lo ≤ c + row.shift ∧ c + row.shift ≤ hi ∧
          ∃ k < (row.last - row.first) / row.step + 1, c = row.first + k * row.step := by
    split
    · simp only [List.not_mem_nil, false_iff]
      omega
    · rw [mem_within h]
      constructor
      · rintro ⟨hlo, hhi, hrow⟩
        exact ⟨by omega, by omega, hrow⟩
      · rintro ⟨hlo, hhi, hrow⟩
        exact ⟨by omega, by omega, hrow⟩
  simp only [meeting, List.mem_flatMap, List.mem_append, mem_within h, hupper, mem_pairs]
  constructor
  · rintro ⟨c, ⟨hlo, hhi, hrow⟩ | ⟨hlo, hhi, hrow⟩, hd⟩
    · exact ⟨_, ⟨c, hrow, rfl⟩, hd, c, by simp, hlo, hhi⟩
    · exact ⟨_, ⟨c, hrow, rfl⟩, hd, c + row.shift, by simp, hlo, hhi⟩
  · rintro ⟨_, ⟨c, hrow, rfl⟩, hd, e, he, hlo, hhi⟩
    refine ⟨c, ?_, hd⟩
    simp only [List.mem_cons, List.not_mem_nil, or_false] at he
    rcases he with rfl | rfl
    · exact .inl ⟨hlo, hhi, hrow⟩
    · exact .inr ⟨hlo, hhi, hrow⟩

end PairRow

/-- All classes of the tables. -/
def classes : List (List Nat) := casePairs.flatMap PairRow.pairs ++ caseClasses

theorem isRow_casePairs : ∀ row ∈ casePairs, row.IsRow := by decide +kernel

/-- No row goes across the surrogates or begins right after them. -/
theorem bounds_casePairs : ∀ row ∈ casePairs, row.last + row.shift < 0xD800 ∨
    0xE000 < row.first ∧ row.last + row.shift < 0x110000 := by decide +kernel

/-- No row reaches U+D7FF from below. -/
theorem before_casePairs : ∀ row ∈ casePairs, row.last + row.shift < 0xD7FF ∨ 0xE000 < row.first := by
  decide +kernel

/-- What holds of the pairs of each row, seen from its ends, and of the listed classes holds of all
classes. -/
theorem forall_classes {P : List Nat → Prop}
    (hpairs : ∀ row ∈ casePairs, ∀ c, row.first ≤ c → c ≤ row.last → P [c, c + row.shift])
    (hlisted : ∀ cs ∈ caseClasses, P cs) : ∀ cs ∈ classes, P cs := by
  intro cs hcs
  rcases List.mem_append.1 hcs with hpair | hcs
  · obtain ⟨row, hrow, hpair⟩ := List.mem_flatMap.1 hpair
    obtain ⟨c, ⟨k, hk, rfl⟩, rfl⟩ := (row.mem_pairs cs).1 hpair
    obtain ⟨hstep, horder⟩ := isRow_casePairs row hrow
    refine hpairs row hrow _ (by omega) ?_
    rcases hstep with hstep | hstep <;> rw [hstep] at hk ⊢ <;> omega
  · exact hlisted cs hcs

theorem isValidChar_classes : ∀ cs ∈ classes, ∀ c ∈ cs, c.isValidChar := by
  refine forall_classes (fun row hrow c hfirst hlast => ?_) (by decide)
  have := bounds_casePairs row hrow
  simp only [List.forall_mem_cons, List.not_mem_nil, false_imp_iff, implies_true, and_true,
    Nat.isValidChar]
  omega

/-- What the tables add to an interval: the rest of every class that has a member in it. -/
theorem mem_mates (lo hi d : Nat) : d ∈ mates lo hi ↔
    (d < lo ∨ hi < d) ∧ ∃ cs ∈ classes, d ∈ cs ∧ ∃ c ∈ cs, lo ≤ c ∧ c ≤ hi := by
  have hpairs : (∃ row ∈ casePairs, d ∈ row.meeting lo hi) ↔
      ∃ row ∈ casePairs, ∃ cs ∈ row.pairs, d ∈ cs ∧ ∃ c ∈ cs, lo ≤ c ∧ c ≤ hi :=
    exists_congr fun row => and_congr_right fun hrow =>
      PairRow.mem_meeting (isRow_casePairs row hrow) lo hi d
  simp only [mates, List.mem_filter, List.mem_append, List.mem_flatMap, List.mem_flatten,
    List.any_eq_true, Bool.and_eq_true, Bool.or_eq_true, decide_eq_true_eq, hpairs, classes]
  grind

/-! ## One class for each character -/

/-- Whether the numbers are distinct, and none of them is a bit of `seen`. -/
def distinctFrom : (seen : Nat) → List Nat → Bool
  | _, [] => true
  | seen, c :: cs => !seen.testBit c && distinctFrom (seen ||| 1 <<< c) cs

theorem nodup_of_distinctFrom {seen : Nat} {cs : List Nat} (h : distinctFrom seen cs = true) :
    cs.Nodup ∧ ∀ c ∈ cs, seen.testBit c = false := by
  induction cs generalizing seen with
  | nil => simp
  | cons c cs ih =>
    simp only [distinctFrom, Bool.and_eq_true, Bool.not_eq_true'] at h
    obtain ⟨hnodup, hnew⟩ := ih h.2
    have hseen (d : Nat) : (seen ||| 1 <<< c).testBit d = (seen.testBit d || decide (c = d)) := by
      rw [Nat.testBit_or, Nat.one_shiftLeft, Nat.testBit_two_pow]
    refine ⟨List.nodup_cons.2 ⟨fun hc => ?_, hnodup⟩, List.forall_mem_cons.2 ⟨h.1, fun d hd => ?_⟩⟩
    · have := hnew c hc
      simp [hseen] at this
    · have := hnew d hd
      rw [hseen, Bool.or_eq_false_iff] at this
      exact this.1

/-- No character is listed twice. -/
theorem nodup_classes : classes.flatten.Nodup := by
  have hdistinct : distinctFrom 0 classes.flatten = true := by decide +kernel
  exact (nodup_of_distinctFrom hdistinct).1

theorem eq_of_mem_classes {cs ds : List Nat} {c : Nat} (hcs : cs ∈ classes) (hds : ds ∈ classes)
    (hc : c ∈ cs) (hd : c ∈ ds) : cs = ds := by
  apply Classical.byContradiction
  intro hne
  have hsymm : Std.Symm (List.Disjoint (α := Nat)) := ⟨fun _ _ h _ hc hd => h hd hc⟩
  exact (List.nodup_flatten.1 nodup_classes).2.forall hcs hds hne hc hd

/-- Equal up to case, as the tables have it. -/
def SameCase (c d : Char) : Prop := c = d ∨ ∃ cs ∈ classes, c.toNat ∈ cs ∧ d.toNat ∈ cs

theorem SameCase.symm {c d : Char} (h : SameCase c d) : SameCase d c := by
  rcases h with rfl | ⟨cs, hcs, hc, hd⟩
  · exact .inl rfl
  · exact .inr ⟨cs, hcs, hd, hc⟩

theorem SameCase.trans {c d e : Char} (h : SameCase c d) (h' : SameCase d e) : SameCase c e := by
  rcases h with rfl | ⟨cs, hcs, hc, hd⟩
  · exact h'
  · rcases h' with rfl | ⟨ds, hds, hd', he⟩
    · exact .inr ⟨cs, hcs, hc, hd⟩
    · obtain rfl := eq_of_mem_classes hcs hds hd hd'
      exact .inr ⟨cs, hcs, hc, he⟩

theorem sameUpper_iff (c d : Char) : sameUpper c d = true ↔ upper c = upper d := by
  rw [sameUpper, Bool.or_eq_true, beq_iff_eq, beq_iff_eq]
  exact ⟨fun h => h.elim (congrArg upper) id, .inr⟩

/-- Classes with members on both sides of the end of ASCII are those of the letters in
`asciiBoundary`. -/
theorem one_side_of_classes : ∀ cs ∈ classes, (∀ c ∈ cs, 0x80 ≤ c) ∨ (∀ c ∈ cs, c < 0x80) ∨
    ∀ c ∈ cs, Char.ofNat c ∈ asciiBoundary := by
  have hrows : ∀ row ∈ casePairs, 0x80 ≤ row.first ∨ row.last + row.shift < 0x80 := by
    decide +kernel
  refine forall_classes (fun row hrow c hfirst hlast => ?_) (by decide)
  have := hrows row hrow
  simp only [List.forall_mem_cons, List.not_mem_nil, false_imp_iff, implies_true, and_true]
  omega

theorem SameCase.one_side {c d : Char} (h : SameCase c d) (hc : c ∉ asciiBoundary) :
    c.toNat < 0x80 ↔ d.toNat < 0x80 := by
  rcases h with rfl | ⟨cs, hcs, hc', hd⟩
  · exact Iff.rfl
  · rcases one_side_of_classes cs hcs with h | h | h
    · have := h _ hc'
      have := h _ hd
      omega
    · exact iff_of_true (h _ hc') (h _ hd)
    · exact absurd (by simpa using h _ hc') hc

end Unicode

namespace CharSet

open Unicode

theorem mem_ascii (c : Char) : c ∈ ascii ↔ c.toNat < 0x80 := by
  have htable : IsTable [(0, 0x7F)] := by simp [IsTable, Nat.isValidChar]
  rw [ascii, mem_ofCodes htable]
  simp [isIn]
  omega

theorem mem_single (c d : Char) : d ∈ Range.single c ↔ d = c := by
  constructor
  · rintro ⟨h1, h2⟩
    exact Char.le_antisymm h2 h1
  · rintro rfl
    exact ⟨Char.le_refl d, Char.le_refl d⟩

/-- Closing a set adds what is equal to a member up to case. -/
theorem mem_closeCase {s : CharSet} (h : s.closed = false) (d : Char) :
    d ∈ s.closeCase ↔ ∃ c ∈ s, SameCase c d := by
  have hranges : d ∈ s.closeCase ↔ d ∈ s ∨
      ∃ r ∈ s.ranges, ∃ n ∈ mates r.lo.toNat r.hi.toNat, d = Char.ofNat n := by
    rw [closeCase, if_neg (by simp [h]), mem_iff, Range.inSome_canonical, Range.inSome_append]
    simp only [mem_iff, Range.inSome, List.mem_flatMap, List.mem_map]
    refine or_congr_right ⟨?_, ?_⟩
    · rintro ⟨_, ⟨r, hr, n, hn, rfl⟩, hd⟩
      exact ⟨r, hr, n, hn, (mem_single _ _).1 hd⟩
    · rintro ⟨r, hr, n, hn, hd⟩
      exact ⟨_, ⟨r, hr, n, hn, rfl⟩, (mem_single _ _).2 hd⟩
  rw [hranges]
  constructor
  · rintro (hd | ⟨r, hr, n, hn, rfl⟩)
    · exact ⟨d, hd, .inl rfl⟩
    · obtain ⟨-, cs, hcs, hncs, c, hc, hlo, hhi⟩ := (mem_mates _ _ _).1 hn
      have hcv := toNat_ofNat (isValidChar_classes cs hcs c hc)
      have hnv := toNat_ofNat (isValidChar_classes cs hcs n hncs)
      refine ⟨Char.ofNat c, ⟨r, hr, ?_⟩, .inr ⟨cs, hcs, by rwa [hcv], by rwa [hnv]⟩⟩
      rw [Range.mem_iff, hcv]
      exact ⟨hlo, hhi⟩
  · rintro ⟨c, ⟨r, hr, hc⟩, rfl | ⟨cs, hcs, hccs, hdcs⟩⟩
    · exact .inl ⟨r, hr, hc⟩
    · by_cases hd : d ∈ r
      · exact .inl ⟨r, hr, hd⟩
      · rw [Range.mem_iff] at hc hd
        refine .inr ⟨r, hr, d.toNat, ?_, (Char.ofNat_toNat d).symm⟩
        exact (mem_mates _ _ _).2 ⟨by omega, cs, hcs, hdcs, c.toNat, hccs, hc⟩

theorem apart_closeCase {s : CharSet} (h : s.closed = false) : s.closeCase.Apart := by
  rw [closeCase, if_neg (by simp [h])]
  exact Range.apart_canonical _

/-- The sides of the end of ASCII are closed apart. -/
theorem mem_closeCaseApart {s : CharSet} (h : s.closed = false) (hs : s.Sorted) (d : Char) :
    d ∈ s.closeCaseApart ↔
      ∃ c ∈ s, SameCase c d ∧ (c.toNat < 0x80 ↔ d.toNat < 0x80) := by
  have hascii : ascii.Sorted := sorted_ofCodes _
  have hmeet : (s.meet ascii).closed = false := by
    unfold meet
    split
    · exact h
    · rw [if_neg (by decide)]
      simp [h]
  have hminus : (s.minus ascii).closed = false := by
    unfold minus
    split
    · exact h
    · simp [h]
  rw [closeCaseApart, mem_join, mem_meet (apart_closeCase hmeet).sorted hascii,
    mem_minus (apart_closeCase hminus).sorted hascii, mem_closeCase hmeet, mem_closeCase hminus]
  simp only [mem_meet hs hascii, mem_minus hs hascii, mem_ascii]
  constructor
  · rintro (⟨⟨c, ⟨hc, h1⟩, hcd⟩, h2⟩ | ⟨⟨c, ⟨hc, h1⟩, hcd⟩, h2⟩)
    · exact ⟨c, hc, hcd, iff_of_true h1 h2⟩
    · exact ⟨c, hc, hcd, iff_of_false h1 h2⟩
  · rintro ⟨c, hc, hcd, hside⟩
    by_cases h1 : c.toNat < 0x80
    · exact .inl ⟨⟨c, ⟨hc, h1⟩, hcd⟩, hside.1 h1⟩
    · exact .inr ⟨⟨c, ⟨hc, h1⟩, hcd⟩, fun h2 => h1 (hside.2 h2)⟩

/-- With `i` and without `u` and `v`, folding adds what is equal to a member up to case and on the
same side of the end of ASCII. -/
theorem mem_fold_apart {flags : Flags} (hcase : flags.ignoreCase = true)
    (hmode : flags.unicodeMode = false) {s : CharSet} (h : s.closed = false) (hs : s.Sorted)
    (d : Char) :
    d ∈ s.fold flags ↔ ∃ c ∈ s, SameCase c d ∧ (c.toNat < 0x80 ↔ d.toNat < 0x80) := by
  simp only [fold, hcase, hmode, Bool.not_true, Bool.false_eq_true, if_false, Bool.false_or]
  split
  · rename_i hnone
    have hnone (c : Char) (hc : c ∈ s) : c ∉ asciiBoundary := by
      intro hmem
      rw [Bool.not_eq_true', List.any_eq_false] at hnone
      exact hnone c hmem ((has_iff hs c).2 hc)
    rw [mem_closeCase h]
    exact exists_congr fun c => and_congr_right fun hc =>
      (and_iff_left_of_imp fun hcd => hcd.one_side (hnone c hc)).symm
  · exact mem_closeCaseApart h hs d

theorem mem_singleton_iff (c d : Char) : d ∈ singleton c ↔ d = c := by
  rw [singleton, span, mem_ofRanges, Range.inSome_cons, Range.mem_between]
  simp only [Nat.min_self, Nat.max_self, Range.inSome_nil, or_false]
  rw [← Char.toNat_inj]
  omega

theorem mem_fold_singleton_apart {flags : Flags} (hcase : flags.ignoreCase = true)
    (hmode : flags.unicodeMode = false) (c d : Char) :
    d ∈ (singleton c).fold flags ↔ SameCase c d ∧ (c.toNat < 0x80 ↔ d.toNat < 0x80) := by
  have hsorted : (singleton c).Sorted := (apart_ofRanges _).sorted
  rw [mem_fold_apart hcase hmode rfl hsorted]
  simp [mem_singleton_iff]

/-- Characters that are equal up to case and on the same side of the end of ASCII have the same
folded set. -/
theorem mem_fold_singleton {flags : Flags} (hcase : flags.ignoreCase = true)
    (hmode : flags.unicodeMode = false) {c d : Char} (h : SameCase c d)
    (hside : c.toNat < 0x80 ↔ d.toNat < 0x80) (e : Char) :
    e ∈ (singleton c).fold flags ↔ e ∈ (singleton d).fold flags := by
  rw [mem_fold_singleton_apart hcase hmode, mem_fold_singleton_apart hcase hmode, hside]
  exact and_congr_left' ⟨h.symm.trans, h.trans⟩

end CharSet

end RegexAudit
