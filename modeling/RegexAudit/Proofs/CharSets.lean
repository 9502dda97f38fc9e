import RegexAudit.CharSet.OfNode
import RegexAudit.Proofs.Ranges

/-!
# Members of character sets

The set algebra, read as membership. `join` needs nothing of the stored ranges; `meet` needs them
sorted, and the complement of a set with its ranges apart is sorted again. The questions `isSubset`
and `isDisjoint` are only used in the direction in which a positive answer is trusted. Membership by
binary search is membership (`has_iff`), if the ranges are sorted.
-/

namespace RegexAudit.CharSet

instance : Membership Char CharSet := ⟨fun s c => Range.inSome s.ranges c⟩

/-- The stored ranges are in order and do not overlap. -/
def Sorted (s : CharSet) : Prop := Range.Sorted s.ranges

/-- The stored ranges are in order and no two neighbours touch. -/
def Apart (s : CharSet) : Prop := Range.Apart s.ranges

/-- The stored ranges that end at `floor` or above are in order, and do not touch what comes after
them. -/
def ApartFrom (floor : Nat) (s : CharSet) : Prop := Range.ApartFrom floor s.ranges

theorem apartFrom_zero {s : CharSet} : s.ApartFrom 0 ↔ s.Apart := Range.apartFrom_zero

theorem Apart.apartFrom {s : CharSet} (h : s.Apart) (floor : Nat) : s.ApartFrom floor :=
  Range.Apart.apartFrom h floor

theorem mem_iff (s : CharSet) (c : Char) : c ∈ s ↔ Range.inSome s.ranges c := Iff.rfl

theorem Apart.sorted {s : CharSet} (h : s.Apart) : s.Sorted := Range.Apart.sorted h

theorem not_mem_of_isEmpty {s : CharSet} (h : s.isEmpty = true) (c : Char) : ¬ c ∈ s := by
  rw [mem_iff, List.isEmpty_iff.1 h]
  exact Range.inSome_nil c

/-! ## Making sets -/

@[simp] theorem not_mem_empty (c : Char) : ¬ c ∈ empty := Range.inSome_nil c

/-- Ranges that are merged have the same members. -/
theorem mem_ofRanges (rs : List Range) (c : Char) : c ∈ ofRanges rs ↔ Range.inSome rs c :=
  Range.inSome_canonical rs c

/-- Merged ranges are in order and do not touch. -/
theorem apart_ofRanges (rs : List Range) : (ofRanges rs).Apart := Range.apart_canonical rs

theorem sorted_empty : empty.Sorted := List.Pairwise.nil

@[simp] theorem mem_all (c : Char) : c ∈ all := by
  have hc := char_valid c
  have ht := toNat_topChar
  have hz : (Char.ofNat 0).toNat = 0 := by decide
  rw [all, span, mem_ofRanges, Range.inSome_cons, Range.mem_between]
  left
  omega

theorem mem_singleton (c : Char) : c ∈ singleton c := by
  rw [singleton, span, mem_ofRanges, Range.inSome_cons, Range.mem_between]
  left
  omega

theorem sorted_all : all.Sorted := (apart_ofRanges _).sorted

theorem sorted_ofCodes (table : List (Nat × Nat)) : (ofCodes table).Sorted :=
  (apart_ofRanges _).sorted

/-- The intervals of a table run upwards between code points of characters. -/
def IsTable (table : List (Nat × Nat)) : Prop :=
  ∀ e ∈ table, e.1.isValidChar ∧ e.2.isValidChar ∧ e.1 ≤ e.2

/-- A table of code points is searched as it is stored. -/
theorem mem_ofCodes {table : List (Nat × Nat)} (h : IsTable table) (c : Char) :
    c ∈ ofCodes table ↔ Unicode.isIn table c = true := by
  rw [ofCodes, mem_ofRanges, Range.inSome, Unicode.isIn, List.any_eq_true]
  constructor
  · rintro ⟨r, hr, hc⟩
    obtain ⟨⟨lo, hi⟩, he, rfl⟩ := List.mem_map.1 hr
    obtain ⟨h1, h2, h3⟩ := h _ he
    simp only [Range.ofCodes, Range.mem_between, toNat_ofNat h1, toNat_ofNat h2] at hc
    refine ⟨(lo, hi), he, ?_⟩
    simp only [Bool.and_eq_true, decide_eq_true_eq]
    omega
  · rintro ⟨⟨lo, hi⟩, he, hc⟩
    obtain ⟨h1, h2, h3⟩ := h _ he
    refine ⟨_, List.mem_map.2 ⟨(lo, hi), he, rfl⟩, ?_⟩
    simp only [Bool.and_eq_true, decide_eq_true_eq] at hc
    simp only [Range.ofCodes, Range.mem_between, toNat_ofNat h1, toNat_ofNat h2]
    omega

/-! ## Algebra -/

/-- Sets that are told the same have the same members. -/
theorem mem_of_same {s t : CharSet} (h : s.same t = true) (c : Char) : c ∈ s ↔ c ∈ t := by
  rw [mem_iff, mem_iff, eq_of_beq h]

@[simp] theorem mem_join (s t : CharSet) (c : Char) : c ∈ s.join t ↔ c ∈ s ∨ c ∈ t := by
  unfold join
  split
  · rename_i h
    rcases Bool.or_eq_true_iff.1 h with h | h
    · simp [not_mem_of_isEmpty h]
    · simp [mem_of_same h]
  · show Range.inSome (Range.canonical (s.ranges ++ t.ranges)) c ↔ _
    rw [Range.inSome_canonical, Range.inSome_append]
    rfl

theorem sorted_join {s : CharSet} (h : s.Sorted) (t : CharSet) : (s.join t).Sorted := by
  unfold join
  split
  · exact h
  · exact (Range.apart_canonical _).sorted

/-- The intersection walks both lists once, which needs their order. -/
theorem mem_meet {s t : CharSet} (hs : s.Sorted) (ht : t.Sorted) (c : Char) :
    c ∈ s.meet t ↔ c ∈ s ∧ c ∈ t := by
  unfold meet
  split
  · rename_i h
    simp [not_mem_of_isEmpty h]
  · split
    · rename_i h
      simp [not_mem_of_isEmpty h]
    · exact Range.inSome_meetAll hs ht c

theorem sorted_meet {s t : CharSet} (hs : s.Sorted) (ht : t.Sorted) : (s.meet t).Sorted := by
  unfold meet
  split
  · exact hs
  · split
    · exact sorted_empty
    · exact Range.sorted_meetAll hs ht

theorem mem_minus {s t : CharSet} (hs : s.Sorted) (ht : t.Sorted) (c : Char) :
    c ∈ s.minus t ↔ c ∈ s ∧ ¬ c ∈ t := by
  unfold minus
  split
  · rename_i h
    rcases Bool.or_eq_true_iff.1 h with h | h
    · simp [not_mem_of_isEmpty h]
    · simp [not_mem_of_isEmpty h]
  · constructor
    · exact Range.of_inSome_cutAll hs ht
    · rintro ⟨hc, hno⟩
      exact Range.inSome_cutAll hc hno

/-- The complement has every character that the set lacks. It may have more: where a gap is that of
the surrogates, its ends are turned around. -/
theorem mem_complement {s : CharSet} {c : Char} (h : ¬ c ∈ s) : c ∈ s.complement :=
  Range.inSome_complement h

/-- The gaps between ranges that do not touch are in order. -/
theorem sorted_complement {s : CharSet} (h : s.Apart) : s.complement.Sorted :=
  Range.sorted_complement h

/-! ## Questions -/

theorem mem_of_isSubset {s t : CharSet} {c : Char} (h : s.isSubset t = true) (hc : c ∈ s) :
    c ∈ t := by
  apply Classical.byContradiction
  intro hno
  have hleft : c ∈ s.minus t := by
    unfold minus
    split
    · exact hc
    · exact Range.inSome_cutAll hc hno
  exact not_mem_of_isEmpty h c hleft

/-- Sets that are told disjoint share no member. -/
theorem not_mem_of_isDisjoint {s t : CharSet} {c : Char} (hs : s.Sorted) (ht : t.Sorted)
    (h : s.isDisjoint t = true) (hc : c ∈ s) : ¬ c ∈ t := by
  intro hct
  exact not_mem_of_isEmpty h c ((mem_meet hs ht c).2 ⟨hc, hct⟩)

/-- Where a character of a sorted list stands, seen from another range of the list. -/
theorem index_of_mem {ranges : List Range} (h : Range.Sorted ranges) {c : Char} {i j : Nat}
    {r s : Range} (hr : ranges[i]? = some r) (hs : ranges[j]? = some s) (hc : c ∈ r) :
    (s.hi.toNat < c.toNat → j < i) ∧ (c.toNat < s.lo.toNat → i < j) := by
  obtain ⟨hi, rfl⟩ := List.getElem?_eq_some_iff.1 hr
  obtain ⟨hj, rfl⟩ := List.getElem?_eq_some_iff.1 hs
  have horder := List.pairwise_iff_getElem.1 h
  have := ranges[j].lo_le_hi
  rw [Range.mem_iff] at hc
  rcases Nat.lt_trichotomy i j with hij | rfl | hij
  · have := horder i j hi hj hij
    omega
  · omega
  · have := horder j i hj hi hij
    omega

/-- The search looks at the ranges numbered from `lo` up to `hi`, and finds one with `c` if there is
one. -/
theorem search_iff {ranges : List Range} (h : Range.Sorted ranges) (c : Char) :
    ∀ probes lo hi, hi - lo ≤ probes → hi ≤ ranges.length →
      (search ranges.toArray c probes lo hi = true ↔
        ∃ i r, lo ≤ i ∧ i < hi ∧ ranges[i]? = some r ∧ c ∈ r) := by
  intro probes
  induction probes with
  | zero =>
    intro lo hi hprobes _
    simp only [search, Bool.false_eq_true, false_iff]
    rintro ⟨i, r, hlo, hhi, -⟩
    omega
  | succ probes ih =>
    intro lo hi hprobes hlength
    simp only [search]
    split
    · rename_i hlt
      have hmiddle : ranges[(lo + hi) / 2]? = some (ranges.get ⟨(lo + hi) / 2, by omega⟩) :=
        List.getElem?_eq_getElem (by omega)
      simp only [List.getElem?_toArray, hmiddle, char_lt_iff]
      split
      · rename_i hafter
        rw [ih _ _ (by omega) hlength]
        constructor
        · rintro ⟨i, r, hlo, hhi, hr, hc⟩
          exact ⟨i, r, by omega, hhi, hr, hc⟩
        · rintro ⟨i, r, hlo, hhi, hr, hc⟩
          exact ⟨i, r, (index_of_mem h hr hmiddle hc).1 hafter, hhi, hr, hc⟩
      · split
        · rename_i hbefore
          rw [ih _ _ (by omega) (by omega)]
          constructor
          · rintro ⟨i, r, hlo, hhi, hr, hc⟩
            exact ⟨i, r, hlo, by omega, hr, hc⟩
          · rintro ⟨i, r, hlo, hhi, hr, hc⟩
            exact ⟨i, r, hlo, (index_of_mem h hr hmiddle hc).2 hbefore, hr, hc⟩
        · refine iff_of_true rfl ⟨(lo + hi) / 2, _, by omega, by omega, hmiddle, ?_⟩
          rw [Range.mem_iff]
          omega
    · simp only [Bool.false_eq_true, false_iff]
      rintro ⟨i, r, hlo, hhi, -⟩
      omega

/-- Of a set stored in order the search finds all members. -/
theorem has_iff {s : CharSet} (h : s.Sorted) (c : Char) : s.has c = true ↔ c ∈ s := by
  rw [has, search_iff h c _ _ _ (Nat.sub_le _ _) (Nat.le_refl _)]
  constructor
  · rintro ⟨i, r, -, -, hr, hc⟩
    exact ⟨r, List.mem_of_getElem? hr, hc⟩
  · rintro ⟨r, hr, hc⟩
    obtain ⟨i, hi, rfl⟩ := List.getElem_of_mem hr
    exact ⟨i, _, Nat.zero_le i, hi, List.getElem?_eq_getElem hi, hc⟩

end RegexAudit.CharSet
