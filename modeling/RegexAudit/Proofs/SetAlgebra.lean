import Mathlib.Data.Set.Card
import Mathlib.Order.CompletePartialOrder
import Mathlib.Order.Interval.Finset.Nat
import RegexAudit.Proofs.Cases

/-!
# The set algebra

Sets that are made from ranges, joined, intersected, taken from each other and folded, in any order
and any number of times, are stored with their ranges apart (`Made.apart`). `meet` and `minus` never
sort or merge what they return, so the distance between neighbours has to come out of the walks
themselves. Given the distance, every question about such sets is answered as for sets of characters
(`Made.laws`):

    chars (s.join t) = chars s ∪ chars t        s.isSubset t ↔ chars s ⊆ chars t
    chars (s.meet t) = chars s ∩ chars t        s.isDisjoint t ↔ Disjoint (chars s) (chars t)
    chars (s.minus t) = chars s \ chars t       s.size = (chars s).ncard

`complement` is left out, because its result need not be stored with the ranges apart.
-/

namespace RegexAudit

theorem finite_chars (cs : Set Char) : cs.Finite := by
  have hbound (c : Char) : c.toNat < 0x110000 := by
    have := char_valid c
    omega
  have : Finite Char := Finite.of_injective (fun c => (⟨c.toNat, hbound c⟩ : Fin 0x110000))
    fun c d h => Char.toNat_inj.1 (Fin.mk.inj h)
  exact cs.toFinite

/-! ## Counting -/

namespace Range

/-- The characters of a range are its code points without the surrogates. -/
theorem image_toNat (r : Range) : Char.toNat '' {c | c ∈ r} =
    ↑(Finset.Icc r.lo.toNat r.hi.toNat \ Finset.Icc 0xD800 0xDFFF) := by
  ext n
  simp only [Set.mem_image, Set.mem_ofPred_eq, Finset.coe_sdiff, Finset.coe_Icc, Set.mem_sdiff,
    Set.mem_Icc, mem_iff]
  constructor
  · rintro ⟨c, hc, rfl⟩
    have := char_valid c
    exact ⟨hc, by omega⟩
  · rintro ⟨hin, hout⟩
    have := char_valid r.hi
    have hvalid : n.isValidChar := by
      unfold Nat.isValidChar
      omega
    exact ⟨Char.ofNat n, by rwa [toNat_ofNat hvalid], toNat_ofNat hvalid⟩

/-- A range has all surrogates between its ends or none, as its ends are no surrogates. -/
theorem size_eq_ncard (r : Range) : r.size = {c | c ∈ r}.ncard := by
  have horder := r.lo_le_hi
  have hlo := char_valid r.lo
  have hhi := char_valid r.hi
  have hinjective : Function.Injective Char.toNat := fun c d => Char.toNat_inj.1
  rw [← Set.ncard_image_of_injective _ hinjective, image_toNat, Set.ncard_coe_finset]
  unfold size
  by_cases hspan : r.lo.toNat ≤ 0xD7FF ∧ 0xE000 ≤ r.hi.toNat
  · have hsub : Finset.Icc 0xD800 0xDFFF ⊆ Finset.Icc r.lo.toNat r.hi.toNat :=
      Finset.Icc_subset_Icc (by omega) (by omega)
    rw [Finset.card_sdiff_of_subset hsub, Nat.card_Icc, Nat.card_Icc, if_pos (by simpa using hspan)]
    omega
  · have hdisjoint : Disjoint (Finset.Icc r.lo.toNat r.hi.toNat) (Finset.Icc 0xD800 0xDFFF) := by
      refine Finset.disjoint_left.2 fun n hn hsurrogate => ?_
      rw [Finset.mem_Icc] at hn hsurrogate
      omega
    rw [Finset.sdiff_eq_self_of_disjoint hdisjoint, Nat.card_Icc, if_neg (by simpa using hspan)]
    omega

/-- Ranges in order have no character in common, so their sizes add up. -/
theorem foldl_size {rs : List Range} (h : Sorted rs) (n : Nat) :
    rs.foldl (fun n r => n + r.size) n = n + {c | inSome rs c}.ncard := by
  induction rs generalizing n with
  | nil => simp
  | cons r rs ih =>
    have hunion : {c | inSome (r :: rs) c} = {c | c ∈ r} ∪ {c | inSome rs c} := by
      ext c
      exact inSome_cons r rs c
    have hdisjoint : Disjoint {c | c ∈ r} {c | inSome rs c} := by
      refine Set.disjoint_left.2 fun c hc hlater => ?_
      have := h.lo_of_inSome hlater
      exact absurd hc.2 (Nat.not_le_of_lt this)
    rw [List.foldl_cons, ih (List.pairwise_cons.1 h).2, hunion,
      Set.ncard_union_eq hdisjoint (finite_chars _) (finite_chars _), size_eq_ncard, Nat.add_assoc]

end Range

namespace CharSet

open Unicode

/-- The characters of a set. -/
def chars (s : CharSet) : Set Char := {c | c ∈ s}

@[simp] theorem mem_chars (s : CharSet) (c : Char) : c ∈ s.chars ↔ c ∈ s := Iff.rfl

theorem size_eq_ncard {s : CharSet} (h : s.Sorted) : s.size = s.chars.ncard := by
  rw [size, Range.foldl_size h, Nat.zero_add]
  rfl

theorem single?_iff {s : CharSet} (h : s.Sorted) (c : Char) :
    s.single? = some c ↔ s.chars = {c} := by
  have hmem (r : Range) (hr : r ∈ s.ranges) : r.lo ∈ s.chars ∧ r.hi ∈ s.chars :=
    ⟨⟨r, hr, r.lo_mem⟩, ⟨r, hr, r.hi_mem⟩⟩
  constructor
  · intro hsingle
    unfold single? at hsingle
    split at hsingle
    · rename_i r hranges
      split at hsingle
      · rename_i hends
        obtain rfl := Option.some.inj hsingle
        ext d
        rw [mem_chars, mem_iff, hranges, Range.inSome_cons, Range.mem_iff, ← hends]
        simp only [Range.inSome_nil, or_false, Set.mem_singleton_iff, ← Char.toNat_inj]
        omega
      · cases hsingle
    · cases hsingle
  · intro hchars
    have hends (r : Range) (hr : r ∈ s.ranges) : r.lo = c ∧ r.hi = c := by
      have := hmem r hr
      rwa [hchars] at this
    obtain ⟨r, hr, -⟩ : c ∈ s := by
      rw [← mem_chars, hchars]
      rfl
    unfold single?
    rcases hranges : s.ranges with _ | ⟨r₁, _ | ⟨r₂, rs⟩⟩
    · rw [hranges] at hr
      cases hr
    · obtain ⟨hlo, hhi⟩ := hends r₁ (by simp [hranges])
      simp [hlo, hhi]
    · -- two ranges in order do not both end at `c`
      have horder : Range.Sorted (r₁ :: r₂ :: rs) := hranges ▸ h
      have hlt := (List.pairwise_cons.1 horder).1 r₂ (by simp)
      rw [(hends r₁ (by simp [hranges])).2, (hends r₂ (by simp [hranges])).1] at hlt
      exact absurd hlt (Nat.lt_irrefl _)

/-! ## Questions -/

/-- No range is empty, so a set without ranges is the only one without members. -/
theorem isEmpty_iff (s : CharSet) : s.isEmpty = true ↔ ∀ c, ¬ c ∈ s := by
  refine ⟨not_mem_of_isEmpty, fun hnone => ?_⟩
  rcases hranges : s.ranges with _ | ⟨r, rs⟩
  · rw [isEmpty, hranges]
    rfl
  · exact absurd ⟨r, by simp [hranges], r.lo_mem⟩ (hnone r.lo)

theorem isSubset_iff {s t : CharSet} (hs : s.Sorted) (ht : t.Sorted) :
    s.isSubset t = true ↔ s.chars ⊆ t.chars := by
  rw [isSubset, isEmpty_iff]
  simp only [mem_minus hs ht, not_and_not_right]
  rfl

theorem isDisjoint_iff {s t : CharSet} (hs : s.Sorted) (ht : t.Sorted) :
    s.isDisjoint t = true ↔ Disjoint s.chars t.chars := by
  rw [isDisjoint, isEmpty_iff, Set.disjoint_left]
  simp only [mem_meet hs ht, not_and]
  rfl

/-! ## The distance between neighbours -/

theorem apart_empty : empty.Apart := List.Pairwise.nil

section
variable {s t : CharSet} {floor : Nat}

theorem apartFrom_join (h : s.ApartFrom floor) (t : CharSet) : (s.join t).ApartFrom floor := by
  unfold join
  split
  · exact h
  · exact (apart_ofRanges (s.ranges ++ t.ranges)).apartFrom floor

theorem apartFrom_meet (hs : s.ApartFrom floor) (ht : t.ApartFrom floor) :
    (s.meet t).ApartFrom floor := by
  unfold meet
  split
  · exact hs
  · split
    · exact apart_empty.apartFrom floor
    · exact Range.apartFrom_meetAll hs ht

theorem apartFrom_minus (h : s.ApartFrom floor) (t : CharSet) : (s.minus t).ApartFrom floor := by
  unfold minus
  split
  · exact h
  · exact Range.apartFrom_cutAll h t.ranges

/-- A marked set is not sorted again. -/
theorem apartFrom_closeCase (h : s.ApartFrom floor) : s.closeCase.ApartFrom floor := by
  unfold closeCase
  split
  · exact h
  · exact Range.Apart.apartFrom (Range.apart_canonical _) floor

theorem apartFrom_fold (h : s.ApartFrom floor) (flags : Flags) : (s.fold flags).ApartFrom floor := by
  have hascii : ascii.ApartFrom floor := (apart_ofRanges _).apartFrom floor
  unfold fold
  split
  · exact h
  · split
    · exact apartFrom_closeCase h
    · exact apartFrom_join (apartFrom_meet (apartFrom_closeCase (apartFrom_meet h hascii)) hascii) _

theorem apart_join (h : s.Apart) (t : CharSet) : (s.join t).Apart :=
  apartFrom_zero.1 (apartFrom_join (apartFrom_zero.2 h) t)

theorem apart_meet (hs : s.Apart) (ht : t.Apart) : (s.meet t).Apart :=
  apartFrom_zero.1 (apartFrom_meet (apartFrom_zero.2 hs) (apartFrom_zero.2 ht))

theorem apart_minus (h : s.Apart) (t : CharSet) : (s.minus t).Apart :=
  apartFrom_zero.1 (apartFrom_minus (apartFrom_zero.2 h) t)

theorem apart_fold (h : s.Apart) (flags : Flags) : (s.fold flags).Apart :=
  apartFrom_zero.1 (apartFrom_fold (apartFrom_zero.2 h) flags)

end

theorem apart_foldl_join {s : CharSet} (h : s.Apart) (sets : List CharSet) :
    (sets.foldl join s).Apart := by
  induction sets generalizing s with
  | nil => exact h
  | cons t sets ih => exact ih (apart_join h t)

theorem apart_joinAll (sets : List CharSet) : (joinAll sets).Apart :=
  apart_foldl_join apart_empty sets

theorem mem_foldl_join (sets : List CharSet) (s : CharSet) (c : Char) :
    c ∈ sets.foldl join s ↔ c ∈ s ∨ ∃ t ∈ sets, c ∈ t := by
  induction sets generalizing s with
  | nil => simp
  | cons t sets ih =>
    rw [List.foldl_cons, ih, mem_join, or_assoc]
    simp

theorem mem_joinAll (sets : List CharSet) (c : Char) :
    c ∈ joinAll sets ↔ ∃ s ∈ sets, c ∈ s := by
  rw [joinAll, mem_foldl_join]
  simp

/-! ## Sets made by the algebra -/

/-- Sets made from ranges by all operations but the complement. -/
inductive Made : CharSet → Prop
  | empty : Made empty
  | all : Made all
  | singleton (c : Char) : Made (singleton c)
  | span (a b : Char) : Made (span a b)
  | ofRanges (ends : List (Char × Char)) :
    Made (ofRanges (ends.map fun (a, b) => Range.between a b))
  | join {s t : CharSet} : Made s → Made t → Made (s.join t)
  | joinAll {sets : List CharSet} : (∀ s ∈ sets, Made s) → Made (joinAll sets)
  | meet {s t : CharSet} : Made s → Made t → Made (s.meet t)
  | minus {s t : CharSet} : Made s → Made t → Made (s.minus t)
  | fold (flags : Flags) {s : CharSet} : Made s → Made (s.fold flags)

theorem Made.apart {s : CharSet} (h : s.Made) : s.Apart := by
  induction h with
  | empty => exact apart_empty
  | all => exact apart_ofRanges _
  | singleton c => exact apart_ofRanges _
  | span a b => exact apart_ofRanges _
  | ofRanges ends => exact apart_ofRanges _
  | join _ _ hs _ => exact apart_join hs _
  | joinAll _ _ => exact apart_joinAll _
  | meet _ _ hs ht => exact apart_meet hs ht
  | minus _ _ hs _ => exact apart_minus hs _
  | fold flags _ hs => exact apart_fold hs flags

/-- The form in which a set is stored, the members of what the operations make of it and a second
one, and the answers to all questions about them. -/
structure Laws (s t : CharSet) : Prop where
  stored : s.ranges.Pairwise fun r r' => r.hi.toNat + 1 < r'.lo.toNat
  has : ∀ c, s.has c = true ↔ ∃ r ∈ s.ranges, r.lo ≤ c ∧ c ≤ r.hi
  chars : ∀ c, c ∈ s.chars ↔ s.has c = true
  join : (s.join t).chars = s.chars ∪ t.chars
  joinAll : ∀ sets, (CharSet.joinAll sets).chars = ⋃ u ∈ sets, u.chars
  meet : (s.meet t).chars = s.chars ∩ t.chars
  minus : (s.minus t).chars = s.chars \ t.chars
  isSubset : s.isSubset t = true ↔ s.chars ⊆ t.chars
  isDisjoint : s.isDisjoint t = true ↔ Disjoint s.chars t.chars
  size : s.size = s.chars.ncard
  single? : ∀ c, s.single? = some c ↔ s.chars = {c}

/-- Sets that are made without complements obey the laws of sets of characters. -/
theorem Made.laws {s t : CharSet} (hs : s.Made) (ht : t.Made) : Laws s t where
  stored := hs.apart
  has c := has_iff hs.apart.sorted c
  chars c := (has_iff hs.apart.sorted c).symm
  join := Set.ext (mem_join s t)
  joinAll sets := by
    ext c
    simp [mem_joinAll]
  meet := Set.ext (mem_meet hs.apart.sorted ht.apart.sorted)
  minus := Set.ext (mem_minus hs.apart.sorted ht.apart.sorted)
  isSubset := isSubset_iff hs.apart.sorted ht.apart.sorted
  isDisjoint := isDisjoint_iff hs.apart.sorted ht.apart.sorted
  size := size_eq_ncard hs.apart.sorted
  single? := single?_iff hs.apart.sorted

/-- The letters up to `k`, folded, and everything around the surrogates, from ends in both orders. -/
theorem Made.laws_surrogates :
    Laws ((CharSet.span 'a' 'k').fold { ignoreCase := true, unicode := true })
      ((CharSet.ofRanges [Range.between (Char.ofNat 0xE001) (Char.ofNat 0xD000),
        Range.between 'K' 'K']).minus (CharSet.singleton (Char.ofNat 0xE000))) :=
  Made.laws (.fold _ (.span 'a' 'k'))
    (.minus (.ofRanges [(Char.ofNat 0xE001, Char.ofNat 0xD000), ('K', 'K')])
      (.singleton (Char.ofNat 0xE000)))

end CharSet

end RegexAudit
