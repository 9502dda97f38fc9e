import RegexAudit.Proofs.Cases

/-!
# Complements

What the complement of a set stored with its ranges apart has in it. Between two neighbours it stores
the range from the character after the first to the character before the second. That is the gap
between them, with one exception: nothing lies between U+D7FF and U+E000, and there the two ends come
out in the wrong order, are put in order, and give a range with both characters in it. So everything
depends on whether the ranges meet at the surrogates without being one (`Split`):

    s.Apart → ¬ s.Split → (c ∈ s.complement ↔ ¬ c ∈ s)                    (mem_complement_iff)
    s.Apart → s.Split → U+D7FF ∈ s ∧ U+D7FF ∈ s.complement                (both_of_split)

The complement of a set that is not split is stored with its ranges apart again.
-/

namespace RegexAudit

namespace Range

/-- One range ends right before the surrogates, and another one starts right after them. -/
def Split (rs : List Range) : Prop :=
  (∃ r ∈ rs, r.hi.toNat = 0xD7FF) ∧ ∃ r ∈ rs, r.lo.toNat = 0xE000

theorem Split.cons {rs : List Range} (h : Split rs) (r : Range) : Split (r :: rs) := by
  obtain ⟨⟨a, ha, hhi⟩, b, hb, hlo⟩ := h
  exact ⟨⟨a, List.mem_cons_of_mem r ha, hhi⟩, b, List.mem_cons_of_mem r hb, hlo⟩

/-- Between two neighbours. -/
theorem mem_gap {r s : Range} {rs : List Range} (h : Apart (r :: s :: rs))
    (hsplit : ¬ Split (r :: s :: rs)) (c : Char) :
    c ∈ between (after r.hi) (before s.lo) ↔ r.hi.toNat < c.toNat ∧ c.toNat < s.lo.toNat := by
  have hends : ¬ (r.hi.toNat = 0xD7FF ∧ s.lo.toNat = 0xE000) := by
    rintro ⟨hhi, hlo⟩
    exact hsplit ⟨⟨r, by simp, hhi⟩, s, by simp, hlo⟩
  have hdistance := (List.pairwise_cons.1 h).1 s (by simp)
  have hr := char_valid r.hi
  have hs := char_valid s.lo
  have hc := char_valid c
  have hafter := toNat_after r.hi (by omega)
  have hbefore := toNat_before s.lo
  rw [mem_between]
  omega

/-- After the last range. -/
theorem mem_lastGap (r : Range) (c : Char) : inSome (gaps [r]) c ↔ r.hi.toNat < c.toNat := by
  have hc := char_valid c
  have htop := toNat_topChar
  simp only [gaps, char_lt_iff]
  split
  · rename_i hlt
    rw [inSome_cons, mem_high hlt]
    simp only [inSome_nil, or_false]
    omega
  · simp only [inSome_nil, false_iff]
    omega

theorem mem_gaps {rs : List Range} {r : Range} (h : Apart (r :: rs)) (hsplit : ¬ Split (r :: rs))
    (c : Char) : inSome (gaps (r :: rs)) c ↔ r.hi.toNat < c.toNat ∧ ¬ inSome rs c := by
  induction rs generalizing r with
  | nil => simp [mem_lastGap]
  | cons s ss ih =>
    have hlater : Apart (s :: ss) := (List.pairwise_cons.1 h).2
    have hdistance := (List.pairwise_cons.1 h).1 s (by simp)
    have hs := s.lo_le_hi
    rw [gaps, inSome_cons, mem_gap h hsplit, ih hlater fun hss => hsplit (hss.cons r), inSome_cons,
      mem_iff, not_or]
    constructor
    · rintro (⟨h1, h2⟩ | ⟨h1, h2⟩)
      · refine ⟨h1, by omega, fun hss => ?_⟩
        have := hlater.sorted.lo_of_inSome hss
        omega
      · exact ⟨by omega, by omega, h2⟩
    · rintro ⟨h1, h2, h3⟩
      by_cases hlt : c.toNat < s.lo.toNat
      · exact .inl ⟨h1, hlt⟩
      · exact .inr ⟨by omega, h3⟩

theorem apart_gaps {rs : List Range} {r : Range} (h : Apart (r :: rs)) (hsplit : ¬ Split (r :: rs)) :
    Apart (gaps (r :: rs)) := by
  induction rs generalizing r with
  | nil =>
    unfold gaps
    split
    · exact List.pairwise_singleton _ _
    · exact .nil
  | cons s ss ih =>
    have hlater : Apart (s :: ss) := (List.pairwise_cons.1 h).2
    have hsplit' : ¬ Split (s :: ss) := fun hss => hsplit (hss.cons r)
    have hs := s.lo_le_hi
    rw [gaps]
    refine List.pairwise_cons.2 ⟨fun g hg => ?_, ih hlater hsplit'⟩
    have hgap := (mem_gap h hsplit _).1 (hi_mem (between (after r.hi) (before s.lo)))
    have hnext := (mem_gaps hlater hsplit' g.lo).1 ⟨g, hg, g.lo_mem⟩
    omega

theorem mem_complement_iff {rs : List Range} (h : Apart rs) (hsplit : ¬ Split rs) (c : Char) :
    inSome (complement rs) c ↔ ¬ inSome rs c := by
  refine ⟨fun hc => ?_, inSome_complement⟩
  cases rs with
  | nil => exact inSome_nil c
  | cons r rs =>
    have hr := r.lo_le_hi
    rw [complement, inSome_append, mem_gaps h hsplit] at hc
    rcases hc with hc | ⟨hlast, hrs⟩
    · simp only [char_lt_iff] at hc
      split at hc
      · rename_i hlow
        rw [inSome_cons, mem_low hlow] at hc
        refine not_inSome_of_lt h.sorted ?_
        simp only [inSome_nil, or_false] at hc
        exact hc.2
      · exact absurd hc (inSome_nil c)
    · exact not_inSome_of_gt hlast hrs

theorem apart_complement {rs : List Range} (h : Apart rs) (hsplit : ¬ Split rs) :
    Apart (complement rs) := by
  cases rs with
  | nil => exact List.pairwise_singleton _ _
  | cons r rs =>
    have hr := r.lo_le_hi
    rw [complement]
    refine List.pairwise_append.2 ⟨?_, apart_gaps h hsplit, fun low hlow g hg => ?_⟩
    · split
      · exact List.pairwise_singleton _ _
      · exact .nil
    · simp only [char_lt_iff] at hlow
      split at hlow
      · rename_i hlt
        obtain rfl := List.mem_singleton.1 hlow
        have hlow := (mem_low hlt).1 (hi_mem (between (Char.ofNat 0) (before r.lo)))
        have hnext := (mem_gaps h hsplit g.lo).1 ⟨g, hg, g.lo_mem⟩
        omega
      · simp at hlow

/-- Where the ranges meet at the surrogates, the gap has its ends swapped. -/
theorem inSome_gaps_of_split {rs : List Range} {r : Range} (h : Apart (r :: rs))
    (hsplit : Split (r :: rs)) {c : Char} (hc : c.toNat = 0xD7FF) : inSome (gaps (r :: rs)) c := by
  induction rs generalizing r with
  | nil =>
    obtain ⟨⟨a, ha, hhi⟩, b, hb, hlo⟩ := hsplit
    rw [List.mem_singleton.1 ha] at hhi
    rw [List.mem_singleton.1 hb] at hlo
    have := r.lo_le_hi
    omega
  | cons s ss ih =>
    obtain ⟨hr, hlater⟩ := List.pairwise_cons.1 h
    obtain ⟨hs, -⟩ := List.pairwise_cons.1 hlater
    obtain ⟨⟨a, ha, hhi⟩, b, hb, hlo⟩ := hsplit
    have hdistance := hr s (by simp)
    have hrOrder := r.lo_le_hi
    have hsOrder := s.lo_le_hi
    rw [gaps, inSome_cons]
    by_cases hends : r.hi.toNat = 0xD7FF
    · -- no character is left between the two, so the range from U+E000 on comes next
      left
      have hsv := char_valid s.lo
      have hnext : s.lo.toNat = 0xE000 := by
        rcases List.mem_cons.1 hb with rfl | hb
        · omega
        · rcases List.mem_cons.1 hb with rfl | hb
          · exact hlo
          · have := hs b hb
            omega
      have hafter := toNat_after r.hi (by omega)
      have hbefore := toNat_before s.lo
      rw [mem_between]
      omega
    · right
      have ha' : a ∈ s :: ss := by
        rcases List.mem_cons.1 ha with rfl | ha
        · exact absurd hhi hends
        · exact ha
      have hb' : b ∈ s :: ss := by
        rcases List.mem_cons.1 hb with rfl | hb
        · have := hr a ha'
          have := a.lo_le_hi
          omega
        · exact hb
      exact ih hlater ⟨⟨a, ha', hhi⟩, b, hb', hlo⟩

end Range

namespace CharSet

/-- The stored ranges meet at the surrogates without being one. -/
def Split (s : CharSet) : Prop := Range.Split s.ranges

instance (s : CharSet) : Decidable s.Split :=
  inferInstanceAs (Decidable
    ((∃ r ∈ s.ranges, r.hi.toNat = 0xD7FF) ∧ ∃ r ∈ s.ranges, r.lo.toNat = 0xE000))

theorem not_split_of_not_mem {s : CharSet} (h : ¬ Char.ofNat 0xE000 ∈ s) : ¬ s.Split := by
  rintro ⟨-, r, hr, hlo⟩
  have hcode : r.lo = Char.ofNat 0xE000 := by
    rw [← Char.toNat_inj, hlo]
    rfl
  exact h ⟨r, hr, hcode ▸ r.lo_mem⟩

theorem mem_complement_iff {s : CharSet} (h : s.Apart) (hsplit : ¬ s.Split) (c : Char) :
    c ∈ s.complement ↔ ¬ c ∈ s :=
  Range.mem_complement_iff h hsplit c

theorem apart_complement {s : CharSet} (h : s.Apart) (hsplit : ¬ s.Split) : s.complement.Apart :=
  Range.apart_complement h hsplit

/-- A set that is split has the last character before the surrogates in common with its
complement. -/
theorem both_of_split {s : CharSet} (h : s.Apart) (hsplit : s.Split) :
    Char.ofNat 0xD7FF ∈ s ∧ Char.ofNat 0xD7FF ∈ s.complement := by
  have hcode : (Char.ofNat 0xD7FF).toNat = 0xD7FF := rfl
  constructor
  · obtain ⟨⟨r, hr, hhi⟩, -⟩ := hsplit
    exact ⟨r, hr, by rw [Range.mem_iff, hcode, ← hhi]; exact ⟨r.lo_le_hi, Nat.le_refl _⟩⟩
  · show Range.inSome (Range.complement s.ranges) _
    rcases hranges : s.ranges with _ | ⟨r, rs⟩
    · rw [Split, hranges] at hsplit
      obtain ⟨⟨r, hr, -⟩, -⟩ := hsplit
      cases hr
    · rw [Split, hranges] at hsplit
      rw [Apart, hranges] at h
      rw [Range.complement, Range.inSome_append]
      exact .inr (Range.inSome_gaps_of_split h hsplit hcode)

end CharSet

end RegexAudit
