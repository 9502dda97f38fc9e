import RegexAudit.CharSet.KnownProperties
import RegexAudit.Proofs.Complements
import RegexAudit.Proofs.SetAlgebra

/-!
# Folding

Folding a set adds what its members stand for, in whichever way it is done: all at once, or on each
side of the end of ASCII alone.

    c ∈ s.fold flags ↔ ∃ d ∈ s, flags.Folds d c                                     (mem_fold_iff)

A marked set is not folded again, so the mark has to be right (`Honest`); the algebra keeps it right
(`Made.honest`).
-/

namespace RegexAudit

open Unicode

/-- What a character stands for under some flags: with `i` everything equal to it up to case, but
nothing on the other side of the end of ASCII unless there is a `u` or a `v`. -/
def Flags.Folds (flags : Flags) (c d : Char) : Prop :=
  if flags.ignoreCase then
    SameCase c d ∧ (flags.unicodeMode = true ∨ (c.toNat < 0x80 ↔ d.toNat < 0x80))
  else c = d

namespace Flags

variable {flags : Flags} {c d e : Char}

theorem Folds.refl (flags : Flags) (c : Char) : flags.Folds c c := by
  unfold Folds
  split
  · exact ⟨.inl rfl, .inr Iff.rfl⟩
  · rfl

theorem Folds.symm (h : flags.Folds c d) : flags.Folds d c := by
  unfold Folds at h ⊢
  split
  · rename_i hcase
    rw [if_pos hcase] at h
    exact ⟨h.1.symm, h.2.imp_right Iff.symm⟩
  · rename_i hcase
    rw [if_neg hcase] at h
    exact h.symm

theorem Folds.trans (h : flags.Folds c d) (h' : flags.Folds d e) : flags.Folds c e := by
  unfold Folds at h h' ⊢
  split
  · rename_i hcase
    rw [if_pos hcase] at h h'
    refine ⟨h.1.trans h'.1, ?_⟩
    rcases h.2 with hmode | hside
    · exact .inl hmode
    · exact h'.2.imp_right hside.trans
  · rename_i hcase
    rw [if_neg hcase] at h h'
    exact h.trans h'

theorem Folds.sameCase (h : flags.Folds c d) : SameCase c d := by
  unfold Folds at h
  split at h
  · exact h.1
  · exact .inl h

theorem folds_legacy (hcase : flags.ignoreCase = true) (hmode : flags.unicodeMode = false) :
    flags.Folds c d ↔ SameCase c d ∧ (c.toNat < 0x80 ↔ d.toNat < 0x80) := by
  simp [Folds, hcase, hmode]

end Flags

/-- No character is equal to U+D7FF up to case. -/
theorem Unicode.SameCase.eq_of_lastBeforeSurrogates {c : Char}
    (h : SameCase c (Char.ofNat 0xD7FF)) : c = Char.ofNat 0xD7FF := by
  have hclasses : ∀ cs ∈ classes, 0xD7FF ∉ cs := by
    refine forall_classes (fun row hrow c hfirst hlast => ?_) (by decide)
    have := before_casePairs row hrow
    simp only [List.mem_cons, List.not_mem_nil, or_false]
    omega
  rcases h with h | ⟨cs, hcs, -, h⟩
  · exact h
  · exact absurd h (hclasses cs hcs)

namespace CharSet

variable {flags : Flags} {s t : CharSet}

/-! ## Marks -/

/-- A set that is marked as closed under case is closed. -/
def Honest (s : CharSet) : Prop := s.closed = true → ∀ c ∈ s, ∀ d, SameCase c d → d ∈ s

theorem Honest.closed_of_mark (h : s.Honest) (hmark : s.closed = true) :
    ∀ c ∈ s, ∀ d, flags.Folds c d → d ∈ s :=
  fun c hc d hcd => h hmark c hc d hcd.sameCase

theorem honest_of_unmarked (h : s.closed = false) : s.Honest := by
  intro hclosed
  rw [h] at hclosed
  cases hclosed

theorem honest_of_isEmpty (h : s.isEmpty = true) : s.Honest := fun _ c hc =>
  absurd hc (not_mem_of_isEmpty h c)

theorem honest_ofRanges (rs : List Range) : (ofRanges rs).Honest := by
  cases rs with
  | nil => exact honest_of_isEmpty rfl
  | cons r rs => exact honest_of_unmarked rfl

theorem honest_join (hs : s.Honest) (ht : t.Honest) : (s.join t).Honest := by
  intro hmark c hc d hcd
  rw [mem_join] at hc ⊢
  unfold join at hmark
  split at hmark
  · rename_i hjoined
    have hmem : c ∈ s := by
      rcases Bool.or_eq_true_iff.1 hjoined with hempty | hsame
      · exact hc.resolve_right (not_mem_of_isEmpty hempty c)
      · exact hc.elim id (mem_of_same hsame c).2
    exact .inl (hs hmark c hmem d hcd)
  · obtain ⟨hs', ht'⟩ := Bool.and_eq_true_iff.1 hmark
    exact hc.imp (hs hs' c · d hcd) (ht ht' c · d hcd)

theorem honest_foldl_join (hs : s.Honest) {sets : List CharSet} (h : ∀ t ∈ sets, t.Honest) :
    (sets.foldl join s).Honest := by
  induction sets generalizing s with
  | nil => exact hs
  | cons t sets ih =>
    rw [List.forall_mem_cons] at h
    exact ih (honest_join hs h.1) h.2

theorem honest_meet (hs : s.Sorted) (ht : t.Sorted) (hs' : s.Honest) (ht' : t.Honest) :
    (s.meet t).Honest := by
  intro hmark c hc d hcd
  rw [mem_meet hs ht] at hc ⊢
  unfold meet at hmark
  split at hmark
  · rename_i hempty
    exact absurd hc.1 (not_mem_of_isEmpty hempty c)
  · split at hmark
    · rename_i hempty
      exact absurd hc.2 (not_mem_of_isEmpty hempty c)
    · obtain ⟨hmark, hmark'⟩ := Bool.and_eq_true_iff.1 hmark
      exact hc.imp (hs' hmark c · d hcd) (ht' hmark' c · d hcd)

theorem honest_minus (hs : s.Sorted) (ht : t.Sorted) (hs' : s.Honest) (ht' : t.Honest) :
    (s.minus t).Honest := by
  intro hmark c hc d hcd
  rw [mem_minus hs ht] at hc ⊢
  unfold minus at hmark
  split at hmark
  · rename_i hempty
    refine ⟨hs' hmark c hc.1 d hcd, fun hd => ?_⟩
    rcases Bool.or_eq_true_iff.1 hempty with hempty | hempty
    · exact not_mem_of_isEmpty hempty c hc.1
    · exact not_mem_of_isEmpty hempty d hd
  · obtain ⟨hmark, hmark'⟩ := Bool.and_eq_true_iff.1 hmark
    exact ⟨hs' hmark c hc.1 d hcd, fun hd => hc.2 (ht' hmark' d hd c hcd.symm)⟩

theorem honest_complement (hs : s.Apart) (hsplit : ¬ s.Split) (hs' : s.Honest) :
    s.complement.Honest := by
  intro hmark c hc d hcd
  rw [mem_complement_iff hs hsplit] at hc ⊢
  intro hd
  rcases Bool.or_eq_true_iff.1 hmark with hempty | hmark
  · exact not_mem_of_isEmpty hempty d hd
  · exact hc (hs' hmark d hd c hcd.symm)

/-- Closing a set under case gives what the mark promises. -/
theorem mem_closeCase_iff (h : s.Honest) (d : Char) : d ∈ s.closeCase ↔ ∃ c ∈ s, SameCase c d := by
  cases hmark : s.closed with
  | false => exact mem_closeCase hmark d
  | true =>
    rw [closeCase, if_pos hmark]
    constructor
    · exact fun hd => ⟨d, hd, .inl rfl⟩
    · rintro ⟨c, hc, hcd⟩
      exact h hmark c hc d hcd

theorem honest_closeCase (h : s.Honest) : s.closeCase.Honest := by
  intro _ c hc d hcd
  rw [mem_closeCase_iff h] at hc ⊢
  obtain ⟨b, hb, hbc⟩ := hc
  exact ⟨b, hb, hbc.trans hcd⟩

theorem apart_ascii : ascii.Apart := apart_ofRanges _

theorem honest_ascii : ascii.Honest := honest_ofRanges _

theorem honest_fold (hs : s.Apart) (h : s.Honest) (flags : Flags) : (s.fold flags).Honest := by
  unfold fold
  split
  · exact h
  · split
    · exact honest_closeCase h
    · have hlow := apart_meet hs apart_ascii
      have hhigh := apart_minus hs ascii
      have hlowMark := honest_meet hs.sorted apart_ascii.sorted h honest_ascii
      have hhighMark := honest_minus hs.sorted apart_ascii.sorted h honest_ascii
      refine honest_join (honest_meet ?_ apart_ascii.sorted (honest_closeCase hlowMark) honest_ascii)
        (honest_minus ?_ apart_ascii.sorted (honest_closeCase hhighMark) honest_ascii)
      · exact (apartFrom_zero.1 (apartFrom_closeCase (apartFrom_zero.2 hlow))).sorted
      · exact (apartFrom_zero.1 (apartFrom_closeCase (apartFrom_zero.2 hhigh))).sorted

/-- Whatever is made from ranges is marked rightly. -/
theorem Made.honest (h : s.Made) : s.Honest := by
  induction h with
  | empty => exact honest_of_isEmpty rfl
  | all => exact honest_ofRanges _
  | singleton c => exact honest_ofRanges _
  | span a b => exact honest_ofRanges _
  | ofRanges ends => exact honest_ofRanges _
  | join _ _ hs ht => exact honest_join hs ht
  | joinAll _ hsets => exact honest_foldl_join (honest_of_isEmpty rfl) hsets
  | meet hs ht hs' ht' => exact honest_meet hs.apart.sorted ht.apart.sorted hs' ht'
  | minus hs ht hs' ht' => exact honest_minus hs.apart.sorted ht.apart.sorted hs' ht'
  | fold flags hs hs' => exact honest_fold hs.apart hs' flags

/-! ## Folding -/

/-- A set that is folded on both sides of the end of ASCII alone loses its mark. -/
theorem closeCaseApart_unmarked (h : s.isEmpty = false) :
    s.closeCaseApart = (⟨s.ranges, false⟩ : CharSet).closeCaseApart := by
  have hempty : (⟨s.ranges, false⟩ : CharSet).isEmpty = false := h
  have hascii : ascii.isEmpty = false := by decide
  have hmeet : s.meet ascii = (⟨s.ranges, false⟩ : CharSet).meet ascii := by
    simp [meet, h, hempty, hascii, show ascii.closed = false from rfl]
  have hminus : s.minus ascii = (⟨s.ranges, false⟩ : CharSet).minus ascii := by
    simp [minus, h, hempty, hascii, show ascii.closed = false from rfl]
  rw [closeCaseApart, closeCaseApart, hmeet, hminus]

theorem mem_closeCaseApart_iff (hs : s.Sorted) (d : Char) : d ∈ s.closeCaseApart ↔
    ∃ c ∈ s, SameCase c d ∧ (c.toNat < 0x80 ↔ d.toNat < 0x80) := by
  cases hempty : s.isEmpty with
  | false =>
    rw [closeCaseApart_unmarked hempty]
    have hunmarked : (⟨s.ranges, false⟩ : CharSet).closed = false := rfl
    exact mem_closeCaseApart hunmarked hs d
  | true =>
    obtain ⟨ranges, mark⟩ := s
    obtain rfl : ranges = [] := List.isEmpty_iff.1 hempty
    cases mark with
    | false => exact mem_closeCaseApart rfl hs d
    | true =>
      refine iff_of_false (not_mem_of_isEmpty rfl d) ?_
      rintro ⟨c, hc, -⟩
      exact not_mem_of_isEmpty hempty c hc

/-- Folding a set that is not marked as closed. -/
theorem mem_fold (h : s.closed = false) (hs : s.Sorted) (d : Char) :
    d ∈ s.fold flags ↔ ∃ c ∈ s, flags.Folds c d := by
  unfold Flags.Folds
  cases hcase : flags.ignoreCase with
  | false => simp [fold, hcase]
  | true =>
    cases hmode : flags.unicodeMode with
    | false => simpa using mem_fold_apart hcase hmode h hs d
    | true => simpa [fold, hcase, hmode] using mem_closeCase h d

/-- Folding adds what the members stand for. If the set is marked, they have to be there already. -/
theorem mem_fold_iff (hs : s.Sorted)
    (h : s.closed = true → ∀ c ∈ s, ∀ d, flags.Folds c d → d ∈ s) (d : Char) :
    d ∈ s.fold flags ↔ ∃ c ∈ s, flags.Folds c d := by
  cases hmark : s.closed with
  | false => exact mem_fold hmark hs d
  | true =>
    have hclosed : d ∈ s ↔ ∃ c ∈ s, flags.Folds c d :=
      ⟨fun hd => ⟨d, hd, .refl flags d⟩, fun ⟨c, hc, hcd⟩ => h hmark c hc d hcd⟩
    unfold fold
    split
    · exact hclosed
    · rename_i hcase
      split
      · rw [closeCase, if_pos hmark]
        exact hclosed
      · rename_i hpath
        simp only [Bool.not_eq_true', Bool.not_eq_false] at hcase
        simp only [Bool.or_eq_true, not_or, Bool.not_eq_true] at hpath
        rw [mem_closeCaseApart_iff hs]
        simp only [Flags.folds_legacy hcase hpath.1]

theorem mem_fold_of_mem (hs : s.Sorted) (flags : Flags) {c : Char} (hc : c ∈ s) :
    c ∈ s.fold flags := by
  unfold fold
  split
  · exact hc
  · split
    · cases hmark : s.closed with
      | false => exact (mem_closeCase hmark c).2 ⟨c, hc, .inl rfl⟩
      | true => rwa [closeCase, if_pos hmark]
    · exact (mem_closeCaseApart_iff hs c).2 ⟨c, hc, .inl rfl, Iff.rfl⟩

theorem sorted_closeCase (hs : s.Sorted) : s.closeCase.Sorted := by
  cases hmark : s.closed with
  | false => exact (apart_closeCase hmark).sorted
  | true =>
    rw [closeCase, if_pos hmark]
    exact hs

theorem sorted_closeCaseApart (hs : s.Sorted) : s.closeCaseApart.Sorted :=
  sorted_join (sorted_meet (sorted_closeCase (sorted_meet hs apart_ascii.sorted)) apart_ascii.sorted) _

theorem sorted_fold (hs : s.Sorted) (flags : Flags) : (s.fold flags).Sorted := by
  unfold fold
  split
  · exact hs
  · split
    · exact sorted_closeCase hs
    · exact sorted_closeCaseApart hs

/-- Where no class has members on both sides of the end of ASCII, it makes no difference whether the
sides are closed together or apart. -/
theorem mem_closeCase_apart (hs : s.Sorted) (h : s.Honest) (hnone : ∀ c ∈ s, c ∉ asciiBoundary)
    (d : Char) : d ∈ s.closeCase ↔ d ∈ s.closeCaseApart := by
  rw [mem_closeCase_iff h, mem_closeCaseApart_iff hs]
  exact exists_congr fun c => and_congr_right fun hc =>
    (and_iff_left_of_imp fun hcd => hcd.one_side (hnone c hc)).symm

/-- With `i` and without `u` and `v`, folding a set that is stored in order adds exactly what is equal
to a member up to case on the same side of the end of ASCII. If none of the letters in `asciiBoundary`
is a member, the two sides may as well be closed together. -/
theorem has_fold_legacy (hcase : flags.ignoreCase = true) (hmode : flags.unicodeMode = false)
    (hs : s.Sorted) (h : s.Honest) :
    (∀ c, (s.fold flags).has c = true ↔
      ∃ d, s.has d = true ∧ SameCase d c ∧ (d.toNat < 0x80 ↔ c.toNat < 0x80)) ∧
    (asciiBoundary.any s.has = false → ∀ c, s.closeCase.has c = s.closeCaseApart.has c) := by
  constructor
  · intro c
    rw [has_iff (sorted_fold hs flags), mem_fold_iff hs h.closed_of_mark]
    exact exists_congr fun d => and_congr (has_iff hs d).symm (Flags.folds_legacy hcase hmode)
  · intro hnone c
    rw [Bool.eq_iff_iff, has_iff (sorted_closeCase hs), has_iff (sorted_closeCaseApart hs)]
    refine mem_closeCase_apart hs h (fun d hd hboundary => ?_) c
    exact List.any_eq_false.1 hnone d hboundary ((has_iff hs d).2 hd)

/-- The characters from `[` to U+0131 have `k` among them, but not U+212A: folding brings in `K` and
leaves U+212A out. Without `k` and `s` both ways agree on `Q`. -/
theorem has_fold_legacy_letters :
    let flags : Flags := { ignoreCase := true }
    let s := span '[' (Char.ofNat 0x131)
    let t := s.minus (ofRanges [Range.between 'k' 'k', Range.between 's' 's'])
    s.Sorted ∧ s.Honest ∧ (s.fold flags).has 'K' = true ∧
      (s.fold flags).has (Char.ofNat 0x212A) = false ∧
        asciiBoundary.any t.has = false ∧ t.closeCase.has 'Q' = t.closeCaseApart.has 'Q' := by
  intro flags s t
  have hs : s.Made := .span _ _
  have ht : t.Made := .minus hs (.ofRanges [('k', 'k'), ('s', 's')])
  have hkelvin : [0x4B, 0x6B, 0x212A] ∈ classes := by decide +kernel
  have hnone : asciiBoundary.any t.has = false := by decide +kernel
  have hfold := (@has_fold_legacy flags s rfl rfl hs.apart.sorted hs.honest).1
  refine ⟨hs.apart.sorted, hs.honest, (hfold 'K').2 ⟨'k', by decide +kernel, .inr ?_, by decide⟩, ?_,
    hnone, (@has_fold_legacy flags t rfl rfl ht.apart.sorted ht.honest).2 hnone 'Q'⟩
  · exact ⟨_, hkelvin, by decide, by decide⟩
  · refine Bool.eq_false_iff.2 fun hmem => ?_
    obtain ⟨d, hd, hcase, hside⟩ := (hfold _).1 hmem
    have hcode : (Char.ofNat 0x212A).toNat = 0x212A := rfl
    have heq : d = Char.ofNat 0x212A := by
      rcases hcase with heq | ⟨cs, hcs, hdcs, hcs'⟩
      · exact heq
      · rw [← Char.toNat_inj]
        obtain rfl := eq_of_mem_classes hcs hkelvin hcs' (by decide)
        simp only [List.mem_cons, List.not_mem_nil, or_false] at hdcs
        omega
    rw [heq] at hd
    revert hd
    decide +kernel

end CharSet

/-! ## Sets of properties -/

/-- Every set of a property is stored with its ranges apart and marked rightly. -/
def Properties.Canonical [Properties] : Prop :=
  ∀ key value s, Properties.set? key value = some s → s.Apart ∧ s.Honest

/-- The known properties are stored so. -/
theorem canonical_knownProperties : Properties.Canonical := by
  intro key value s h
  obtain ⟨table, -, rfl⟩ := Option.map_eq_some_iff.1 h
  exact ⟨CharSet.apart_ofRanges _, CharSet.honest_ofRanges _⟩

end RegexAudit
