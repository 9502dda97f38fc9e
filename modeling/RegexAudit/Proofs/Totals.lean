import Mathlib.Algebra.Ring.Nat
import Mathlib.Order.Interval.Set.OrdConnected
import RegexAudit.Bounds

/-!
# Totals of nested quantifiers

How often something is repeated by a quantifier over a quantifier. `inner.totals outer` holds the sums
of as many counts, each of them allowed by `inner`, as `outer` allows. `combine?` gives bounds if and
only if the totals have no gaps and their ends can be written:

    inner.combine? outer = some bounds ↔
      bounds.IsRangeOf (inner.totals outer) ∧ bounds.Written                     (combine?_exact)

Counts that can be written are so small that the computation never leaves the words of 64 bits
(`combineInWords?`).
-/

namespace RegexAudit.Bounds

/-! ## Totals -/

/-- A number of repetitions within the bounds. -/
def Allows (bounds : Bounds) (n : Nat) : Prop :=
  bounds.min ≤ n ∧ ∀ m, bounds.max = some m → n ≤ m

/-- The sums of as many counts within `inner` as `outer` allows. -/
def totals (inner outer : Bounds) : Set Nat :=
  {n | ∃ counts : List Nat,
    outer.Allows counts.length ∧ (∀ count ∈ counts, inner.Allows count) ∧ counts.sum = n}

/-- The set is the whole range from the least to the greatest bound, or from the least one on. -/
structure IsRangeOf (bounds : Bounds) (totals : Set Nat) : Prop where
  connected : totals.OrdConnected
  least : IsLeast totals bounds.min
  greatest : ∀ m, bounds.max = some m → IsGreatest totals m
  unbounded : bounds.max = none → ¬ BddAbove totals

/-- Both bounds can be written. -/
structure Written (bounds : Bounds) : Prop where
  min_le : bounds.min ≤ limit
  max_le : ∀ m, bounds.max = some m → m ≤ limit

section
variable {inner outer bounds : Bounds} {k n : Nat}

theorem allows_min (bounds : Bounds) : bounds.Allows bounds.min :=
  ⟨Nat.le_refl _, bounds.ordered⟩

theorem Allows.of_le (h : bounds.Allows k) (hn : bounds.min ≤ n) (hle : n ≤ k) : bounds.Allows n :=
  ⟨hn, fun m hm => Nat.le_trans hle (h.2 m hm)⟩

theorem exists_allows_pos (h : bounds.max ≠ some 0) : ∃ k, bounds.Allows k ∧ 0 < k := by
  rcases Nat.eq_zero_or_pos bounds.min with hzero | hpos
  · refine ⟨1, ⟨by omega, fun m hm => Nat.one_le_iff_ne_zero.2 ?_⟩, Nat.one_pos⟩
    rintro rfl
    exact h hm
  · exact ⟨bounds.min, allows_min bounds, hpos⟩

/-- Bounds that are no single count allow one more than the least. -/
theorem allows_succ_min (h : bounds.isFixed = false) : bounds.Allows (bounds.min + 1) := by
  refine ⟨Nat.le_succ _, fun m hm => ?_⟩
  rw [isFixed, hm, beq_eq_false_iff_ne] at h
  have hne : m ≠ bounds.min := fun heq => h (congrArg some heq)
  have hle := bounds.ordered m hm
  omega

/-- Between the least and the greatest sum of `k` counts. -/
def Reaches (inner : Bounds) (k n : Nat) : Prop :=
  inner.min * k ≤ n ∧ (∀ m, inner.max = some m → n ≤ m * k) ∧ (k = 0 → n = 0)

/-- Of `k + 1` counts the first can take all it may; the others get by with the least. -/
theorem Reaches.exists_first (h : inner.Reaches (k + 1) n) :
    ∃ count, inner.Allows count ∧ count ≤ n ∧ inner.Reaches k (n - count) := by
  obtain ⟨hleast, hgreatest, -⟩ := h
  rw [Nat.mul_succ] at hleast
  by_cases hall : inner.Allows (n - inner.min * k)
  · refine ⟨n - inner.min * k, hall, Nat.sub_le _ _, by omega, fun m hm => ?_, ?_⟩
    · have hmul := Nat.mul_le_mul_right k (inner.ordered m hm)
      omega
    · rintro rfl
      omega
  · obtain ⟨m, hm, hlt⟩ : ∃ m, inner.max = some m ∧ m < n - inner.min * k := by
      by_contra hno
      exact hall ⟨by omega, fun m hm => Nat.le_of_not_lt fun hlt => hno ⟨m, hm, hlt⟩⟩
    have hn := hgreatest m hm
    rw [Nat.mul_succ] at hn
    refine ⟨m, ⟨inner.ordered m hm, by simp [hm]⟩, by omega, by omega, ?_, ?_⟩
    · rintro _ heq
      rw [hm] at heq
      cases heq
      omega
    · rintro rfl
      omega

/-- Sums of `k` counts fill the range from `k` times the least to `k` times the greatest. -/
theorem reaches_iff : inner.Reaches k n ↔ ∃ counts : List Nat,
    counts.length = k ∧ (∀ count ∈ counts, inner.Allows count) ∧ counts.sum = n := by
  induction k generalizing n with
  | zero =>
    constructor
    · rintro ⟨-, -, hzero⟩
      exact ⟨[], rfl, by simp, (hzero rfl).symm⟩
    · rintro ⟨counts, hlength, -, rfl⟩
      rw [List.length_eq_zero_iff.1 hlength]
      simp [Reaches]
  | succ k ih =>
    constructor
    · intro h
      obtain ⟨count, hcount, hle, hrest⟩ := h.exists_first
      obtain ⟨counts, rfl, hcounts, hsum⟩ := ih.1 hrest
      refine ⟨count :: counts, rfl, List.forall_mem_cons.2 ⟨hcount, hcounts⟩, ?_⟩
      rw [List.sum_cons, hsum]
      omega
    · rintro ⟨counts, hlength, hcounts, rfl⟩
      obtain ⟨count, counts, rfl⟩ := List.exists_cons_of_length_eq_add_one hlength
      rw [List.forall_mem_cons] at hcounts
      obtain ⟨hleast, hgreatest, -⟩ := ih.2 ⟨counts, Nat.succ.inj hlength, hcounts.2, rfl⟩
      rw [List.sum_cons]
      refine ⟨?_, fun m hm => ?_, nofun⟩
      · have hcount := hcounts.1.1
        rw [Nat.mul_succ]
        omega
      · have hcount := hcounts.1.2 m hm
        have hrest := hgreatest m hm
        rw [Nat.mul_succ]
        omega

theorem mem_totals : n ∈ inner.totals outer ↔ ∃ k, outer.Allows k ∧ inner.Reaches k n := by
  simp only [reaches_iff]
  constructor
  · rintro ⟨counts, hlength, hcounts⟩
    exact ⟨counts.length, hlength, counts, rfl, hcounts⟩
  · rintro ⟨_, hlength, counts, rfl, hcounts⟩
    exact ⟨counts, hlength, hcounts⟩

/-- The least count, as often as allowed. -/
theorem min_mul_mem_totals (inner : Bounds) (h : outer.Allows k) : inner.min * k ∈ inner.totals outer :=
  mem_totals.2 ⟨k, h, Nat.le_refl _, fun m hm => Nat.mul_le_mul_right k (inner.ordered m hm),
    by simp +contextual⟩

/-- The greatest count, as often as allowed. -/
theorem max_mul_mem_totals {m : Nat} (hm : inner.max = some m) (h : outer.Allows k) :
    m * k ∈ inner.totals outer := by
  refine mem_totals.2 ⟨k, h, Nat.mul_le_mul_right k (inner.ordered m hm), fun m' hm' => ?_,
    by simp +contextual⟩
  rw [hm] at hm'
  cases hm'
  exact Nat.le_refl _

/-! ## Ends -/

theorem isLeast_totals (inner outer : Bounds) :
    IsLeast (inner.totals outer) (inner.min * outer.min) := by
  refine ⟨min_mul_mem_totals inner (allows_min outer), fun n hn => ?_⟩
  obtain ⟨k, hk, hleast, -⟩ := mem_totals.1 hn
  exact Nat.le_trans (Nat.mul_le_mul_left _ hk.1) hleast

/-- If nothing is added in a round, or there is no round, all totals are 0. -/
theorem isGreatest_totals_zero (h : inner.max = some 0 ∨ outer.max = some 0) :
    IsGreatest (inner.totals outer) 0 := by
  have hzero {n : Nat} (hn : n ∈ inner.totals outer) : n = 0 := by
    obtain ⟨k, hk, -, hgreatest, hnone⟩ := mem_totals.1 hn
    rcases h with h | h
    · have := hgreatest 0 h
      omega
    · exact hnone (Nat.le_zero.1 (hk.2 0 h))
  refine ⟨?_, fun n hn => (hzero hn).le⟩
  have hleast := (isLeast_totals inner outer).1
  rwa [hzero hleast] at hleast

theorem isGreatest_totals {b d : Nat} (hb : inner.max = some b) (hd : outer.max = some d) :
    IsGreatest (inner.totals outer) (b * d) := by
  have hallows : outer.Allows d :=
    ⟨outer.ordered d hd, fun m hm => by rw [hd] at hm; cases hm; exact Nat.le_refl _⟩
  refine ⟨max_mul_mem_totals hb hallows, fun n hn => ?_⟩
  obtain ⟨k, hk, -, hgreatest, -⟩ := mem_totals.1 hn
  exact Nat.le_trans (hgreatest b hb) (Nat.mul_le_mul_left b (hk.2 d hd))

/-- Without end in one of the two, and with a round in which something is added, there is no greatest
total. -/
theorem not_bddAbove_totals (hinner : inner.max ≠ some 0) (houter : outer.max ≠ some 0)
    (h : inner.max = none ∨ outer.max = none) : ¬ BddAbove (inner.totals outer) := by
  rintro ⟨bound, hbound⟩
  cases hmax : inner.max with
  | none =>
    obtain ⟨k, hallows, hpos⟩ := exists_allows_pos houter
    have hmem : inner.min * k + bound + 1 ∈ inner.totals outer :=
      mem_totals.2 ⟨k, hallows, by omega, by simp [hmax], by omega⟩
    have hle := hbound hmem
    omega
  | some b =>
    have hb : 1 ≤ b := by
      rw [hmax] at hinner
      exact Nat.one_le_iff_ne_zero.2 fun h => hinner (congrArg some h)
    have hunbounded : outer.max = none := h.resolve_left (by simp [hmax])
    have hallows : outer.Allows (outer.min + bound + 1) := ⟨by omega, by simp [hunbounded]⟩
    have hle := hbound (max_mul_mem_totals hmax hallows)
    have hmul := Nat.mul_le_mul_right (outer.min + bound + 1) hb
    omega

theorem totalMax_cases (inner outer : Bounds) :
    (inner.totalMax outer = some 0 ∧ (inner.max = some 0 ∨ outer.max = some 0)) ∨
      (∃ b d, inner.totalMax outer = some (b * d) ∧ inner.max = some b ∧ outer.max = some d) ∨
        inner.totalMax outer = none ∧ inner.max ≠ some 0 ∧ outer.max ≠ some 0 ∧
          (inner.max = none ∨ outer.max = none) := by
  unfold totalMax
  split
  · exact .inl ⟨rfl, .inl ‹_›⟩
  · exact .inl ⟨rfl, .inr ‹_›⟩
  · exact .inr (.inl ⟨_, _, rfl, ‹_›, ‹_›⟩)
  · rename_i hinner houter hboth
    refine .inr (.inr ⟨rfl, hinner, houter, ?_⟩)
    cases hb : inner.max with
    | none => exact .inl rfl
    | some b =>
      cases hd : outer.max with
      | none => exact .inr rfl
      | some d => exact absurd hd (hboth b d hb)

/-! ## Gaps -/

/-- Below a total of `k` rounds the ranges of fewer rounds overlap or touch. -/
theorem exists_rounds {a b c : Nat} (hab : a ≤ b) (hgap : a * (c + 1) ≤ b * c + 1) (hn : a * c ≤ n)
    (hk : c ≤ k) (hle : n ≤ b * k) : ∃ j, c ≤ j ∧ j ≤ k ∧ a * j ≤ n ∧ n ≤ b * j := by
  induction k, hk using Nat.le_induction with
  | base => exact ⟨c, Nat.le_refl _, Nat.le_refl _, hn, hle⟩
  | succ k hk ih =>
    by_cases hless : n ≤ b * k
    · obtain ⟨j, hj, hjk, hj'⟩ := ih hless
      exact ⟨j, hj, Nat.le_succ_of_le hjk, hj'⟩
    · refine ⟨k + 1, by omega, Nat.le_refl _, ?_, hle⟩
      obtain ⟨more, rfl⟩ := Nat.exists_eq_add_of_le hk
      have hmore : a * more ≤ b * more := Nat.mul_le_mul_right more hab
      calc a * (c + more + 1) = a * (c + 1) + a * more := by rw [← Nat.mul_add]; congr 1; omega
        _ ≤ b * c + 1 + b * more := Nat.add_le_add hgap hmore
        _ = b * (c + more) + 1 := by rw [Nat.mul_add]; omega
        _ ≤ n := by omega

theorem ordConnected_totals (h : inner.hasNoGaps outer = true) :
    (inner.totals outer).OrdConnected := by
  refine ⟨fun x hx y hy n hn => ?_⟩
  have hleast : inner.min * outer.min ≤ n := Nat.le_trans ((isLeast_totals inner outer).2 hx) hn.1
  obtain ⟨k, hk, -, hgreatest, hnone⟩ := mem_totals.1 hy
  rw [hasNoGaps, Bool.or_eq_true] at h
  cases hfixed : outer.isFixed with
  | true =>
    rw [isFixed, beq_iff_eq] at hfixed
    obtain rfl : k = outer.min := Nat.le_antisymm (hk.2 _ hfixed) hk.1
    refine mem_totals.2 ⟨outer.min, hk, hleast, fun m hm => Nat.le_trans hn.2 (hgreatest m hm),
      fun hzero => ?_⟩
    have := hnone hzero
    have := hn.2
    omega
  | false =>
    replace h := h.resolve_left (by simp [hfixed])
    cases hmax : inner.max with
    | none =>
      rw [hmax, Bool.or_eq_true, decide_eq_true_eq, decide_eq_true_eq] at h
      have hnone {j : Nat} (hj : outer.Allows j) (hle : inner.min * j ≤ n) (hzero : j = 0 → n = 0) :
          n ∈ inner.totals outer := mem_totals.2 ⟨j, hj, hle, by simp [hmax], hzero⟩
      by_cases hpos : 0 < outer.min
      · exact hnone (allows_min outer) hleast (by omega)
      · have hzero : outer.min = 0 := by omega
        by_cases hn0 : n = 0
        · exact hnone (allows_min outer) hleast fun _ => hn0
        · have hone : outer.Allows 1 := by
            have hk1 : k ≠ 0 := fun hk0 => hn0 (Nat.le_zero.1 (by
              have := hn.2
              have := ‹k = 0 → y = 0› hk0
              omega))
            exact hk.of_le (by omega) (by omega)
          exact hnone hone (by omega) (by omega)
    | some b =>
      rw [hmax, decide_eq_true_eq] at h
      obtain ⟨j, hj, hjk, hlow, hhigh⟩ := exists_rounds (inner.ordered b hmax) h hleast hk.1
        (Nat.le_trans hn.2 (hgreatest b hmax))
      refine mem_totals.2 ⟨j, hk.of_le hj hjk, hlow, ?_, ?_⟩
      · rintro _ heq
        rw [hmax] at heq
        cases heq
        exact hhigh
      · rintro rfl
        simpa using hhigh

/-- The ranges of the fewest rounds and of one round more leave the number between them out. -/
theorem not_ordConnected_totals (h : inner.hasNoGaps outer = false) :
    ¬ (inner.totals outer).OrdConnected := by
  intro hconnected
  rw [hasNoGaps, Bool.or_eq_false_iff] at h
  obtain ⟨hfixed, h⟩ := h
  have hmore := min_mul_mem_totals inner (allows_succ_min hfixed)
  cases hmax : inner.max with
  | none =>
    rw [hmax, Bool.or_eq_false_iff, decide_eq_false_iff_not, decide_eq_false_iff_not] at h
    have hzero : outer.min = 0 := by omega
    have hleast := (isLeast_totals inner outer).1
    rw [hzero] at hleast hmore
    obtain ⟨k, -, hlow, -, hnone⟩ := mem_totals.1
      (hconnected.out hleast hmore ⟨by omega, by omega⟩ : 1 ∈ inner.totals outer)
    rcases Nat.eq_zero_or_pos k with hk | hk
    · exact absurd (hnone hk) (by decide)
    · have := Nat.mul_le_mul_left inner.min hk
      omega
  | some b =>
    rw [hmax, decide_eq_false_iff_not] at h
    have hmem : b * outer.min + 1 ∈ inner.totals outer :=
      hconnected.out (max_mul_mem_totals hmax (allows_min outer)) hmore ⟨by omega, by omega⟩
    obtain ⟨k, hk, hlow, hhigh, -⟩ := mem_totals.1 hmem
    rcases Nat.lt_or_ge outer.min k with hlt | hge
    · have hmul : inner.min * (outer.min + 1) ≤ inner.min * k := Nat.mul_le_mul_left _ hlt
      omega
    · have := hhigh b hmax
      have := Nat.mul_le_mul_left b hge
      omega

theorem hasNoGaps_iff : inner.hasNoGaps outer = true ↔ (inner.totals outer).OrdConnected := by
  constructor
  · exact ordConnected_totals
  · intro h
    by_contra hgaps
    exact not_ordConnected_totals (Bool.eq_false_iff.2 hgaps) h

/-! ## Combined bounds -/

theorem ext_iff : bounds = inner ↔ bounds.min = inner.min ∧ bounds.max = inner.max := by
  cases bounds
  cases inner
  simp

theorem min_le_totalMax (inner outer : Bounds) :
    ∀ m, inner.totalMax outer = some m → inner.min * outer.min ≤ m := by
  intro m hm
  obtain ⟨hmax, h⟩ | ⟨b, d, hmax, hb, hd⟩ | ⟨hmax, -⟩ := totalMax_cases inner outer
  · rw [hmax] at hm
    cases hm
    exact (isGreatest_totals_zero h).2 (isLeast_totals inner outer).1
  · rw [hmax] at hm
    cases hm
    exact (isGreatest_totals hb hd).2 (isLeast_totals inner outer).1
  · rw [hmax] at hm
    cases hm

/-- The bounds of all totals, gaps or not. -/
def ofTotals (inner outer : Bounds) : Bounds :=
  ⟨inner.min * outer.min, inner.totalMax outer, min_le_totalMax inner outer⟩

theorem make?_totals (inner outer : Bounds) :
    make? (inner.min * outer.min) (inner.totalMax outer) = some (inner.ofTotals outer) := by
  have hordered := min_le_totalMax inner outer
  cases hmax : inner.totalMax outer with
  | none => simp [make?, ofTotals, hmax]
  | some m => simp [make?, ofTotals, hmax, hordered m hmax]

/-- Whatever has these totals as its range has these bounds. -/
theorem isRangeOf_totals_iff : bounds.IsRangeOf (inner.totals outer) ↔
    inner.hasNoGaps outer = true ∧ bounds = inner.ofTotals outer := by
  have hleast := isLeast_totals inner outer
  have hmax := totalMax_cases inner outer
  rw [hasNoGaps_iff, ext_iff]
  constructor
  · intro h
    refine ⟨h.connected, h.least.unique hleast, ?_⟩
    show bounds.max = inner.totalMax outer
    have hgreatest {m : Nat} (hm : IsGreatest (inner.totals outer) m) : bounds.max = some m := by
      cases hbounds : bounds.max with
      | none => exact absurd hm.bddAbove (h.unbounded hbounds)
      | some m' => rw [(h.greatest m' hbounds).unique hm]
    obtain ⟨hmax, hzero⟩ | ⟨b, d, hmax, hb, hd⟩ | ⟨hmax, hinner, houter, hnone⟩ := hmax
    · rw [hmax]
      exact hgreatest (isGreatest_totals_zero hzero)
    · rw [hmax]
      exact hgreatest (isGreatest_totals hb hd)
    · rw [hmax]
      cases hbounds : bounds.max with
      | none => rfl
      | some m =>
        exact absurd (h.greatest m hbounds).bddAbove (not_bddAbove_totals hinner houter hnone)
  · rintro ⟨hconnected, hmin, htotal⟩
    change bounds.min = inner.min * outer.min at hmin
    change bounds.max = inner.totalMax outer at htotal
    refine ⟨hconnected, hmin ▸ hleast, fun m hm => ?_, fun hnone => ?_⟩
    · rw [htotal] at hm
      obtain ⟨hmax, hzero⟩ | ⟨b, d, hmax, hb, hd⟩ | ⟨hmax, -⟩ := hmax
      · rw [hmax] at hm
        cases hm
        exact isGreatest_totals_zero hzero
      · rw [hmax] at hm
        cases hm
        exact isGreatest_totals hb hd
      · rw [hmax] at hm
        cases hm
    · rw [htotal] at hnone
      obtain ⟨hmax, -⟩ | ⟨b, d, hmax, -⟩ | ⟨-, hinner, houter, h⟩ := hmax
      · rw [hmax] at hnone
        cases hnone
      · rw [hmax] at hnone
        cases hnone
      · exact not_bddAbove_totals hinner houter h

theorem written_ofTotals_iff : (inner.ofTotals outer).Written ↔
    inner.min * outer.min ≤ limit ∧ (inner.totalMax outer).any (fun m => decide (limit < m)) = false := by
  constructor
  · rintro ⟨hmin, hmax⟩
    refine ⟨hmin, Bool.eq_false_iff.2 fun hany => ?_⟩
    obtain ⟨m, hm, hlimit⟩ := (Option.any_eq_true _ _).1 hany
    have hle := hmax m hm
    rw [decide_eq_true_eq] at hlimit
    omega
  · rintro ⟨hmin, hmax⟩
    refine ⟨hmin, fun m hm => ?_⟩
    change inner.totalMax outer = some m at hm
    rw [hm, Option.any_some, decide_eq_false_iff_not] at hmax
    omega

theorem combine?_eq_some_iff : inner.combine? outer = some bounds ↔
    inner.hasNoGaps outer = true ∧ (inner.ofTotals outer).Written ∧ bounds = inner.ofTotals outer := by
  simp only [combine?, make?_totals, written_ofTotals_iff]
  by_cases hgaps : inner.hasNoGaps outer = true
  · by_cases hmin : inner.min * outer.min ≤ limit
    · cases hmax : (inner.totalMax outer).any fun m => decide (limit < m)
      · simp [hgaps, hmin, eq_comm]
      · simp [hgaps, hmin]
    · simp [hgaps, hmin, Nat.lt_of_not_le hmin]
  · simp [hgaps]

end

/-! ## Words -/

/-- A number that a word of 64 bits holds. -/
def word? (n : Nat) : Option Nat := if n < 2 ^ 64 then some n else none

/-- `hasNoGaps` in words: nothing if a number does not fit. -/
def hasNoGapsInWords? (inner outer : Bounds) : Option Bool :=
  if outer.isFixed then some true
  else
    match inner.max with
    | none => some (decide (0 < outer.min) || decide (inner.min ≤ 1))
    | some b => do
      let greatest ← word? (b * outer.min)
      let next ← word? (greatest + 1)
      let rounds ← word? (outer.min + 1)
      let least ← word? (inner.min * rounds)
      return decide (least ≤ next)

/-- `totalMax` in words. -/
def totalMaxInWords? (inner outer : Bounds) : Option (Option Nat) :=
  match inner.max, outer.max with
  | some 0, _ => some (some 0)
  | _, some 0 => some (some 0)
  | some b, some d => (word? (b * d)).map some
  | _, _ => some none

/-- `combine?` in words. Nothing comes of it if a number does not fit in its word, or if the bounds
that are found are not in order. -/
def combineInWords? (inner outer : Bounds) : Option (Option Bounds) := do
  let combinable ← hasNoGapsInWords? inner outer
  if !combinable then return none
  let min ← word? (inner.min * outer.min)
  if limit < min then return none
  let max ← totalMaxInWords? inner outer
  if max.any fun m => decide (limit < m) then return none
  let bounds ← make? min max
  return some bounds

theorem word?_eq {n : Nat} (h : n ≤ limit * (limit + 1)) : word? n = some n :=
  if_pos (Nat.lt_of_le_of_lt h (by decide))

section
variable {inner outer : Bounds}

theorem hasNoGapsInWords?_eq (hinner : inner.Written) (houter : outer.Written) :
    hasNoGapsInWords? inner outer = some (inner.hasNoGaps outer) := by
  unfold hasNoGapsInWords? hasNoGaps
  cases outer.isFixed with
  | true => rfl
  | false =>
    cases hmax : inner.max with
    | none => rfl
    | some b =>
      have hlimit : limit * limit + 1 ≤ limit * (limit + 1) := by decide
      have hrounds : outer.min + 1 ≤ limit + 1 := Nat.succ_le_succ houter.min_le
      have hgreatest : b * outer.min ≤ limit * limit :=
        Nat.mul_le_mul (hinner.max_le b hmax) houter.min_le
      have hleast : inner.min * (outer.min + 1) ≤ limit * (limit + 1) :=
        Nat.mul_le_mul hinner.min_le hrounds
      have hword : limit + 1 ≤ limit * (limit + 1) := by decide
      simp only [Bool.false_eq_true, ↓reduceIte, Bool.false_or]
      rw [word?_eq (by omega : b * outer.min ≤ _), Option.bind_eq_bind, Option.bind_some,
        word?_eq (by omega : b * outer.min + 1 ≤ _), Option.bind_some,
        word?_eq (Nat.le_trans hrounds hword), Option.bind_some, word?_eq hleast]
      rfl

theorem totalMaxInWords?_eq (hinner : inner.Written) (houter : outer.Written) :
    totalMaxInWords? inner outer = some (inner.totalMax outer) := by
  unfold totalMaxInWords? totalMax
  cases hb : inner.max with
  | none =>
    cases outer.max with
    | none => rfl
    | some d => cases d <;> rfl
  | some b =>
    cases hd : outer.max with
    | none => cases b <;> rfl
    | some d =>
      have hle : b * d ≤ limit * limit := Nat.mul_le_mul (hinner.max_le b hb) (houter.max_le d hd)
      have hword := word?_eq (Nat.le_trans hle (by decide))
      cases b with
      | zero => rfl
      | succ b =>
        cases d with
        | zero => rfl
        | succ d =>
          show (word? ((b + 1) * (d + 1))).map some = _
          rw [hword]
          rfl

/-- With counts that can be written every number fits in its word, and the bounds that are found are
in order. -/
theorem combineInWords?_eq (hinner : inner.Written) (houter : outer.Written) :
    combineInWords? inner outer = some (inner.combine? outer) := by
  have hmin : inner.min * outer.min ≤ limit * limit :=
    Nat.mul_le_mul hinner.min_le houter.min_le
  rw [combineInWords?, hasNoGapsInWords?_eq hinner houter, Option.bind_eq_bind, Option.bind_some,
    word?_eq (Nat.le_trans hmin (by decide)), totalMaxInWords?_eq hinner houter]
  simp only [Option.bind_eq_bind, Option.bind_some, make?_totals, combine?]
  split
  · rfl
  · split
    · rfl
    · split <;> rfl

/-! ## Exactness -/

/-- Two quantifiers are combined if and only if the totals are a range whose ends can be written, and
the bounds are those of that range. The computation stays in words, and finds its bounds in order. -/
theorem combine?_exact (hinner : inner.Written) (houter : outer.Written) :
    (∀ bounds, inner.combine? outer = some bounds ↔
      bounds.IsRangeOf (inner.totals outer) ∧ bounds.Written) ∧
    combineInWords? inner outer = some (inner.combine? outer) := by
  refine ⟨fun bounds => ?_, combineInWords?_eq hinner houter⟩
  rw [combine?_eq_some_iff, isRangeOf_totals_iff]
  constructor
  · rintro ⟨hgaps, hwritten, rfl⟩
    exact ⟨⟨hgaps, rfl⟩, hwritten⟩
  · rintro ⟨⟨hgaps, rfl⟩, hwritten⟩
    exact ⟨hgaps, hwritten, rfl⟩

/-- From two to three, and that four or five times, is from eight to fifteen. -/
theorem combine?_exact_ranges :
    let inner : Bounds := ⟨2, some 3, by simp⟩
    let outer : Bounds := ⟨4, some 5, by simp⟩
    let bounds : Bounds := ⟨8, some 15, by simp⟩
    inner.Written ∧ outer.Written ∧ bounds.IsRangeOf (inner.totals outer) ∧
      combineInWords? inner outer = some (some bounds) := by
  intro inner outer bounds
  have hinner : inner.Written := ⟨by decide, by rintro _ ⟨⟩; decide⟩
  have houter : outer.Written := ⟨by decide, by rintro _ ⟨⟩; decide⟩
  obtain ⟨hexact, hwords⟩ := combine?_exact hinner houter
  exact ⟨hinner, houter, ((hexact bounds).1 rfl).1, hwords⟩

end

end RegexAudit.Bounds
