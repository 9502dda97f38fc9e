import Mathlib.Tactic.Tauto
import RegexAudit.CharSet.Basic

/-!
# Members of range lists

What the walks over range lists do to the characters in them. A list is `Sorted` if each range ends
before the next one starts, and `Apart` if there is also a code point between them; `Apart` is the
form in which sets are stored (`apart_canonical`).

    inSome (canonical rs) c ↔ inSome rs c                                     (inSome_canonical)
    Sorted as → Sorted bs → (inSome (meetAll as bs) c ↔ inSome as c ∧ inSome bs c)
    Sorted as → Sorted bs → (inSome (cutAll as bs) c ↔ inSome as c ∧ ¬ inSome bs c)
    Sorted rs → ¬ inSome rs c → inSome (complement rs) c

The last one is no equivalence: between ranges that touch, `complement` puts a range of its own.
-/

namespace RegexAudit

/-! ## Sorting -/

section
variable {α : Type} {le : α → α → Bool} {x y : α} {xs : List α}

theorem mem_insertBy : y ∈ insertBy le x xs ↔ y = x ∨ y ∈ xs := by
  induction xs with
  | nil => simp [insertBy]
  | cons z xs ih =>
    simp only [insertBy]
    split
    · simp
    · simp only [List.mem_cons, ih]
      exact or_left_comm

theorem mem_sortBy : y ∈ sortBy le xs ↔ y ∈ xs := by
  induction xs with
  | nil => simp [sortBy]
  | cons x xs ih => simp only [sortBy, mem_insertBy, ih, List.mem_cons]

end

/-! ## Characters as numbers -/

theorem char_le_iff (a b : Char) : a ≤ b ↔ a.toNat ≤ b.toNat := Iff.rfl

theorem char_lt_iff (a b : Char) : a < b ↔ a.toNat < b.toNat := Iff.rfl

theorem char_valid (c : Char) : c.toNat < 0xD800 ∨ (0xDFFF < c.toNat ∧ c.toNat < 0x110000) :=
  c.valid

theorem toNat_ofNat {n : Nat} (h : n.isValidChar) : (Char.ofNat n).toNat = n := by
  unfold Char.ofNat
  rw [dif_pos h]
  rfl

theorem toNat_topChar : topChar.toNat = 0x10FFFF := by decide

theorem toNat_after (c : Char) (h : c.toNat < 0x10FFFF) :
    (c.toNat = 0xD7FF ∧ (after c).toNat = 0xE000) ∨
      (c.toNat ≠ 0xD7FF ∧ (after c).toNat = c.toNat + 1) := by
  have hc := char_valid c
  unfold after
  split
  · rename_i he
    exact Or.inl ⟨he, by decide⟩
  · rename_i he
    refine Or.inr ⟨he, toNat_ofNat ?_⟩
    unfold Nat.isValidChar
    omega

theorem toNat_before (c : Char) :
    (c.toNat = 0xE000 ∧ (before c).toNat = 0xD7FF) ∨
      (c.toNat ≠ 0xE000 ∧ (before c).toNat = c.toNat - 1) := by
  have hc := char_valid c
  unfold before
  split
  · rename_i he
    exact Or.inl ⟨he, by decide⟩
  · rename_i he
    refine Or.inr ⟨he, toNat_ofNat ?_⟩
    unfold Nat.isValidChar
    omega

namespace Range

instance : Membership Char Range := ⟨fun r c => r.lo ≤ c ∧ c ≤ r.hi⟩

theorem mem_iff (r : Range) (c : Char) : c ∈ r ↔ r.lo.toNat ≤ c.toNat ∧ c.toNat ≤ r.hi.toNat :=
  Iff.rfl

theorem lo_le_hi (r : Range) : r.lo.toNat ≤ r.hi.toNat := r.ordered

theorem toNat_between_lo (a b : Char) : (between a b).lo.toNat = min a.toNat b.toNat := by
  unfold between
  split
  · rename_i h
    rw [char_le_iff] at h
    show a.toNat = _
    omega
  · rename_i h
    rw [char_le_iff] at h
    show b.toNat = _
    omega

theorem toNat_between_hi (a b : Char) : (between a b).hi.toNat = max a.toNat b.toNat := by
  unfold between
  split
  · rename_i h
    rw [char_le_iff] at h
    show b.toNat = _
    omega
  · rename_i h
    rw [char_le_iff] at h
    show a.toNat = _
    omega

theorem mem_between (a b c : Char) :
    c ∈ between a b ↔ min a.toNat b.toNat ≤ c.toNat ∧ c.toNat ≤ max a.toNat b.toNat := by
  rw [mem_iff, toNat_between_lo, toNat_between_hi]

/-! ## Range lists -/

/-- Whether a character is in one of the ranges. -/
def inSome (rs : List Range) (c : Char) : Prop := ∃ r ∈ rs, c ∈ r

@[simp] theorem inSome_nil (c : Char) : ¬ inSome [] c := by simp [inSome]

@[simp] theorem inSome_cons (r : Range) (rs : List Range) (c : Char) :
    inSome (r :: rs) c ↔ c ∈ r ∨ inSome rs c := by simp [inSome]

@[simp] theorem inSome_append (rs ss : List Range) (c : Char) :
    inSome (rs ++ ss) c ↔ inSome rs c ∨ inSome ss c := by
  simp only [inSome, List.mem_append]
  constructor
  · rintro ⟨r, hr | hr, hc⟩
    · exact Or.inl ⟨r, hr, hc⟩
    · exact Or.inr ⟨r, hr, hc⟩
  · rintro (⟨r, hr, hc⟩ | ⟨r, hr, hc⟩)
    · exact ⟨r, Or.inl hr, hc⟩
    · exact ⟨r, Or.inr hr, hc⟩

/-- Each range ends before the next one starts. -/
def Sorted (rs : List Range) : Prop := rs.Pairwise fun r s => r.hi.toNat < s.lo.toNat

/-- Each range ends before the next one starts, and at least one code point lies between. -/
def Apart (rs : List Range) : Prop := rs.Pairwise fun r s => r.hi.toNat + 1 < s.lo.toNat

theorem Apart.sorted {rs : List Range} (h : Apart rs) : Sorted rs :=
  h.imp fun {r s} hrs => (by omega : r.hi.toNat < s.lo.toNat)

/-- Each range that ends at `floor` or above ends before the later ones start, and at least one code
point lies between. Nothing is said of the order of what ends below. -/
def ApartFrom (floor : Nat) (rs : List Range) : Prop :=
  rs.Pairwise fun r s => r.hi.toNat < floor ∨ r.hi.toNat + 1 < s.lo.toNat

theorem apartFrom_zero {rs : List Range} : ApartFrom 0 rs ↔ Apart rs := by
  simp [ApartFrom, Apart]

theorem Apart.apartFrom {rs : List Range} (h : Apart rs) (floor : Nat) : ApartFrom floor rs :=
  h.imp .inr

theorem Sorted.lo_of_inSome {r : Range} {rs : List Range} {c : Char} (h : Sorted (r :: rs))
    (hc : inSome rs c) : r.hi.toNat < c.toNat := by
  obtain ⟨s, hs, hcs⟩ := hc
  have h1 := (List.pairwise_cons.1 h).1 s hs
  rw [mem_iff] at hcs
  omega

/-! ## Sorting and merging -/

theorem lo_le_of_le {r s : Range} (h : le r s = true) : r.lo.toNat ≤ s.lo.toNat := by
  simp only [le, Bool.or_eq_true, Bool.and_eq_true, decide_eq_true_eq, beq_iff_eq] at h
  rcases h with h | ⟨h, _⟩
  · rw [char_lt_iff] at h
    omega
  · exact Nat.le_of_eq (by rw [h])

theorem lo_le_of_not_le {r s : Range} (h : le r s = false) : s.lo.toNat ≤ r.lo.toNat := by
  simp only [le, Bool.or_eq_false_iff, decide_eq_false_iff_not, char_lt_iff] at h
  omega

theorem pairwise_insertBy (r : Range) (rs : List Range)
    (h : rs.Pairwise fun r s => r.lo.toNat ≤ s.lo.toNat) :
    (insertBy le r rs).Pairwise fun r s => r.lo.toNat ≤ s.lo.toNat := by
  induction rs with
  | nil => simp [insertBy]
  | cons t ts ih =>
    obtain ⟨ht, hts⟩ := List.pairwise_cons.1 h
    simp only [insertBy]
    split
    · rename_i hle
      have hrt := lo_le_of_le hle
      refine List.pairwise_cons.2 ⟨fun s hs => ?_, h⟩
      rcases List.mem_cons.1 hs with rfl | hs
      · exact hrt
      · exact Nat.le_trans hrt (ht s hs)
    · rename_i hle
      have htr := lo_le_of_not_le (Bool.not_eq_true _ ▸ hle)
      refine List.pairwise_cons.2 ⟨fun s hs => ?_, ih hts⟩
      rcases mem_insertBy.1 hs with rfl | hs
      · exact htr
      · exact ht s hs

theorem pairwise_sortBy (rs : List Range) :
    (sortBy le rs).Pairwise fun r s => r.lo.toNat ≤ s.lo.toNat := by
  induction rs with
  | nil => exact List.Pairwise.nil
  | cons r rs ih => exact pairwise_insertBy r _ ih

theorem touches_iff (r s : Range) :
    r.touches s = true ↔ max r.lo.toNat s.lo.toNat ≤ min r.hi.toNat s.hi.toNat + 1 := by
  simp [touches]

theorem toNat_hull_lo (r s : Range) : (r.hull s).lo.toNat = min r.lo.toNat s.lo.toNat := by
  have hr := r.lo_le_hi
  have hs := s.lo_le_hi
  unfold hull
  rw [toNat_between_lo]
  simp only [char_le_iff]
  split <;> split <;> omega

theorem toNat_hull_hi (r s : Range) : (r.hull s).hi.toNat = max r.hi.toNat s.hi.toNat := by
  have hr := r.lo_le_hi
  have hs := s.lo_le_hi
  unfold hull
  rw [toNat_between_hi]
  simp only [char_le_iff]
  split <;> split <;> omega

theorem mem_hull {r s : Range} (h : r.touches s = true) (c : Char) :
    c ∈ r.hull s ↔ c ∈ r ∨ c ∈ s := by
  rw [touches_iff] at h
  rw [mem_iff, mem_iff, mem_iff, toNat_hull_lo, toNat_hull_hi]
  omega

theorem inSome_coalesceFrom (c : Char) (rs : List Range) (r : Range) :
    inSome (coalesceFrom r rs) c ↔ c ∈ r ∨ inSome rs c := by
  induction rs generalizing r with
  | nil => simp [coalesceFrom]
  | cons s ss ih =>
    simp only [coalesceFrom]
    split
    · rename_i h
      rw [ih, mem_hull h, inSome_cons, or_assoc]
    · rw [inSome_cons, ih, inSome_cons]

theorem inSome_canonical (rs : List Range) (c : Char) :
    inSome (canonical rs) c ↔ inSome rs c := by
  have hsort : inSome (sortBy le rs) c ↔ inSome rs c := by simp only [inSome, mem_sortBy]
  rw [← hsort, canonical]
  cases sortBy le rs with
  | nil => simp [coalesce]
  | cons r ss => rw [coalesce, inSome_coalesceFrom, inSome_cons]

/-- The ranges that come out start no earlier than the first one that went in. -/
theorem lo_le_of_mem_coalesceFrom (rs : List Range) (r : Range)
    (h : (r :: rs).Pairwise fun r s => r.lo.toNat ≤ s.lo.toNat) :
    ∀ s ∈ coalesceFrom r rs, r.lo.toNat ≤ s.lo.toNat := by
  induction rs generalizing r with
  | nil => simp [coalesceFrom]
  | cons t ts ih =>
    obtain ⟨hr, hts⟩ := List.pairwise_cons.1 h
    obtain ⟨ht, hts'⟩ := List.pairwise_cons.1 hts
    have hrt := hr t (by simp)
    intro s hs
    simp only [coalesceFrom] at hs
    split at hs
    · have hlo := toNat_hull_lo r t
      have hp : (r.hull t :: ts).Pairwise fun r s => r.lo.toNat ≤ s.lo.toNat := by
        refine List.pairwise_cons.2 ⟨fun u hu => ?_, hts'⟩
        have := ht u hu
        omega
      have := ih (r.hull t) hp s hs
      omega
    · rcases List.mem_cons.1 hs with rfl | hs
      · exact Nat.le_refl _
      · exact Nat.le_trans hrt (ih t hts s hs)

theorem apart_coalesceFrom (rs : List Range) (r : Range)
    (h : (r :: rs).Pairwise fun r s => r.lo.toNat ≤ s.lo.toNat) : Apart (coalesceFrom r rs) := by
  induction rs generalizing r with
  | nil => exact List.pairwise_singleton _ _
  | cons t ts ih =>
    obtain ⟨hr, hts⟩ := List.pairwise_cons.1 h
    obtain ⟨ht, hts'⟩ := List.pairwise_cons.1 hts
    have hrt := hr t (by simp)
    simp only [coalesceFrom]
    split
    · have hlo := toNat_hull_lo r t
      apply ih
      refine List.pairwise_cons.2 ⟨fun u hu => ?_, hts'⟩
      have := ht u hu
      omega
    · rename_i hno
      rw [touches_iff] at hno
      refine List.pairwise_cons.2 ⟨fun s hs => ?_, ih t hts⟩
      have h1 := lo_le_of_mem_coalesceFrom ts t hts s hs
      have h2 := r.lo_le_hi
      have h3 := t.lo_le_hi
      omega

theorem apart_canonical (rs : List Range) : Apart (canonical rs) := by
  have h := pairwise_sortBy rs
  rw [canonical]
  cases hs : sortBy le rs with
  | nil => exact List.Pairwise.nil
  | cons r ss =>
    rw [hs] at h
    exact apart_coalesceFrom ss r h

/-! ## Intersection -/

theorem meet?_spec (r s : Range) :
    (r.meet? s = none ∧ (r.hi.toNat < s.lo.toNat ∨ s.hi.toNat < r.lo.toNat)) ∨
      ∃ t, r.meet? s = some t ∧ t.lo.toNat = max r.lo.toNat s.lo.toNat ∧
        t.hi.toNat = min r.hi.toNat s.hi.toNat := by
  have hr := r.lo_le_hi
  have hs := s.lo_le_hi
  have hlo : (if r.lo ≤ s.lo then s.lo else r.lo).toNat = max r.lo.toNat s.lo.toNat := by
    simp only [char_le_iff]
    split <;> omega
  have hhi : (if r.hi ≤ s.hi then r.hi else s.hi).toNat = min r.hi.toNat s.hi.toNat := by
    simp only [char_le_iff]
    split <;> omega
  unfold meet?
  by_cases h : (if r.lo ≤ s.lo then s.lo else r.lo) ≤ (if r.hi ≤ s.hi then r.hi else s.hi)
  · right
    simp only
    rw [dif_pos h]
    exact ⟨_, rfl, hlo, hhi⟩
  · left
    simp only
    rw [dif_neg h]
    rw [char_le_iff, hlo, hhi] at h
    exact ⟨rfl, by omega⟩

theorem mem_meet? (r s : Range) (c : Char) :
    inSome (r.meet? s).toList c ↔ c ∈ r ∧ c ∈ s := by
  rcases meet?_spec r s with ⟨h, hno⟩ | ⟨t, h, hlo, hhi⟩
  · rw [h, mem_iff, mem_iff]
    simp only [Option.toList_none, inSome_nil, false_iff]
    omega
  · rw [h, mem_iff, mem_iff]
    simp only [Option.toList_some, inSome_cons, inSome_nil, or_false, mem_iff]
    omega

theorem bounds_of_mem_meet? {r s t : Range} (h : t ∈ (r.meet? s).toList) :
    r.lo.toNat ≤ t.lo.toNat ∧ s.lo.toNat ≤ t.lo.toNat ∧
      t.hi.toNat ≤ r.hi.toNat ∧ t.hi.toNat ≤ s.hi.toNat := by
  rcases meet?_spec r s with ⟨hn, -⟩ | ⟨u, hu, hlo, hhi⟩
  · simp [hn] at h
  · rw [hu, Option.toList_some, List.mem_singleton] at h
    subst h
    omega

/-- The walk through the second list for one range of the first, if the walk for the ranges after
it is right. -/
theorem inSome_meetEach {a : Range} {as : List Range} {next : List Range → List Range} {c : Char}
    (ha : Sorted (a :: as))
    (hnext : ∀ bs, Sorted bs → (inSome (next bs) c ↔ inSome as c ∧ inSome bs c)) :
    ∀ bs, Sorted bs →
      (inSome (meetEach a next bs) c ↔ inSome (a :: as) c ∧ inSome bs c) := by
  intro bs
  induction bs with
  | nil => simp [meetEach]
  | cons b bs ih =>
    intro hb
    have hbs : Sorted bs := (List.pairwise_cons.1 hb).2
    simp only [meetEach, inSome_append, mem_meet?]
    split
    · rename_i hlt
      rw [char_lt_iff] at hlt
      rw [hnext _ hb]
      simp only [inSome_cons]
      -- a member of `a` is no member of the ranges after `b`, which reaches further
      have hno : c ∈ a → ¬ inSome bs c := by
        intro h1 h2
        have h3 := hb.lo_of_inSome h2
        rw [mem_iff] at h1
        omega
      tauto
    · rename_i hlt
      rw [char_lt_iff] at hlt
      rw [ih hbs]
      simp only [inSome_cons]
      have hno : c ∈ b → ¬ inSome as c := by
        intro h1 h2
        have h3 := ha.lo_of_inSome h2
        rw [mem_iff] at h1
        omega
      tauto

theorem inSome_meetAll {as bs : List Range} (ha : Sorted as) (hb : Sorted bs) (c : Char) :
    inSome (meetAll as bs) c ↔ inSome as c ∧ inSome bs c := by
  induction as generalizing bs with
  | nil => simp [meetAll]
  | cons a as ih =>
    exact inSome_meetEach ha (fun bs hbs => ih (List.pairwise_cons.1 ha).2 hbs) bs hb

/-- Each intersection starts inside a range of either list. -/
theorem lo_of_mem_meetAll {as bs : List Range} {s : Range} (h : s ∈ meetAll as bs) :
    (∃ a ∈ as, a.lo.toNat ≤ s.lo.toNat) ∧ ∃ b ∈ bs, b.lo.toNat ≤ s.lo.toNat := by
  induction as generalizing bs with
  | nil => simp [meetAll] at h
  | cons a as ih =>
    rw [meetAll] at h
    induction bs with
    | nil => simp [meetEach] at h
    | cons b bs ihb =>
      simp only [meetEach, List.mem_append] at h
      rcases h with h | h
      · obtain ⟨h1, h2, -, -⟩ := bounds_of_mem_meet? h
        exact ⟨⟨a, by simp, h1⟩, ⟨b, by simp, h2⟩⟩
      · split at h
        · obtain ⟨⟨a', ha', h1⟩, h2⟩ := ih h
          exact ⟨⟨a', List.mem_cons_of_mem _ ha', h1⟩, h2⟩
        · obtain ⟨h1, b', hb', h2⟩ := ihb h
          exact ⟨h1, b', List.mem_cons_of_mem _ hb', h2⟩

/-- If the ranges of both lists keep a distance, at least where they end at `floor` or above, so do
the intersections. -/
theorem pairwise_meetAll (floor gap : Nat) {as bs : List Range}
    (ha : as.Pairwise fun r s => r.hi.toNat < floor ∨ r.hi.toNat + gap < s.lo.toNat)
    (hb : bs.Pairwise fun r s => r.hi.toNat < floor ∨ r.hi.toNat + gap < s.lo.toNat) :
    (meetAll as bs).Pairwise fun r s => r.hi.toNat < floor ∨ r.hi.toNat + gap < s.lo.toNat := by
  induction as generalizing bs with
  | nil => exact List.Pairwise.nil
  | cons a as ih =>
    obtain ⟨ha1, ha2⟩ := List.pairwise_cons.1 ha
    rw [meetAll]
    induction bs with
    | nil => exact List.Pairwise.nil
    | cons b bs ihb =>
      obtain ⟨hb1, hb2⟩ := List.pairwise_cons.1 hb
      simp only [meetEach]
      refine List.pairwise_append.2 ⟨?_, ?_, fun r hr s hs => ?_⟩
      · cases a.meet? b <;> simp
      · split
        · exact ih ha2 hb
        · exact ihb hb2
      · obtain ⟨-, -, h3, h4⟩ := bounds_of_mem_meet? hr
        split at hs
        · obtain ⟨⟨a', ha', h5⟩, -⟩ := lo_of_mem_meetAll hs
          have := ha1 a' ha'
          omega
        · have hs' : s ∈ meetAll (a :: as) bs := hs
          obtain ⟨-, b', hb', h5⟩ := lo_of_mem_meetAll hs'
          have := hb1 b' hb'
          omega

theorem sorted_meetAll {as bs : List Range} (ha : Sorted as) (hb : Sorted bs) :
    Sorted (meetAll as bs) := by
  simpa [Sorted] using pairwise_meetAll 0 0 (ha.imp .inr) (hb.imp .inr)

theorem apartFrom_meetAll {floor : Nat} {as bs : List Range} (ha : ApartFrom floor as)
    (hb : ApartFrom floor bs) : ApartFrom floor (meetAll as bs) :=
  pairwise_meetAll floor 1 ha hb

/-! ## Difference -/

theorem isDisjoint_iff (r s : Range) :
    r.isDisjoint s = true ↔ r.hi.toNat < s.lo.toNat ∨ s.hi.toNat < r.lo.toNat := by
  have hr := r.lo_le_hi
  have hs := s.lo_le_hi
  unfold isDisjoint
  rcases meet?_spec r s with ⟨h, hno⟩ | ⟨t, h, hlo, hhi⟩
  · simp [h, hno]
  · have ht := t.lo_le_hi
    simp only [h, Option.isNone_some, Bool.false_eq_true, false_iff]
    omega

/-- What is in `r` or in the ranges after it and in no range of the second list is left over. -/
theorem inSome_carve {as : List Range} {next : List Range → List Range} {c : Char}
    (hnext : ∀ bs, ¬ inSome bs c → inSome as c → inSome (next bs) c) :
    ∀ bs r, ¬ inSome bs c → c ∈ r ∨ inSome as c → inSome (carve next r bs) c := by
  intro bs
  induction bs with
  | nil =>
    intro r hc h
    rw [carve, inSome_cons]
    exact h.imp_right (hnext [] hc)
  | cons b bs ih =>
    intro r hc h
    have hbs : ¬ inSome bs c := fun h' => hc ((inSome_cons _ _ _).2 (Or.inr h'))
    have hb : ¬ c ∈ b := fun h' => hc ((inSome_cons _ _ _).2 (Or.inl h'))
    have hcv := char_valid c
    have hbl := toNat_before b.lo
    have hblv := char_valid b.lo
    have hbhv := char_valid b.hi
    have hrhv := char_valid r.hi
    rw [mem_iff] at hb
    simp only [carve]
    split
    · rw [inSome_cons]
      exact h.imp_right (hnext _ hc)
    · rename_i hmeet
      rw [isDisjoint_iff] at hmeet
      simp only [char_lt_iff]
      split
      · rename_i hlt
        have hbh := toNat_after b.hi (by omega)
        rw [inSome_append]
        rcases h with h | h
        · rw [mem_iff] at h
          by_cases hlow : c.toNat < b.lo.toNat
          · left
            rw [if_pos (by omega), inSome_cons, mem_between]
            left
            omega
          · right
            refine ih _ hbs (Or.inl ?_)
            rw [mem_between]
            omega
        · exact Or.inr (ih _ hbs (Or.inr h))
      · rename_i hlt
        split
        · rename_i hlow
          have hin : c ∈ r → c ∈ between r.lo (before b.lo) := by
            intro h
            rw [mem_iff] at h
            rw [mem_between]
            omega
          split
          · rw [inSome_cons]
            exact h.imp hin (hnext _ hc)
          · exact ih _ hbs (h.imp_left hin)
        · rename_i hlow
          rcases h with h | h
          · rw [mem_iff] at h
            omega
          · exact hnext _ hc h

theorem inSome_cutAll {as bs : List Range} {c : Char} (ha : inSome as c) (hb : ¬ inSome bs c) :
    inSome (cutAll as bs) c := by
  induction as generalizing bs with
  | nil => simp at ha
  | cons a as ih =>
    have hnext : ∀ bs, ¬ inSome bs c → inSome as c → inSome (cutAll as bs) c :=
      fun bs hb ha => ih ha hb
    rw [inSome_cons] at ha
    rw [cutAll]
    induction bs with
    | nil =>
      rw [cutEach, inSome_cons]
      exact ha.imp_right (hnext [] hb)
    | cons b bs ihb =>
      have hbs : ¬ inSome bs c := fun h' => hb ((inSome_cons _ _ _).2 (Or.inr h'))
      simp only [cutEach]
      split
      · exact ihb hbs
      · split
        · rw [inSome_cons]
          exact ha.imp_right (hnext _ hb)
        · exact inSome_carve hnext _ _ hb ha

/-- The part of a range before another one. -/
theorem mem_low {a b c : Char} (h : a.toNat < b.toNat) :
    c ∈ between a (before b) ↔ a.toNat ≤ c.toNat ∧ c.toNat < b.toNat := by
  have := toNat_before b
  have := char_valid a
  have := char_valid b
  have := char_valid c
  rw [mem_between]
  omega

/-- The part of a range after another one. -/
theorem mem_high {a b c : Char} (h : a.toNat < b.toNat) :
    c ∈ between (after a) b ↔ a.toNat < c.toNat ∧ c.toNat ≤ b.toNat := by
  have := toNat_after a (by have := char_valid b; omega)
  have := char_valid a
  have := char_valid b
  have := char_valid c
  rw [mem_between]
  omega

theorem not_inSome_of_lt {b : Range} {bs : List Range} {c : Char} (h : Sorted (b :: bs))
    (hc : c.toNat < b.lo.toNat) : ¬ inSome (b :: bs) c := by
  have := b.lo_le_hi
  rw [inSome_cons, mem_iff]
  rintro (hb | hbs)
  · omega
  · have := h.lo_of_inSome hbs
    omega

theorem not_inSome_of_gt {b : Range} {bs : List Range} {c : Char} (hc : b.hi.toNat < c.toNat)
    (hbs : ¬ inSome bs c) : ¬ inSome (b :: bs) c := by
  rw [inSome_cons, mem_iff]
  rintro (hb | h)
  · omega
  · exact hbs h

theorem hi_mem (r : Range) : r.hi ∈ r := ⟨r.ordered, Char.le_refl r.hi⟩

theorem lo_mem (r : Range) : r.lo ∈ r := ⟨Char.le_refl r.lo, r.ordered⟩

section
variable {r b : Range} {as bs : List Range}

theorem sorted_high (hlt : b.hi.toNat < r.hi.toNat) (has : Sorted (r :: as)) :
    Sorted (between (after b.hi) r.hi :: as) := by
  obtain ⟨hlast, has'⟩ := List.pairwise_cons.1 has
  have hhi := (mem_high hlt).1 (hi_mem (between (after b.hi) r.hi))
  exact List.pairwise_cons.2 ⟨fun s hs => Nat.lt_of_le_of_lt hhi.2 (hlast s hs), has'⟩

/-- No range after `b` ends before what is left of `r` after `b`. -/
theorem passed_high (hlt : b.hi.toNat < r.hi.toNat) (hbs : Sorted (b :: bs)) {s : Range}
    (hs : s ∈ bs) : (between (after b.hi) r.hi).lo.toNat ≤ s.hi.toNat := by
  have hout : s.hi.toNat < (between (after b.hi) r.hi).lo.toNat →
      ¬ s.hi ∈ between (after b.hi) r.hi := by
    rw [mem_iff]
    omega
  rw [mem_high hlt] at hout
  have := (List.pairwise_cons.1 hbs).1 s hs
  have := s.lo_le_hi
  have := (between (after b.hi) r.hi).lo_le_hi
  have := (mem_high hlt).1 (hi_mem (between (after b.hi) r.hi))
  omega

theorem sorted_low (hlow : r.lo.toNat < b.lo.toNat) (hmeet : b.lo.toNat ≤ r.hi.toNat)
    (has : Sorted (r :: as)) : Sorted (between r.lo (before b.lo) :: as) := by
  obtain ⟨hlast, has'⟩ := List.pairwise_cons.1 has
  have hhi := (mem_low hlow).1 (hi_mem (between r.lo (before b.lo)))
  refine List.pairwise_cons.2 ⟨fun s hs => ?_, has'⟩
  have := hlast s hs
  omega

/-- No range after `b` ends before what is left of `r` before `b`. -/
theorem passed_low (hlow : r.lo.toNat < b.lo.toNat) (hbs : Sorted (b :: bs)) {s : Range}
    (hs : s ∈ bs) : (between r.lo (before b.lo)).lo.toNat ≤ s.hi.toNat := by
  have := (mem_low hlow).1 (hi_mem (between r.lo (before b.lo)))
  have := (List.pairwise_cons.1 hbs).1 s hs
  have := s.lo_le_hi
  have := b.lo_le_hi
  have := (between r.lo (before b.lo)).lo_le_hi
  omega

end

/-- What is left over was there before and is in no range of the second list. The ranges of that list
that end before `r` have been passed. -/
theorem of_inSome_carve {as : List Range} {next : List Range → List Range} {c : Char}
    (hnext : ∀ bs, Sorted bs → inSome (next bs) c → inSome as c ∧ ¬ inSome bs c) :
    ∀ bs r, Sorted (r :: as) → Sorted bs → (∀ b ∈ bs, r.lo.toNat ≤ b.hi.toNat) →
      inSome (carve next r bs) c → (c ∈ r ∨ inSome as c) ∧ ¬ inSome bs c := by
  intro bs
  induction bs with
  | nil =>
    intro r _ _ _ h
    rw [carve, inSome_cons] at h
    exact ⟨h.imp_right fun h => (hnext [] .nil h).1, inSome_nil c⟩
  | cons b bs ih =>
    intro r has hbs hpassed h
    have hbs' := (List.pairwise_cons.1 hbs).2
    have hhead := hpassed b (by simp)
    simp only [carve, char_lt_iff] at h
    split at h
    · rename_i hmeet
      have hbefore : r.hi.toNat < b.lo.toNat := by
        rw [isDisjoint_iff] at hmeet
        omega
      rw [inSome_cons] at h
      rcases h with h | h
      · exact ⟨.inl h, not_inSome_of_lt hbs (Nat.lt_of_le_of_lt h.2 hbefore)⟩
      · exact (hnext _ hbs h).imp_left .inr
    · rename_i hmeet
      rw [isDisjoint_iff] at hmeet
      split at h
      · rename_i hlt
        rw [inSome_append] at h
        rcases h with h | h
        · split at h
          · rename_i hlow
            simp only [inSome_cons, inSome_nil, or_false, mem_low hlow] at h
            refine ⟨.inl ?_, not_inSome_of_lt hbs h.2⟩
            have := b.lo_le_hi
            rw [mem_iff]
            omega
          · exact absurd h (inSome_nil c)
        · obtain ⟨hc, hno⟩ := ih _ (sorted_high hlt has) hbs' (fun _ => passed_high hlt hbs) h
          have hbeyond : b.hi.toNat < c.toNat := by
            rcases hc with hc | hc
            · exact ((mem_high hlt).1 hc).1
            · exact Nat.lt_trans hlt (has.lo_of_inSome hc)
          refine ⟨hc.imp_left fun hc => ?_, not_inSome_of_gt hbeyond hno⟩
          rw [mem_high hlt] at hc
          rw [mem_iff]
          omega
      · rename_i hle
        split at h
        · rename_i hlow
          have hin (hc : c ∈ between r.lo (before b.lo)) : c ∈ r ∧ ¬ inSome (b :: bs) c := by
            rw [mem_low hlow] at hc
            refine ⟨?_, not_inSome_of_lt hbs hc.2⟩
            rw [mem_iff]
            omega
          split at h
          · rw [inSome_cons] at h
            rcases h with h | h
            · exact (hin h).imp_left .inl
            · exact (hnext _ hbs h).imp_left .inr
          · have hmeet : b.lo.toNat ≤ r.hi.toNat := by omega
            obtain ⟨hc | hc, hno⟩ :=
              ih _ (sorted_low hlow hmeet has) hbs' (fun _ => passed_low hlow hbs) h
            · exact (hin hc).imp_left .inl
            · refine ⟨.inr hc, not_inSome_of_gt ?_ hno⟩
              have := has.lo_of_inSome hc
              omega
        · exact (hnext _ hbs h).imp_left .inr

theorem of_inSome_cutAll {as bs : List Range} {c : Char} (ha : Sorted as) (hb : Sorted bs)
    (h : inSome (cutAll as bs) c) : inSome as c ∧ ¬ inSome bs c := by
  induction as generalizing bs with
  | nil => exact absurd h (inSome_nil c)
  | cons a as ih =>
    have hnext (bs : List Range) (hb : Sorted bs) (h : inSome (cutAll as bs) c) :=
      ih (List.pairwise_cons.1 ha).2 hb h
    rw [cutAll] at h
    induction bs with
    | nil =>
      rw [cutEach, inSome_cons] at h
      exact ⟨(inSome_cons _ _ _).2 (h.imp_right fun h => (hnext [] .nil h).1), inSome_nil c⟩
    | cons b bs ihb =>
      have hb' := (List.pairwise_cons.1 hb).2
      simp only [cutEach, char_lt_iff] at h
      split at h
      · rename_i hlt
        obtain ⟨hc, hno⟩ := ihb hb' h
        refine ⟨hc, not_inSome_of_gt ?_ hno⟩
        have := a.lo_le_hi
        rcases (inSome_cons _ _ _).1 hc with hc | hc
        · exact Nat.lt_of_lt_of_le hlt hc.1
        · have := ha.lo_of_inSome hc
          omega
      · rename_i hmeets
        split at h
        · rename_i hbefore
          rw [inSome_cons] at h
          rcases h with h | h
          · refine ⟨(inSome_cons _ _ _).2 (.inl h), not_inSome_of_lt hb ?_⟩
            exact Nat.lt_of_le_of_lt h.2 hbefore
          · exact (hnext _ hb h).imp_left fun h => (inSome_cons _ _ _).2 (.inr h)
        · have hpassed (s : Range) (hs : s ∈ b :: bs) : a.lo.toNat ≤ s.hi.toNat := by
            rcases List.mem_cons.1 hs with rfl | hs
            · omega
            · have := (List.pairwise_cons.1 hb).1 s hs
              have := s.lo_le_hi
              omega
          obtain ⟨hc, hno⟩ := of_inSome_carve hnext _ _ ha hb hpassed h
          exact ⟨(inSome_cons _ _ _).2 hc, hno⟩

/-- A piece goes before everything that comes from the ranges after it. -/
theorem apartFrom_cons_next {floor : Nat} {next : List Range → List Range} {last : Nat}
    (hnext : ∀ bs, ApartFrom floor (next bs) ∧
      ∀ s ∈ next bs, last < floor ∨ last + 1 < s.lo.toNat) {r : Range}
    (hr : r.hi.toNat ≤ last) (bs : List Range) :
    ApartFrom floor (r :: next bs) ∧
      ∀ s ∈ r :: next bs, last < floor ∨ r.lo.toNat ≤ s.lo.toNat := by
  obtain ⟨hapart, hlater⟩ := hnext bs
  have := r.lo_le_hi
  refine ⟨List.pairwise_cons.2 ⟨fun s hs => ?_, hapart⟩,
    List.forall_mem_cons.2 ⟨.inr (Nat.le_refl _), ?_⟩⟩
  · have := hlater s hs
    omega
  · intro s hs
    have := hlater s hs
    omega

/-- Between two pieces of a range lies at least the first character of what was taken out. -/
theorem apartFrom_carve {floor : Nat} {next : List Range → List Range} {last : Nat}
    (hnext : ∀ bs, ApartFrom floor (next bs) ∧
      ∀ s ∈ next bs, last < floor ∨ last + 1 < s.lo.toNat) :
    ∀ bs r, r.hi.toNat ≤ last → ApartFrom floor (carve next r bs) ∧
      ∀ s ∈ carve next r bs, last < floor ∨ r.lo.toNat ≤ s.lo.toNat := by
  intro bs
  induction bs with
  | nil =>
    intro r hr
    exact apartFrom_cons_next hnext hr []
  | cons b bs ih =>
    intro r hr
    have hr' := r.lo_le_hi
    have hb' := b.lo_le_hi
    simp only [carve, char_lt_iff]
    split
    · exact apartFrom_cons_next hnext hr _
    · rename_i hmeet
      rw [isDisjoint_iff] at hmeet
      split
      · rename_i hlt
        have hlo := (mem_high hlt).1 (lo_mem (between (after b.hi) r.hi))
        have hhi := (mem_high hlt).1 (hi_mem (between (after b.hi) r.hi))
        obtain ⟨hapart, hlater⟩ := ih (between (after b.hi) r.hi) (Nat.le_trans hhi.2 hr)
        refine ⟨List.pairwise_append.2 ⟨?_, hapart, fun p hp s hs => ?_⟩, fun s hs => ?_⟩
        · split
          · exact List.pairwise_singleton _ _
          · exact .nil
        · have := hlater s hs
          split at hp
          · rename_i hlow
            obtain rfl := List.mem_singleton.1 hp
            have := (mem_low hlow).1 (hi_mem (between r.lo (before b.lo)))
            omega
          · simp at hp
        · rcases List.mem_append.1 hs with hs | hs
          · split at hs
            · rename_i hlow
              obtain rfl := List.mem_singleton.1 hs
              exact .inr ((mem_low hlow).1 (lo_mem _)).1
            · simp at hs
          · have := hlater s hs
            omega
      · rename_i hle
        split
        · rename_i hlow
          have hlo := (mem_low hlow).1 (lo_mem (between r.lo (before b.lo)))
          have hhi := (mem_low hlow).1 (hi_mem (between r.lo (before b.lo)))
          have hlast : (between r.lo (before b.lo)).hi.toNat ≤ last := by omega
          have hpieces (rs : List Range) (hrs : ApartFrom floor rs ∧
              ∀ s ∈ rs, last < floor ∨ (between r.lo (before b.lo)).lo.toNat ≤ s.lo.toNat) :
              ApartFrom floor rs ∧ ∀ s ∈ rs, last < floor ∨ r.lo.toNat ≤ s.lo.toNat :=
            hrs.imp_right fun h s hs => (h s hs).imp_right (Nat.le_trans hlo.1)
          split
          · exact hpieces _ (apartFrom_cons_next hnext hlast _)
          · exact hpieces _ (ih _ hlast)
        · refine (hnext _).imp_right fun hlater s hs => ?_
          have := hlater s hs
          omega

/-- The pieces that are left over keep the distance the ranges had, and start inside of them. -/
theorem apartFrom_cutAll_and {floor : Nat} {as : List Range} (ha : ApartFrom floor as)
    (bs : List Range) : ApartFrom floor (cutAll as bs) ∧
      ∀ s ∈ cutAll as bs, ∃ a ∈ as, a.hi.toNat < floor ∨ a.lo.toNat ≤ s.lo.toNat := by
  induction as generalizing bs with
  | nil => exact ⟨.nil, fun s hs => absurd hs (List.not_mem_nil)⟩
  | cons a as ih =>
    obtain ⟨hfirst, has⟩ := List.pairwise_cons.1 ha
    have hnext (bs : List Range) : ApartFrom floor (cutAll as bs) ∧
        ∀ s ∈ cutAll as bs, a.hi.toNat < floor ∨ a.hi.toNat + 1 < s.lo.toNat := by
      obtain ⟨hapart, hlater⟩ := ih has bs
      refine ⟨hapart, fun s hs => ?_⟩
      obtain ⟨a', ha', hlo⟩ := hlater s hs
      have hdistance := hfirst a' ha'
      have hordered := a'.lo_le_hi
      omega
    have hpieces : ApartFrom floor (cutEach a (cutAll as) bs) ∧
        ∀ s ∈ cutEach a (cutAll as) bs, a.hi.toNat < floor ∨ a.lo.toNat ≤ s.lo.toNat := by
      induction bs with
      | nil => exact apartFrom_cons_next hnext (Nat.le_refl _) []
      | cons b bs ihb =>
        simp only [cutEach]
        split
        · exact ihb
        · split
          · exact apartFrom_cons_next hnext (Nat.le_refl _) _
          · exact apartFrom_carve hnext _ a (Nat.le_refl _)
    exact ⟨hpieces.1, fun s hs => ⟨a, by simp, hpieces.2 s hs⟩⟩

theorem apartFrom_cutAll {floor : Nat} {as : List Range} (ha : ApartFrom floor as)
    (bs : List Range) : ApartFrom floor (cutAll as bs) :=
  (apartFrom_cutAll_and ha bs).1

/-! ## Complement -/

theorem inSome_gaps {c : Char} (rs : List Range) (r : Range) (hc : ¬ inSome (r :: rs) c)
    (h : r.hi.toNat < c.toNat) : inSome (gaps (r :: rs)) c := by
  induction rs generalizing r with
  | nil =>
    have hcv := char_valid c
    have hrv := char_valid r.hi
    have ha := toNat_after r.hi (by omega)
    have ht := toNat_topChar
    simp only [gaps, char_lt_iff]
    rw [if_pos (by omega), inSome_cons, mem_between]
    left
    omega
  | cons s ss ih =>
    have hcv := char_valid c
    have hrv := char_valid r.hi
    have ha := toNat_after r.hi (by omega)
    have hb := toNat_before s.lo
    have hss : ¬ inSome (s :: ss) c := fun h' => hc ((inSome_cons _ _ _).2 (Or.inr h'))
    rw [gaps, inSome_cons, mem_between]
    by_cases hlow : c.toNat < s.lo.toNat
    · left
      omega
    · right
      refine ih s hss ?_
      have hs : ¬ c ∈ s := fun h' => hss ((inSome_cons _ _ _).2 (Or.inl h'))
      rw [mem_iff] at hs
      omega

theorem inSome_complement {rs : List Range} {c : Char} (hc : ¬ inSome rs c) :
    inSome (complement rs) c := by
  have hcv := char_valid c
  cases rs with
  | nil =>
    have ht := toNat_topChar
    have hz : (Char.ofNat 0).toNat = 0 := by decide
    rw [complement, inSome_cons, mem_between]
    left
    omega
  | cons r rs =>
    have hz : (Char.ofNat 0).toNat = 0 := by decide
    have hb := toNat_before r.lo
    have hr : ¬ c ∈ r := fun h' => hc ((inSome_cons _ _ _).2 (Or.inl h'))
    rw [mem_iff] at hr
    rw [complement, inSome_append]
    by_cases hlow : c.toNat < r.lo.toNat
    · left
      simp only [char_lt_iff]
      rw [if_pos (by omega), inSome_cons, mem_between]
      left
      omega
    · right
      exact inSome_gaps rs r hc (by omega)

/-- A gap starts at the end of the range before it at the earliest, and only at U+D7FF right there:
the gap to U+E000 is empty, and what is stored for it has its ends swapped. -/
theorem lo_of_mem_gaps {rs : List Range} {r : Range} (h : Apart (r :: rs)) :
    ∀ g ∈ gaps (r :: rs), r.hi.toNat ≤ g.lo.toNat ∧
      (r.hi.toNat = g.lo.toNat → r.hi.toNat = 0xD7FF) := by
  induction rs generalizing r with
  | nil =>
    intro g hg
    simp only [gaps, char_lt_iff] at hg
    split at hg
    · rename_i hlt
      have ht := toNat_topChar
      have ha := toNat_after r.hi (by omega)
      rw [List.mem_singleton] at hg
      subst hg
      rw [toNat_between_lo]
      omega
    · simp at hg
  | cons s ss ih =>
    intro g hg
    obtain ⟨h1, h2⟩ := List.pairwise_cons.1 h
    have hrs := h1 s (by simp)
    have hsv := char_valid s.lo
    have hshv := char_valid s.hi
    have hrv := char_valid r.hi
    have hs := s.lo_le_hi
    rw [gaps] at hg
    rcases List.mem_cons.1 hg with rfl | hg
    · have ha := toNat_after r.hi (by omega)
      have hb := toNat_before s.lo
      rw [toNat_between_lo]
      omega
    · have := ih h2 g hg
      omega

theorem sorted_gaps {rs : List Range} {r : Range} (h : Apart (r :: rs)) :
    Sorted (gaps (r :: rs)) := by
  induction rs generalizing r with
  | nil =>
    simp only [gaps]
    split
    · exact List.pairwise_singleton _ _
    · exact List.Pairwise.nil
  | cons s ss ih =>
    obtain ⟨h1, h2⟩ := List.pairwise_cons.1 h
    have hrs := h1 s (by simp)
    have hsv := char_valid s.lo
    have hshv := char_valid s.hi
    have hrv := char_valid r.hi
    have hs := s.lo_le_hi
    have ha := toNat_after r.hi (by omega)
    have hb := toNat_before s.lo
    rw [gaps]
    refine List.pairwise_cons.2 ⟨fun g hg => ?_, ih h2⟩
    have hg := lo_of_mem_gaps h2 g hg
    rw [toNat_between_hi]
    omega

theorem sorted_complement {rs : List Range} (h : Apart rs) : Sorted (complement rs) := by
  cases rs with
  | nil => exact List.pairwise_singleton _ _
  | cons r rs =>
    have hr := r.lo_le_hi
    have hb := toNat_before r.lo
    have hrv := char_valid r.lo
    rw [complement]
    refine List.pairwise_append.2 ⟨?_, sorted_gaps h, fun s hs g hg => ?_⟩
    · split
      · exact List.pairwise_singleton _ _
      · exact List.Pairwise.nil
    · have hg := lo_of_mem_gaps h g hg
      simp only [char_lt_iff] at hs
      split at hs
      · rename_i hlt
        have hz : (Char.ofNat 0).toNat = 0 := by decide
        rw [List.mem_singleton] at hs
        subst hs
        rw [toNat_between_hi]
        omega
      · simp at hs

end Range

end RegexAudit
