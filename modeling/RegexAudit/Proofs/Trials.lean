import RegexAudit.Lint.NestedQuantifier
import RegexAudit.Proofs.Captures
import RegexAudit.Proofs.Totals

/-!
# Totals in the order of a search

A quantifier that repeats a single character is known by the totals it reaches and by the order in
which a search tries them: the rounds it forces come first, a greedy one then tries one more round
before it stops, and a lazy one stops before it tries one more. A total that has been tried leads
nowhere new, so repetitions do not count.

One quantifier goes through its totals in order. A quantifier over a quantifier that is merged into
one reaches the same totals; it goes through them in order if and only if one of the two has no choice
or the inner one can make do with one repetition. Otherwise the last round is left out too early: in
`(?:a{2,3}){1,2}` the totals come as 6, 5, 3, 4, 2.
-/

namespace RegexAudit

/-! ## Rounds -/

namespace Steps

variable {α β : Type}

/-- The rounds that a quantifier forces, then those that it may add. -/
def repeated (moves : α → α → Bool) (round : α → List α) (greedy : Bool) (least more : Nat) (s : α) :
    List α :=
  (forced round least s).flatMap (optional moves round greedy more)

/-- A number that differs from the one before. -/
def differs (m n : Nat) : Bool := n != m

/-- One more. -/
def once (n : Nat) : List Nat := [n + 1]

end Steps

/-- Repetitions do not matter to a search. -/
theorem find?_eraseDups {α : Type} [DecidableEq α] (ok : α → Bool) (l : List α) :
    l.eraseDups.find? ok = l.find? ok := by
  induction hlength : l.length using Nat.strong_induction_on generalizing l with
  | _ length ih =>
    cases l with
    | nil => rfl
    | cons a l =>
      rw [List.eraseDups_cons]
      cases ha : ok a with
      | true => rw [List.find?_cons_of_pos ha, List.find?_cons_of_pos ha]
      | false =>
        have hless : (l.filter fun b => !b == a).length < length := by
          rw [← hlength]
          exact Nat.lt_succ_of_le (List.length_filter_le _ _)
        rw [List.find?_cons_of_neg (by simp [ha]), List.find?_cons_of_neg (by simp [ha]),
          ih _ hless _ rfl, List.find?_filter]
        congr 1
        funext b
        by_cases hb : b = a
        · simp [hb, ha]
        · simp [hb]

/-! ## Numbers in order -/

/-- Whether a greedy quantifier should try `m` rather than `n`, or a lazy one. -/
def Before (greedy : Bool) (m n : Nat) : Prop := if greedy then n < m else m < n

/-- The list goes through the numbers from `lo` to `hi` in order: where one of them stands, those
before it have been listed. -/
structure Sweeps (greedy : Bool) (lo hi : Nat) (l : List Nat) : Prop where
  mem : ∀ n, n ∈ l ↔ lo ≤ n ∧ n ≤ hi
  order : ∀ {u n v}, l = u ++ n :: v → ∀ m, lo ≤ m → m ≤ hi → Before greedy m n → m ∈ u

namespace Sweeps

variable {greedy : Bool} {lo hi lo' hi' m n : Nat} {l l' : List Nat}

theorem exists_split_flatMap {α β : Type} {f : α → List β} {l : List α} {u v : List β} {b : β}
    (h : l.flatMap f = u ++ b :: v) : ∃ front a back u' v', l = front ++ a :: back ∧
      f a = u' ++ b :: v' ∧ u = front.flatMap f ++ u' := by
  induction l generalizing u with
  | nil => simp at h
  | cons a l ih =>
    rw [List.flatMap_cons] at h
    rcases List.append_eq_append_iff.1 h with ⟨w, rfl, hl⟩ | ⟨w, hfirst, hl⟩
    · obtain ⟨front, c, back, u', v', rfl, hc, rfl⟩ := ih hl
      exact ⟨a :: front, c, back, u', v', rfl, hc, by simp⟩
    · cases w with
      | nil =>
        obtain ⟨front, c, back, u', v', rfl, hc, hu⟩ := ih (u := []) hl.symm
        refine ⟨a :: front, c, back, u', v', rfl, hc, ?_⟩
        rw [List.flatMap_cons, List.append_assoc, ← hu, hfirst]
        simp
      | cons d w =>
        cases hl
        exact ⟨[], a, l, u, w, rfl, hfirst, rfl⟩

theorem single (greedy : Bool) (n : Nat) : Sweeps greedy n n [n] where
  mem k := by rw [List.mem_singleton]; omega
  order := by
    intro u k v h m hlo hhi hbefore
    obtain ⟨-, hk⟩ : u = [] ∧ n = k := by
      cases u with
      | nil => simpa using (List.cons.inj h).1
      | cons => simp at h
    exfalso
    unfold Before at hbefore
    split at hbefore <;> omega

/-- With a single number there is nothing to order. -/
theorem of_single {g : Bool} (h : Sweeps g n n l) (greedy : Bool) : Sweeps greedy n n l where
  mem := h.mem
  order := by
    intro u k v hl m hlo hhi hbefore
    have hk := (h.mem k).1 (by simp [hl])
    exfalso
    unfold Before at hbefore
    split at hbefore <;> omega

/-- What follows each number goes through a range that moves with it. -/
theorem flatMap {f : Nat → List Nat} (h : Sweeps greedy lo hi l) (hle : lo ≤ hi) (hle' : lo' ≤ hi')
    (hf : ∀ n, Sweeps greedy (n + lo') (n + hi') (f n)) :
    Sweeps greedy (lo + lo') (hi + hi') (l.flatMap f) where
  mem k := by
    rw [List.mem_flatMap]
    constructor
    · rintro ⟨n, hn, hk⟩
      have := (h.mem n).1 hn
      have := ((hf n).mem k).1 hk
      omega
    · intro hk
      by_cases hn : k ≤ lo + hi'
      · exact ⟨lo, (h.mem lo).2 (by omega), ((hf lo).mem k).2 (by omega)⟩
      · exact ⟨k - hi', (h.mem _).2 (by omega), ((hf _).mem k).2 (by omega)⟩
  order := by
    intro u k v hl m hlo hhi hbefore
    obtain ⟨front, n, back, u', v', rfl, hn, rfl⟩ := exists_split_flatMap hl
    have hrange := (h.mem n).1 (by simp)
    have hk := ((hf n).mem k).1 (by simp [hn])
    have hearlier (j : Nat) (hj : lo ≤ j ∧ j ≤ hi) (hbefore : Before greedy j n)
        (hm : j + lo' ≤ m ∧ m ≤ j + hi') : m ∈ front.flatMap f ++ u' :=
      List.mem_append_left _ (List.mem_flatMap.2 ⟨j, h.order rfl j hj.1 hj.2 hbefore,
        ((hf j).mem m).2 hm⟩)
    by_cases hm : n + lo' ≤ m ∧ m ≤ n + hi'
    · exact List.mem_append_right _ ((hf n).order hn m hm.1 hm.2 hbefore)
    · -- `m` is not reached from `n`, but from a number before it.
      unfold Before at hbefore hearlier
      cases greedy with
      | true =>
        simp only [↓reduceIte] at hbefore hearlier
        exact hearlier (m - hi') (by omega) (by omega) (by omega)
      | false =>
        simp only [Bool.false_eq_true, ↓reduceIte] at hbefore hearlier
        exact hearlier (m - lo') (by omega) (by omega) (by omega)

/-- A part of the range. -/
theorem filter {p : Nat → Bool} (h : Sweeps greedy lo hi l) (hlo : lo ≤ lo') (hhi : hi' ≤ hi)
    (hp : ∀ n, lo ≤ n → n ≤ hi → (p n = true ↔ lo' ≤ n ∧ n ≤ hi')) :
    Sweeps greedy lo' hi' (l.filter p) where
  mem n := by
    rw [List.mem_filter, h.mem]
    constructor
    · rintro ⟨hn, hpn⟩
      exact (hp n hn.1 hn.2).1 hpn
    · intro hn
      have hrange : lo ≤ n ∧ n ≤ hi := by omega
      exact ⟨hrange, (hp n hrange.1 hrange.2).2 hn⟩
  order := by
    intro u n v hl m hlo' hhi' hbefore
    obtain ⟨front, back, hsplit, rfl, hback⟩ := List.filter_eq_append_iff.1 hl
    obtain ⟨skipped, rest, rfl, hskipped, -, -⟩ := List.filter_eq_cons_iff.1 hback
    have hm := h.order (u := front ++ skipped) (by rw [hsplit, List.append_assoc]) m (by omega)
      (by omega) hbefore
    have hpm : p m = true := (hp m (by omega) (by omega)).2 ⟨hlo', hhi'⟩
    rcases List.mem_append.1 hm with hm | hm
    · exact List.mem_filter.2 ⟨hm, hpm⟩
    · exact absurd hpm (hskipped m hm)

/-- A greedy list can end with the number below it. -/
theorem concat (h : Sweeps true (lo + 1) hi l) (hle : lo ≤ hi) : Sweeps true lo hi (l ++ [lo]) where
  mem n := by
    rw [List.mem_append, h.mem, List.mem_singleton]
    omega
  order := by
    intro u n v hl m hlo hhi hbefore
    have hmn : n < m := hbefore
    rcases List.append_eq_append_iff.1 hl with ⟨w, rfl, hw⟩ | ⟨w, hw, hv⟩
    · have hm := (h.mem m).2
      obtain ⟨rfl, hn⟩ : w = [] ∧ lo = n := by
        cases w with
        | nil => simpa using (List.cons.inj hw).1
        | cons => simp at hw
      simpa using hm (by omega)
    · cases w with
      | nil =>
        obtain rfl : l = u := by simpa using hw
        have hn : n = lo := by simpa using (List.cons.inj hv).1
        exact (h.mem m).2 (by omega)
      | cons k w =>
        obtain rfl : n = k := (List.cons.inj hv).1
        have hn := (h.mem n).1 (by simp [hw])
        exact h.order hw m (by omega) hhi hbefore

/-- A lazy list can start with the number below it. -/
theorem cons (h : Sweeps false (lo + 1) hi l) (hle : lo ≤ hi) : Sweeps false lo hi (lo :: l) where
  mem n := by
    rw [List.mem_cons, h.mem]
    omega
  order := by
    intro u n v hl m hlo hhi hbefore
    have hmn : m < n := hbefore
    cases u with
    | nil =>
      have := (List.cons.inj hl).1
      omega
    | cons k u =>
      obtain ⟨rfl, hrest⟩ := List.cons.inj hl
      by_cases hm : m = lo
      · exact hm ▸ List.mem_cons_self
      · exact List.mem_cons_of_mem _ (h.order hrest m (by omega) hhi hbefore)

/-- The number a list starts with. -/
theorem eq_cons (h : Sweeps greedy lo hi l) (hle : lo ≤ hi) :
    ∃ rest, l = (if greedy then hi else lo) :: rest := by
  cases l with
  | nil =>
    have := (h.mem lo).2 ⟨Nat.le_refl _, hle⟩
    cases this
  | cons n rest =>
    have hn := (h.mem n).1 List.mem_cons_self
    have hfirst := h.order (u := []) rfl
    refine ⟨rest, ?_⟩
    cases greedy with
    | true =>
      by_contra hne
      have hlt : n < hi := by
        simp only [↓reduceIte, List.cons.injEq, and_true] at hne
        omega
      cases hfirst hi hle (Nat.le_refl _) hlt
    | false =>
      by_contra hne
      have hlt : lo < n := by
        simp only [Bool.false_eq_true, ↓reduceIte, List.cons.injEq, and_true] at hne
        omega
      cases hfirst lo (Nat.le_refl _) hle hlt

/-- The list without the number it starts with. -/
theorem tail (h : Sweeps greedy lo (lo + n + 1) (m :: l)) :
    Sweeps greedy (lo + if greedy then 0 else 1) (lo + (if greedy then 0 else 1) + n)
      (l.filter fun k => !k == m) := by
  obtain ⟨rest, hfirst⟩ := h.eq_cons (by omega)
  obtain ⟨rfl, rfl⟩ := List.cons.inj hfirst
  have hskip := List.filter_cons_of_neg (a := if greedy then lo + n + 1 else lo) (l := l)
    (p := fun k => !k == if greedy then lo + n + 1 else lo) (by simp)
  rw [← hskip]
  cases greedy with
  | true => exact h.filter (by simp) (by simp) (by simp; omega)
  | false => exact h.filter (by simp) (by simp; omega) (by simp; omega)

/-- Two lists in order through one range differ only in repetitions. -/
theorem eraseDups_eq (h : Sweeps greedy lo hi l) (h' : Sweeps greedy lo hi l') (hle : lo ≤ hi) :
    l.eraseDups = l'.eraseDups := by
  obtain ⟨size, rfl⟩ := Nat.exists_eq_add_of_le hle
  induction size generalizing lo l l' with
  | zero =>
    have hone {l : List Nat} (h : Sweeps greedy lo lo l) : l.eraseDups = [lo] := by
      obtain ⟨rest, rfl⟩ := h.eq_cons (Nat.le_refl _)
      have hrest : (rest.filter fun k => !k == lo) = [] :=
        List.filter_eq_nil_iff.2 fun k hk => by
          have := (h.mem k).1 (List.mem_cons_of_mem _ hk)
          simp [(by omega : k = lo)]
      simp [List.eraseDups_cons, hrest]
    rw [hone h, hone h']
  | succ size ih =>
    obtain ⟨rest, rfl⟩ := h.eq_cons hle
    obtain ⟨rest', rfl⟩ := h'.eq_cons hle
    rw [List.eraseDups_cons, List.eraseDups_cons, ih h.tail h'.tail (Nat.le_add_right _ _)]

/-- Of two numbers of the range the list comes first to the one that is before the other. -/
theorem find?_eq (h : Sweeps greedy lo hi l) (hm : lo ≤ m ∧ m ≤ hi) (hbefore : Before greedy m n) :
    l.find? (fun k => k == m || k == n) = some m := by
  cases hfind : l.find? fun k => k == m || k == n with
  | none =>
    have := List.find?_eq_none.1 hfind m ((h.mem m).2 hm)
    simp at this
  | some k =>
    obtain ⟨hk, u, v, rfl, hu⟩ := List.find?_eq_some_iff_append.1 hfind
    rw [Bool.or_eq_true, beq_iff_eq, beq_iff_eq] at hk
    rcases hk with rfl | rfl
    · rfl
    · have hmem := h.order rfl m hm.1 hm.2 hbefore
      have := hu m hmem
      simp at this

end Sweeps

/-! ## Quantifiers in order -/

namespace Steps

variable {greedy : Bool} {round : Nat → List Nat} {lo hi least most n : Nat}

theorem sweeps_forced (hle : lo ≤ hi) (h : ∀ n, Sweeps greedy (n + lo) (n + hi) (round n))
    (count n : Nat) : Sweeps greedy (n + lo * count) (n + hi * count) (forced round count n) := by
  induction count generalizing n with
  | zero => exact .single greedy n
  | succ count ih =>
    have hrest := (h n).flatMap (by omega) (Nat.mul_le_mul_right count hle) ih
    rw [Nat.add_assoc, Nat.add_assoc] at hrest
    rw [Nat.mul_succ, Nat.mul_succ, Nat.add_comm (lo * count), Nat.add_comm (hi * count)]
    exact hrest

/-- Rounds that may be left out keep the order if a round adds one or nothing at the least. -/
theorem sweeps_optional (hlo : lo ≤ 1) (hle : lo ≤ hi)
    (h : ∀ n, Sweeps greedy (n + lo) (n + hi) (round n)) (count n : Nat) :
    Sweeps greedy n (n + hi * count) (optional differs round greedy count n) := by
  induction count generalizing n with
  | zero => exact .single greedy n
  | succ count ih =>
    simp only [optional]
    rcases Nat.eq_zero_or_pos hi with rfl | hpos
    · have hnone : (round n).filter (differs n) = [] := List.filter_eq_nil_iff.2 fun k hk => by
        have := ((h n).mem k).1 hk
        simp [differs, (by omega : k = n)]
      rw [hnone]
      cases greedy <;> simpa using Sweeps.single _ n
    · have hmoving : Sweeps greedy (n + 1) (n + hi) ((round n).filter (differs n)) :=
        (h n).filter (by omega) (Nat.le_refl _) (by simp [differs]; omega)
      have hmore := hmoving.flatMap (by omega) (Nat.zero_le (hi * count)) ih
      rw [Nat.add_zero, Nat.add_assoc n hi, Nat.add_comm hi, ← Nat.mul_succ] at hmore
      have hroom : n ≤ n + hi * (count + 1) := Nat.le_add_right _ _
      cases greedy with
      | true => exact hmore.concat hroom
      | false => exact hmore.cons hroom

theorem sweeps_repeated (hle : lo ≤ hi) (hcount : least ≤ most) (hlo : lo ≤ 1 ∨ least = most)
    (h : ∀ n, Sweeps greedy (n + lo) (n + hi) (round n)) {g : Bool} (hg : g = greedy ∨ least = most)
    (n : Nat) : Sweeps greedy (n + lo * least) (n + hi * most)
      (repeated differs round g least (most - least) n) := by
  obtain ⟨more, rfl⟩ := Nat.exists_eq_add_of_le hcount
  have hforced := sweeps_forced hle h least n
  have hmul := Nat.mul_le_mul_right least hle
  rw [Nat.add_sub_cancel_left, Nat.mul_add, ← Nat.add_assoc]
  refine hforced.flatMap (by omega) (Nat.zero_le _) fun k => ?_
  rw [Nat.add_zero]
  by_cases hmore : more = 0
  · rw [hmore]
    exact .single greedy k
  · obtain rfl := hg.resolve_right (by omega)
    exact sweeps_optional (hlo.resolve_right (by omega)) hle h more k

theorem sweeps_once (greedy : Bool) (hcount : least ≤ most) (n : Nat) :
    Sweeps greedy (n + least) (n + most)
      (repeated differs once greedy least (most - least) n) := by
  have h := sweeps_repeated (Nat.le_refl 1) hcount (.inl (Nat.le_refl 1))
    (fun n => Sweeps.single greedy (n + 1)) (.inl rfl) n
  rwa [Nat.one_mul, Nat.one_mul] at h

theorem le_of_mem_optional (h : ∀ n, ∀ k ∈ round n, n ≤ k) {count k : Nat}
    (hk : k ∈ optional differs round greedy count n) : n ≤ k := by
  induction count generalizing n with
  | zero => exact (List.mem_singleton.1 hk).ge
  | succ count ih =>
    rcases mem_optional.1 hk with rfl | ⟨u, hu, -, hk⟩
    · exact Nat.le_refl _
    · exact Nat.le_trans (h n u hu) (ih hk)

/-- A greedy quantifier whose rounds add two or more leaves out what is between its last two. -/
theorem find?_greedy {m : Nat} (h : ∀ n, ∀ k ∈ round n, n + 2 ≤ k) (count : Nat) :
    (optional differs round true (count + 1) m).find? (fun k => k == m + 1 || k == m) = some m := by
  have hmore : (((round m).filter (differs m)).flatMap (optional differs round true count)).find?
      (fun k => k == m + 1 || k == m) = none := by
    refine List.find?_eq_none.2 fun k hk => ?_
    obtain ⟨u, hu, hk⟩ := List.mem_flatMap.1 hk
    have hlow := h m u (List.mem_filter.1 hu).1
    have hnext := le_of_mem_optional (fun n k hk => Nat.le_of_add_right_le (h n k hk)) hk
    simp
    omega
  simp only [optional, ↓reduceIte, List.find?_append, hmore]
  simp

/-- A lazy quantifier whose rounds add two or more leaves out what is between its first two. -/
theorem find?_lazy {m least : Nat} {rest : List Nat} (hround : round m = (m + least) :: rest)
    (hleast : 2 ≤ least) (count : Nat) :
    (optional differs round false (count + 1) m).find? (fun k => k == m + 1 || k == m + least) =
      some (m + least) := by
  have hmoves : differs m (m + least) = true := by
    simp [differs]
    omega
  obtain ⟨later, hlater⟩ :
      ∃ later, optional differs round false count (m + least) = (m + least) :: later := by
    cases count with
    | zero => exact ⟨[], rfl⟩
    | succ count => exact ⟨_, rfl⟩
  have hfirst : (m == m + 1 || m == m + least) = false := by
    simp
    omega
  simp only [optional, hround, List.filter_cons_of_pos hmoves, List.flatMap_cons, hlater,
    Bool.false_eq_true, ↓reduceIte]
  simp [hfirst]

end Steps

/-! ## Nested quantifiers -/

namespace NestedQuantifier

open Steps

/-- A quantifier over a plain group that holds nothing but a quantifier. -/
structure Nesting where
  outer : Bounds
  outerGreedy : Bool
  outerLexeme : List Char
  inner : Bounds
  innerGreedy : Bool
  innerLexeme : List Char
  element : Node

/-- The totals of one quantifier with finite bounds, in the order in which they are tried. -/
def trials (least most : Nat) (greedy : Bool) : List Nat :=
  repeated differs once greedy least (most - least) 0

namespace Nesting

def node (x : Nesting) : Node :=
  .quantifier x.outer x.outerGreedy x.outerLexeme
    (.choice .plain [.alternative [.quantifier x.inner x.innerGreedy x.innerLexeme x.element]])

/-- Whether the quantifier in place of the two is greedy. -/
def greedy (x : Nesting) : Bool := if x.outer.isFixed then x.innerGreedy else x.outerGreedy

/-- The two quantifiers are written as one, with these bounds. -/
structure Merges (x : Nesting) (bounds : Bounds) : Prop where
  greedy : canMerge x.outer x.outerGreedy ⟨x.inner, x.innerGreedy, x.element⟩ = true
  bounds : x.inner.combine? x.outer = some bounds

/-- The totals of the two quantifiers, with at most `b` repetitions in each of at most `d` rounds, in
the order in which they are tried. -/
def trials (x : Nesting) (b d : Nat) : List Nat :=
  repeated differs (repeated differs once x.innerGreedy x.inner.min (b - x.inner.min)) x.outerGreedy
    x.outer.min (d - x.outer.min) 0

/-- One of the two quantifiers has no choice, or a round of the outer one may be as short as one. -/
def Orderly (x : Nesting) : Prop :=
  x.outer.isFixed = true ∨ x.inner.isFixed = true ∨ x.inner.min ≤ 1

variable {x : Nesting} {bounds : Bounds} {b d : Nat}

theorem Merges.hasNoGaps (h : x.Merges bounds) : x.inner.hasNoGaps x.outer = true :=
  (Bounds.combine?_eq_some_iff.1 h.bounds).1

theorem Merges.eq_ofTotals (h : x.Merges bounds) : bounds = x.inner.ofTotals x.outer :=
  (Bounds.combine?_eq_some_iff.1 h.bounds).2.2

theorem Merges.max_eq (h : x.Merges bounds) (hb : x.inner.max = some b) (hd : x.outer.max = some d) :
    bounds.max = some (b * d) := by
  rw [h.eq_ofTotals]
  show x.inner.totalMax x.outer = some (b * d)
  rw [Bounds.totalMax, hb, hd]
  cases b <;> cases d <;> simp

theorem Merges.greedy_cases (h : x.Merges bounds) :
    x.outer.isFixed = true ∨ x.inner.isFixed = true ∨ x.outerGreedy = x.innerGreedy := by
  have hgreedy := h.greedy
  simp only [canMerge, Bool.or_eq_true, beq_iff_eq] at hgreedy
  tauto

/-- The inner quantifier of a merged nesting that leaves the outer one a choice is at most 1 if it
leaves none itself. -/
theorem Merges.min_le_one (h : x.Merges bounds) (houter : x.outer.isFixed = false)
    (hinner : x.inner.isFixed = true) : x.inner.min ≤ 1 := by
  have hgaps := h.hasNoGaps
  rw [Bounds.isFixed, beq_iff_eq] at hinner
  rw [Bounds.hasNoGaps, houter, hinner, Bool.false_or, decide_eq_true_eq, Nat.mul_succ] at hgaps
  omega

theorem sweeps_trials (h : x.Merges bounds) (hb : x.inner.max = some b) (hd : x.outer.max = some d)
    (horderly : x.Orderly) :
    Sweeps x.greedy (x.inner.min * x.outer.min) (b * d) (x.trials b d) := by
  have hinner := x.inner.ordered b hb
  have houter := x.outer.ordered d hd
  have hround := sweeps_once x.innerGreedy hinner
  rw [← Nat.zero_add (x.inner.min * _), ← Nat.zero_add (b * d)]
  unfold greedy
  cases hfixed : x.outer.isFixed with
  | true =>
    have heq : x.outer.min = d := by
      rw [Bounds.isFixed, beq_iff_eq, hd] at hfixed
      exact (Option.some.inj hfixed).symm
    exact sweeps_repeated hinner houter (.inr heq) hround (.inr heq) 0
  | false =>
    simp only [Bool.false_eq_true, ↓reduceIte]
    have hmin : x.inner.min ≤ 1 := by
      rcases horderly with hfixed' | hfixed' | hmin
      · rw [hfixed] at hfixed'
        cases hfixed'
      · exact h.min_le_one hfixed hfixed'
      · exact hmin
    refine sweeps_repeated hinner houter (.inl hmin) (fun n => ?_) (.inl rfl) 0
    rcases h.greedy_cases with hfixed' | hfixed' | hgreedy
    · rw [hfixed] at hfixed'
      cases hfixed'
    · obtain rfl : b = x.inner.min := by
        rw [Bounds.isFixed, beq_iff_eq, hb] at hfixed'
        exact Option.some.inj hfixed'
      exact (hround n).of_single _
    · rw [hgreedy]
      exact hround n

theorem sweeps_merged (h : x.Merges bounds) (hb : x.inner.max = some b) (hd : x.outer.max = some d)
    (greedy : Bool) : Sweeps greedy (x.inner.min * x.outer.min) (b * d)
      (NestedQuantifier.trials bounds.min (b * d) greedy) := by
  have hle := bounds.ordered _ (h.max_eq hb hd)
  have hmin : bounds.min = x.inner.min * x.outer.min := by
    rw [h.eq_ofTotals]
    rfl
  have hsweeps := sweeps_once greedy hle 0
  rw [Nat.zero_add, Nat.zero_add] at hsweeps
  rw [← hmin]
  exact hsweeps

/-- The totals start with those of the forced rounds that are tried first. -/
theorem exists_trials_eq (x : Nesting) (hb : x.inner.min ≤ b) (d : Nat) : ∃ rest, x.trials b d =
    optional differs (repeated differs once x.innerGreedy x.inner.min (b - x.inner.min)) x.outerGreedy
      (d - x.outer.min) ((if x.innerGreedy then b else x.inner.min) * x.outer.min) ++ rest := by
  have hforced := sweeps_forced hb (sweeps_once x.innerGreedy hb) x.outer.min 0
  obtain ⟨rest, hfirst⟩ := hforced.eq_cons (by have := Nat.mul_le_mul_right x.outer.min hb; omega)
  rw [trials, repeated, hfirst, List.flatMap_cons]
  cases x.innerGreedy <;> exact ⟨_, by simp only [Nat.zero_add]; rfl⟩

/-- If both have a choice, and a round of the outer one adds two or more, then two totals are tried
the other way round. -/
theorem exists_find?_ne (h : x.Merges bounds) (hb : x.inner.max = some b)
    (hd : x.outer.max = some d) (horderly : ¬ x.Orderly) :
    ∃ ok : Nat → Bool, (x.trials b d).find? ok ≠
      (NestedQuantifier.trials bounds.min (b * d) x.greedy).find? ok := by
  obtain ⟨houter, hinner, hmin⟩ : x.outer.isFixed = false ∧ x.inner.isFixed = false ∧
      2 ≤ x.inner.min := by
    simp only [Orderly, not_or, Bool.not_eq_true] at horderly
    exact ⟨horderly.1, horderly.2.1, by omega⟩
  have hsame : x.outerGreedy = x.innerGreedy := by
    simpa [houter, hinner] using h.greedy_cases
  have hgreedy : x.greedy = x.innerGreedy := by
    rw [greedy, houter, ← hsame]
    rfl
  have hb' : x.inner.min < b := (Bounds.allows_succ_min hinner).2 b hb
  have hd' : x.outer.min < d := (Bounds.allows_succ_min houter).2 d hd
  have hround := sweeps_once x.innerGreedy hb'.le
  have hmerged := sweeps_merged h hb hd x.greedy
  have hmul : x.inner.min * x.outer.min ≤ b * x.outer.min := Nat.mul_le_mul_right _ hb'.le
  have hroom : b * (x.outer.min + 1) ≤ b * d := Nat.mul_le_mul_left b hd'
  rw [Nat.mul_succ] at hroom
  obtain ⟨rest, htrials⟩ := x.exists_trials_eq hb'.le d
  obtain ⟨count, hcount⟩ : ∃ count, d - x.outer.min = count + 1 := ⟨d - x.outer.min - 1, by omega⟩
  rw [hsame, hcount] at htrials
  rw [hgreedy] at hmerged ⊢
  cases hx : x.innerGreedy with
  | true =>
    rw [hx] at htrials hmerged hround
    refine ⟨fun k => k == b * x.outer.min + 1 || k == b * x.outer.min, ?_⟩
    rw [hmerged.find?_eq (by omega) (show b * x.outer.min < b * x.outer.min + 1 by omega), htrials,
      List.find?_append, if_pos rfl, find?_greedy fun n k hk => by
        have := ((hround n).mem k).1 hk
        omega]
    simp
  | false =>
    rw [hx] at htrials hmerged hround
    obtain ⟨later, hlater⟩ := (hround (x.inner.min * x.outer.min)).eq_cons (by omega)
    refine ⟨fun k => k == x.inner.min * x.outer.min + 1 ||
      k == x.inner.min * x.outer.min + x.inner.min, ?_⟩
    rw [hmerged.find?_eq (by omega)
      (show x.inner.min * x.outer.min + 1 < x.inner.min * x.outer.min + x.inner.min by omega), htrials,
      List.find?_append, if_neg Bool.false_ne_true, find?_lazy hlater hmin]
    simp
    omega

/-- The totals are tried in the same order if and only if the nesting is orderly. -/
theorem eraseDups_trials_iff (h : x.Merges bounds) (hb : x.inner.max = some b)
    (hd : x.outer.max = some d) :
    (x.trials b d).eraseDups = (NestedQuantifier.trials bounds.min (b * d) x.greedy).eraseDups ↔
      x.Orderly := by
  constructor
  · intro hsame
    by_contra horderly
    obtain ⟨ok, hne⟩ := exists_find?_ne h hb hd horderly
    rw [← find?_eraseDups, hsame, find?_eraseDups] at hne
    exact hne rfl
  · intro horderly
    have hle : x.inner.min * x.outer.min ≤ b * d :=
      Nat.mul_le_mul (x.inner.ordered b hb) (x.outer.ordered d hd)
    exact (sweeps_trials h hb hd horderly).eraseDups_eq (sweeps_merged h hb hd _) hle

end Nesting

end NestedQuantifier

end RegexAudit
