import RegexAudit.Analysis.Reach
import RegexAudit.Proofs.Matching

/-!
# First characters are a superset

`First.Describes x d P f` says that `f` is right about the stretches that `P` matches, walked in the
direction `d`: one that is not empty starts with a character of `f`, and at an empty one the look of
`f` holds. Each way to put parts together keeps this, so that what an analysis says of a node follows
from what it says of the parts.

Sets are intersected on the way, which is only exact for sorted ones; so every set is kept sorted.
-/

namespace RegexAudit

/-! ## Directions -/

theorem Direction.mem_of_mem_beyond {α : Type} {d : Direction} {slot : Nat} {parts : List α} {part : α}
    (h : part ∈ (d.beyond slot parts).2) : part ∈ parts := by
  cases d with
  | forward => exact List.mem_of_mem_drop h
  | backward => exact List.mem_of_mem_take h

namespace Span

/-- The stretches as a direction walks them, from the near end to the far end. -/
def toward (P : Span) : Direction → Span
  | .forward => P
  | .backward => fun a b => P b a

/-- Two spans in a row; the direction meets `P` first. -/
def meeting (P Q : Span) : Direction → Span
  | .forward => P.andThen Q
  | .backward => Q.andThen P

@[simp] theorem toward_self (P : Span) (d : Direction) (a : Nat) : P.toward d a a ↔ P a a := by
  cases d <;> rfl

@[simp] theorem toward_empty (d : Direction) : empty.toward d = empty := by
  cases d with
  | forward => rfl
  | backward =>
    funext a b
    exact propext eq_comm

/-- Seen in a direction, two parts that meet come one after the other. -/
theorem toward_meeting (P Q : Span) (d : Direction) :
    (P.meeting Q d).toward d = (P.toward d).andThen (Q.toward d) := by
  cases d with
  | forward => rfl
  | backward =>
    funext a b
    apply propext
    constructor
    · rintro ⟨k, h1, h2⟩
      exact ⟨k, h2, h1⟩
    · rintro ⟨k, h1, h2⟩
      exact ⟨k, h2, h1⟩

@[simp] theorem empty_meeting (P : Span) (d : Direction) : empty.meeting P d = P := by
  cases d with
  | forward => exact empty_andThen P
  | backward => exact andThen_empty P

@[simp] theorem meeting_empty (P : Span) (d : Direction) : P.meeting empty d = P := by
  cases d with
  | forward => exact andThen_empty P
  | backward => exact empty_andThen P

theorem toward_power (P : Span) (k : Nat) (d : Direction) :
    (P.power k).toward d = (P.toward d).power k := by
  cases d with
  | forward => rfl
  | backward =>
    induction k with
    | zero => exact toward_empty .backward
    | succ k ih =>
      have hlast : P.power (k + 1) = (P.power k).andThen P := by
        rw [power_add, power_one]
      have hturn : ((P.power k).andThen P).toward .backward
          = (P.toward .backward).andThen ((P.power k).toward .backward) :=
        toward_meeting P (P.power k) .backward
      rw [hlast, hturn, ih]
      rfl

theorem toward_test (p : Nat → Prop) (d : Direction) : (test p).toward d = test p := by
  cases d with
  | forward => rfl
  | backward =>
    funext i j
    apply propext
    constructor
    · rintro ⟨rfl, h⟩
      exact ⟨rfl, h⟩
    · rintro ⟨rfl, h⟩
      exact ⟨rfl, h⟩

theorem toward_oneOf (Ps : List Span) (d : Direction) :
    (oneOf Ps).toward d = oneOf (Ps.map (·.toward d)) := by
  cases d <;> funext i j <;> simp [oneOf, toward]

/-- A repetition is the same from both sides. -/
theorem toward_repeated (P : Span) (least : Nat) (most : Option Nat) (d : Direction) :
    (repeated least most P).toward d = repeated least most (P.toward d) := by
  cases d with
  | forward => rfl
  | backward =>
    funext i j
    simp only [repeated, ← toward_power]
    rfl

theorem seen_iff_toward {P : Span} {d : Direction} {i : Nat} : P.seen d i ↔ ∃ j, P.toward d i j := by
  cases d <;> rfl

/-- The near end is reached before the far end. -/
def Ordered (P : Span) : Prop := ∀ i j, P i j → i ≤ j

theorem Within.ordered {n : Nat} {P : Span} (h : Within n P) : P.Ordered :=
  fun i j hij => (h i j hij).1

theorem Ordered.andThen {P Q : Span} (hP : P.Ordered) (hQ : Q.Ordered) : (P.andThen Q).Ordered := by
  rintro i j ⟨k, h1, h2⟩
  exact Nat.le_trans (hP i k h1) (hQ k j h2)

theorem Ordered.meeting {P Q : Span} (hP : P.Ordered) (hQ : Q.Ordered) (d : Direction) :
    (P.meeting Q d).Ordered := by
  cases d with
  | forward => exact hP.andThen hQ
  | backward => exact hQ.andThen hP

/-- A direction that comes back to where it was has not moved. -/
theorem Ordered.toward_antisymm {P Q : Span} (hP : P.Ordered) (hQ : Q.Ordered) {d : Direction}
    {a b : Nat} (h1 : P.toward d a b) (h2 : Q.toward d b a) : a = b := by
  cases d with
  | forward =>
    have := hP a b h1
    have := hQ b a h2
    omega
  | backward =>
    have := hP b a h1
    have := hQ a b h2
    omega

end Span

/-! ## Looks -/

/-- What the look says of a position is true: its characters include the next one, and if there is
none, the edge is allowed. -/
def Look.Holds (x : Input) (d : Direction) (look : Look) (a : Nat) : Prop :=
  match x.beside d a with
  | some c => c ∈ look.chars
  | none => look.edge = true

namespace Look

variable {x : Input} {d : Direction} {look other : Look} {a : Nat}

theorem holds_some {c : Char} (h : x.beside d a = some c) : look.Holds x d a ↔ c ∈ look.chars := by
  rw [Holds, h]

theorem holds_none (h : x.beside d a = none) : look.Holds x d a ↔ look.edge = true := by
  rw [Holds, h]

theorem holds_of_all (hchars : look.chars = .all) (hedge : look.edge = true) :
    look.Holds x d a := by
  unfold Holds
  split
  · rw [hchars]
    exact CharSet.mem_all _
  · exact hedge

theorem holds_anything : anything.Holds x d a := holds_of_all rfl rfl

theorem holds_unknown : unknown.Holds x d a := holds_of_all rfl rfl

/-- Two looks that hold can be asked for at once. -/
theorem holds_both (hs : look.chars.Sorted) (ht : other.chars.Sorted) (h1 : look.Holds x d a)
    (h2 : other.Holds x d a) : (look.both other).Holds x d a := by
  cases h : x.beside d a with
  | some c =>
    rw [holds_some h] at h1 h2 ⊢
    exact (CharSet.mem_meet hs ht c).2 ⟨h1, h2⟩
  | none =>
    rw [holds_none h] at h1 h2 ⊢
    exact Bool.and_eq_true_iff.2 ⟨h1, h2⟩

/-- A look that holds stays one with others beside it. -/
theorem holds_either (h : look.Holds x d a ∨ other.Holds x d a) :
    (look.either other).Holds x d a := by
  cases hc : x.beside d a with
  | some c =>
    rw [holds_some hc, holds_some hc] at h
    rw [holds_some hc]
    exact (CharSet.mem_join _ _ c).2 h
  | none =>
    rw [holds_none hc, holds_none hc] at h
    rw [holds_none hc]
    exact Bool.or_eq_true_iff.2 h

end Look

namespace First

/-- All sets are sorted. -/
structure Sorted (f : First) : Prop where
  chars : f.chars.Sorted
  look : ∀ look, f.look? = some look → look.chars.Sorted

/-- The character at a position may be consumed first, or nothing is and the look holds. -/
def Holds (x : Input) (d : Direction) (f : First) (a : Nat) : Prop :=
  (∃ c, x.beside d a = some c ∧ c ∈ f.chars) ∨ ∃ look, f.look? = some look ∧ look.Holds x d a

/-- What `f` says is true of every stretch of `P`. -/
structure Describes (x : Input) (d : Direction) (P : Span) (f : First) : Prop where
  sorted : f.Sorted
  ordered : P.Ordered
  consumed : ∀ a b, P.toward d a b → a ≠ b → ∃ c, x.beside d a = some c ∧ c ∈ f.chars
  nothing : ∀ a, P a a → ∃ look, f.look? = some look ∧ look.Holds x d a

section
variable {x : Input} {d : Direction} {P Q : Span} {f g : First} {a b : Nat}

/-- Fewer matches are described by the same. -/
theorem Describes.mono (h : Describes x d P f) (hQ : ∀ i j, Q i j → P i j) : Describes x d Q f where
  sorted := h.sorted
  ordered := fun i j hij => h.ordered i j (hQ i j hij)
  consumed := by
    intro a b hab
    apply h.consumed
    cases d with
    | forward => exact hQ a b hab
    | backward => exact hQ b a hab
  nothing := fun a ha => h.nothing a (hQ a a ha)

/-- Where a part can be matched, its first character is one that was found. -/
theorem Describes.holds (h : Describes x d P f) (hab : P.toward d a b) : f.Holds x d a := by
  by_cases heq : a = b
  · subst heq
    exact Or.inr (h.nothing a ((Span.toward_self P d a).1 hab))
  · exact Or.inl (h.consumed a b hab heq)

/-- A look forgets only how sure the first character is. -/
theorem toLook_holds (h : f.Holds x d a) : f.toLook.Holds x d a := by
  unfold toLook
  rcases h with ⟨c, hc, hmem⟩ | ⟨look, hlook, hholds⟩
  · rw [Look.holds_some hc]
    split
    · exact hmem
    · exact (CharSet.mem_join _ _ c).2 (Or.inl hmem)
  · rw [hlook]
    cases hc : x.beside d a with
    | some c =>
      rw [Look.holds_some hc] at hholds ⊢
      exact (CharSet.mem_join _ _ c).2 (Or.inr hholds)
    | none =>
      rw [Look.holds_none hc] at hholds ⊢
      exact hholds

theorem sorted_toLook (h : f.Sorted) : f.toLook.chars.Sorted := by
  unfold toLook
  split
  · exact h.chars
  · exact CharSet.sorted_join h.chars _

/-! ## Single parts -/

/-- A set tells which characters its part takes. -/
theorem describes_always {set : CharSet} (hset : set.Sorted) :
    Describes x d (x.oneIn set) (always set) where
  sorted := ⟨hset, nofun⟩
  ordered := (x.within_oneIn set).ordered
  consumed := by
    intro a b hab _
    cases d with
    | forward =>
      obtain ⟨rfl, c, hc, htext⟩ := hab
      exact ⟨c, htext, hc⟩
    | backward =>
      obtain ⟨rfl, c, hc, htext⟩ := hab
      exact ⟨c, htext, hc⟩
  nothing := by
    rintro a ⟨h, -⟩
    omega

theorem sorted_unknown : unknown.Sorted :=
  ⟨CharSet.sorted_all, fun look hlook => by cases hlook; exact CharSet.sorted_all⟩

theorem holds_unknown : unknown.Holds x d a := Or.inr ⟨_, rfl, Look.holds_unknown⟩

theorem describes_unknown (hP : ∀ i j, P i j → i ≤ j ∧ j ≤ x.text.length) :
    Describes x d P unknown where
  sorted := sorted_unknown
  ordered := fun i j hij => (hP i j hij).1
  consumed := by
    intro a b hab hne
    cases d with
    | forward =>
      have := hP a b hab
      have ha : a < x.text.length := by omega
      exact ⟨x.text[a], List.getElem?_eq_getElem ha, CharSet.mem_all _⟩
    | backward =>
      have := hP b a hab
      obtain ⟨a, rfl⟩ : ∃ k, a = k + 1 := ⟨a - 1, by omega⟩
      have ha : a < x.text.length := by omega
      exact ⟨x.text[a], List.getElem?_eq_getElem ha, CharSet.mem_all _⟩
  nothing := fun a _ => ⟨_, rfl, Look.holds_unknown⟩

theorem sorted_nothing {look : Look} (h : look.chars.Sorted) : (nothing look).Sorted :=
  ⟨CharSet.sorted_empty, fun l hl => by cases hl; exact h⟩

/-- What takes no character is described by what it looks at. -/
theorem describes_nothing {look : Look} (hsorted : look.chars.Sorted)
    (hP : ∀ i j, P i j → i = j ∧ look.Holds x d i) : Describes x d P (nothing look) where
  sorted := sorted_nothing hsorted
  ordered := fun i j hij => Nat.le_of_eq (hP i j hij).1
  consumed := by
    intro a b hab hne
    cases d with
    | forward => exact absurd (hP a b hab).1 hne
    | backward => exact absurd (hP b a hab).1.symm hne
  nothing := fun a ha => ⟨_, rfl, (hP a a ha).2⟩

theorem describes_empty : Describes x d Span.empty (nothing .anything) :=
  describes_nothing CharSet.sorted_all fun _ _ hij => ⟨hij, Look.holds_anything⟩

/-! ## Parts in a row -/

theorem sorted_andThen {g : Unit → First} (hf : f.Sorted) (hg : (g ()).Sorted) :
    (f.andThen g).Sorted := by
  unfold andThen
  split
  · exact hf
  · rename_i look hlook
    refine ⟨CharSet.sorted_join hf.chars _, fun l hl => ?_⟩
    obtain ⟨m, hm, rfl⟩ := Option.map_eq_some_iff.1 hl
    exact CharSet.sorted_meet (hf.look look hlook) (hg.look m hm)

theorem sorted_row {parts : List First} (h : ∀ g ∈ parts, g.Sorted) : (row parts).Sorted := by
  have hfold : ∀ acc : First, acc.Sorted →
      (parts.foldl (fun x y => x.andThen fun _ => y) acc).Sorted := by
    induction parts with
    | nil => exact fun acc hacc => hacc
    | cons part parts ih =>
      rw [List.forall_mem_cons] at h
      exact fun acc hacc => ih h.2 _ (sorted_andThen hacc h.1)
  exact hfold _ (sorted_nothing CharSet.sorted_all)

theorem mem_andThen {g : Unit → First} {c : Char} (h : c ∈ f.chars) : c ∈ (f.andThen g).chars := by
  unfold andThen
  split
  · exact h
  · exact (CharSet.mem_join _ _ c).2 (Or.inl h)

/-- If nothing is consumed by `f`, the characters of `g` count as far as the look lets them. -/
theorem mem_andThen_of_look {g : Unit → First} {look : Look} {c : Char} (hf : f.Sorted)
    (hg : (g ()).Sorted) (hlook : f.look? = some look) (hc : c ∈ look.chars)
    (h : c ∈ (g ()).chars) : c ∈ (f.andThen g).chars := by
  have hmeet := (CharSet.mem_meet hg.chars (hf.look look hlook) c).2 ⟨h, hc⟩
  unfold andThen
  rw [hlook]
  exact (CharSet.mem_join _ _ c).2 (Or.inr hmeet)

theorem andThen_look? {g : Unit → First} {look other : Look} (hlook : f.look? = some look)
    (h : (g ()).look? = some other) : (f.andThen g).look? = some (look.both other) := by
  unfold andThen
  rw [hlook]
  simp only [h, Option.map_some]

/-- What follows a stretch of `P` holds, so what is said of `P` with it after holds before. -/
theorem Describes.holds_andThen {g : Unit → First} (h : Describes x d P f) (hg : (g ()).Sorted)
    (hab : P.toward d a b) (hb : (g ()).Holds x d b) : (f.andThen g).Holds x d a := by
  by_cases heq : a = b
  · subst heq
    obtain ⟨look, hlook, hholds⟩ := h.nothing a ((Span.toward_self P d a).1 hab)
    rcases hb with ⟨c, hc, hmem⟩ | ⟨other, hother, hholds'⟩
    · refine Or.inl ⟨c, hc, mem_andThen_of_look h.sorted hg hlook ?_ hmem⟩
      rwa [Look.holds_some hc] at hholds
    · refine Or.inr ⟨_, andThen_look? hlook hother, ?_⟩
      exact Look.holds_both (h.sorted.look look hlook) (hg.look other hother) hholds hholds'
  · obtain ⟨c, hc, hmem⟩ := h.consumed a b hab heq
    exact Or.inl ⟨c, hc, mem_andThen hmem⟩

/-- Parts that meet are described one after the other, in the order of the direction. -/
theorem Describes.andThen {g : Unit → First} (h : Describes x d P f)
    (h' : Describes x d Q (g ())) : Describes x d (P.meeting Q d) (f.andThen g) where
  sorted := sorted_andThen h.sorted h'.sorted
  ordered := h.ordered.meeting h'.ordered d
  consumed := by
    intro a b hab hne
    rw [Span.toward_meeting] at hab
    obtain ⟨k, hak, hkb⟩ := hab
    by_cases heq : a = k
    · subst heq
      obtain ⟨look, hlook, hholds⟩ := h.nothing a ((Span.toward_self P d a).1 hak)
      obtain ⟨c, hc, hmem⟩ := h'.consumed a b hkb hne
      rw [Look.holds_some hc] at hholds
      exact ⟨c, hc, mem_andThen_of_look h.sorted h'.sorted hlook hholds hmem⟩
    · obtain ⟨c, hc, hmem⟩ := h.consumed a k hak heq
      exact ⟨c, hc, mem_andThen hmem⟩
  nothing := by
    intro a ha
    have ha := (Span.toward_self (P.meeting Q d) d a).2 ha
    rw [Span.toward_meeting] at ha
    obtain ⟨k, hak, hka⟩ := ha
    have heq := h.ordered.toward_antisymm h'.ordered hak hka
    subst heq
    obtain ⟨look, hlook, hholds⟩ := h.nothing a ((Span.toward_self P d a).1 hak)
    obtain ⟨other, hother, hholds'⟩ := h'.nothing a ((Span.toward_self Q d a).1 hka)
    refine ⟨_, andThen_look? hlook hother, ?_⟩
    exact Look.holds_both (h.sorted.look look hlook) (h'.sorted.look other hother) hholds hholds'

/-- So is a row of any length. -/
theorem describes_row {α : Type} {P : α → Span} {f : α → First} {parts : List α}
    (h : ∀ part ∈ parts, Describes x d (P part) (f part)) :
    Describes x d (Span.row (parts.map P)) (row (d.arrange (parts.map f))) := by
  cases d with
  | forward =>
    -- what came before is in front of the parts that are left
    have hfold : ∀ (A : Span) (acc : First), Describes x .forward A acc →
        Describes x .forward (A.andThen (Span.row (parts.map P)))
          ((parts.map f).foldl (fun x y => x.andThen fun _ => y) acc) := by
      induction parts with
      | nil =>
        intro A acc hacc
        simpa [Span.andThen_empty] using hacc
      | cons part parts ih =>
        intro A acc hacc
        rw [List.forall_mem_cons] at h
        rw [List.map_cons, List.map_cons, Span.row_cons, List.foldl_cons, ← Span.andThen_assoc]
        exact ih h.2 _ _ (hacc.andThen h.1)
    have := hfold Span.empty (nothing .anything) describes_empty
    rwa [Span.empty_andThen] at this
  | backward =>
    have hrow : row ((parts.map f).reverse)
        = (parts.map f).foldr (fun y x => x.andThen fun _ => y) (nothing .anything) := by
      rw [row, List.foldl_reverse]
    show Describes x .backward (Span.row (parts.map P)) (row ((parts.map f).reverse))
    rw [hrow]
    induction parts with
    | nil => exact describes_empty
    | cons part parts ih =>
      rw [List.forall_mem_cons] at h
      have hrest := ih h.2 (by rw [row, List.foldl_reverse])
      exact hrest.andThen (g := fun _ => f part) h.1

theorem row_pair (f g : First) :
    row [f, g] = ((nothing .anything).andThen fun _ => f).andThen fun _ => g := rfl

/-! ## One of some parts -/

/-- All that `g` allows is allowed by `f`. -/
structure Includes (f g : First) : Prop where
  chars : ∀ c, c ∈ g.chars → c ∈ f.chars
  look : ∀ {x d a look}, g.look? = some look → look.Holds x d a →
    ∃ more, f.look? = some more ∧ more.Holds x d a

theorem includes_refl (f : First) : Includes f f :=
  ⟨fun _ => id, fun hlook hholds => ⟨_, hlook, hholds⟩⟩

theorem Includes.trans {h : First} (hfg : Includes f g) (hgh : Includes g h) : Includes f h where
  chars := fun c hc => hfg.chars c (hgh.chars c hc)
  look := by
    intro x d a look hlook hholds
    obtain ⟨more, hmore, hholds⟩ := hgh.look hlook hholds
    exact hfg.look hmore hholds

/-- What includes a description that holds does hold. -/
theorem Includes.holds (h : Includes f g) (hg : g.Holds x d a) : f.Holds x d a := by
  rcases hg with ⟨c, hc, hmem⟩ | ⟨look, hlook, hholds⟩
  · exact Or.inl ⟨c, hc, h.chars c hmem⟩
  · exact Or.inr (h.look hlook hholds)

theorem Describes.of_includes (h : Describes x d P g) (hf : f.Sorted) (hfg : Includes f g) :
    Describes x d P f where
  sorted := hf
  ordered := h.ordered
  consumed := by
    intro a b hab hne
    obtain ⟨c, hc, hmem⟩ := h.consumed a b hab hne
    exact ⟨c, hc, hfg.chars c hmem⟩
  nothing := by
    intro a ha
    obtain ⟨look, hlook, hholds⟩ := h.nothing a ha
    exact hfg.look hlook hholds

/-- One step of `oneOf`. -/
def either (f g : First) : First :=
  ⟨f.chars.join g.chars, f.exact && g.exact, eitherLook f.look? g.look?⟩

theorem sorted_either (hf : f.Sorted) (hg : g.Sorted) : (f.either g).Sorted := by
  refine ⟨CharSet.sorted_join hf.chars _, fun look hlook => ?_⟩
  unfold either eitherLook at hlook
  simp only at hlook
  split at hlook
  · rename_i l m hl hm
    cases hlook
    exact CharSet.sorted_join (hf.look l hl) _
  · exact hg.look look hlook
  · exact hf.look look hlook

theorem either_includes_left (f g : First) : Includes (f.either g) f where
  chars := fun c hc => (CharSet.mem_join _ _ c).2 (Or.inl hc)
  look := by
    intro x d a look hlook hholds
    unfold either eitherLook
    simp only [hlook]
    split
    · rename_i l m hl hm
      cases hl
      exact ⟨_, rfl, Look.holds_either (Or.inl hholds)⟩
    · rename_i hl
      cases hl
    · rename_i hl hm
      exact ⟨look, rfl, hholds⟩

theorem either_includes_right (f g : First) : Includes (f.either g) g where
  chars := fun c hc => (CharSet.mem_join _ _ c).2 (Or.inr hc)
  look := by
    intro x d a look hlook hholds
    unfold either eitherLook
    simp only [hlook]
    split
    · rename_i l m hl hm
      cases hm
      exact ⟨_, rfl, Look.holds_either (Or.inr hholds)⟩
    · exact ⟨look, rfl, hholds⟩
    · rename_i hl _
      cases hl

theorem sorted_foldl_either {fs : List First} (hf : f.Sorted) (h : ∀ g ∈ fs, g.Sorted) :
    (fs.foldl either f).Sorted := by
  induction fs generalizing f with
  | nil => exact hf
  | cons g fs ih =>
    rw [List.forall_mem_cons] at h
    exact ih (sorted_either hf h.1) h.2

/-- Each of some descriptions is part of all of them together. -/
theorem foldl_either_includes (f : First) (fs : List First) :
    Includes (fs.foldl either f) f ∧ ∀ g ∈ fs, Includes (fs.foldl either f) g := by
  induction fs generalizing f with
  | nil => exact ⟨includes_refl f, by simp⟩
  | cons g fs ih =>
    obtain ⟨hstart, hrest⟩ := ih (f.either g)
    refine ⟨hstart.trans (either_includes_left f g), ?_⟩
    rw [List.forall_mem_cons]
    exact ⟨hstart.trans (either_includes_right f g), hrest⟩

theorem sorted_oneOf {fs : List First} (h : ∀ f ∈ fs, f.Sorted) : (oneOf fs).Sorted :=
  sorted_foldl_either ⟨CharSet.sorted_empty, nofun⟩ h

theorem oneOf_includes {fs : List First} (h : f ∈ fs) : Includes (oneOf fs) f :=
  (foldl_either_includes _ fs).2 f h

/-- One of some parts is described by all of their descriptions together. -/
theorem describes_oneOf {Ps : List Span} {fs : List First} (hfs : ∀ f ∈ fs, f.Sorted)
    (h : ∀ P ∈ Ps, ∃ f ∈ fs, Describes x d P f) : Describes x d (Span.oneOf Ps) (oneOf fs) := by
  have heach : ∀ P ∈ Ps, Describes x d P (oneOf fs) := by
    intro P hP
    obtain ⟨f, hf, hPf⟩ := h P hP
    exact hPf.of_includes (sorted_oneOf hfs) (oneOf_includes hf)
  constructor
  · exact sorted_oneOf hfs
  · rintro i j ⟨P, hP, hij⟩
    exact (heach P hP).ordered i j hij
  · intro a b hab hne
    cases d with
    | forward =>
      obtain ⟨P, hP, hab⟩ := hab
      exact (heach P hP).consumed a b hab hne
    | backward =>
      obtain ⟨P, hP, hab⟩ := hab
      exact (heach P hP).consumed a b hab hne
  · rintro a ⟨P, hP, ha⟩
    exact (heach P hP).nothing a ha

/-! ## Repetitions -/

/-- The first repetition that is not empty starts with a character of the part. -/
theorem Describes.power (h : Describes x d P f) (k : Nat) : Describes x d (P.power (k + 1)) f := by
  induction k with
  | zero => rwa [Span.power_one]
  | succ k ih =>
    have hstep : (P.power (k + 1 + 1)).toward d
        = (P.toward d).andThen ((P.power (k + 1)).toward d) := by
      rw [Span.toward_power, Span.toward_power]
      rfl
    constructor
    · exact h.sorted
    · exact h.ordered.andThen ih.ordered
    · intro a b hab hne
      rw [hstep] at hab
      obtain ⟨m, ham, hmb⟩ := hab
      by_cases heq : a = m
      · subst heq
        exact ih.consumed a b hmb hne
      · exact h.consumed a m ham heq
    · intro a ha
      have ha := (Span.toward_self _ d a).2 ha
      rw [hstep] at ha
      obtain ⟨m, ham, hma⟩ := ha
      have heq := h.ordered.toward_antisymm ih.ordered ham hma
      subst heq
      exact h.nothing a ((Span.toward_self P d a).1 ham)

theorem Describes.powers (h : Describes x d P f) :
    Describes x d (fun i j => ∃ k, P.power (k + 1) i j) f where
  sorted := h.sorted
  ordered := fun i j ⟨k, hij⟩ => (h.power k).ordered i j hij
  consumed := by
    intro a b hab
    cases d with
    | forward =>
      obtain ⟨k, hab⟩ := hab
      exact (h.power k).consumed a b hab
    | backward =>
      obtain ⟨k, hab⟩ := hab
      exact (h.power k).consumed a b hab
  nothing := fun a ⟨k, ha⟩ => (h.power k).nothing a ha

/-- What may take nothing has a look at anything beside its own description. -/
theorem Describes.orNothing (h : Describes x d P f) (hQ : ∀ i j, Q i j → i = j ∨ P i j) :
    Describes x d Q f.orNothing := by
  have hempty : Describes x d Span.empty (First.nothing .anything) := describes_empty
  have hboth : Describes x d (Span.oneOf [P, Span.empty]) f.orNothing := by
    apply describes_oneOf
    · simp only [List.forall_mem_cons]
      exact ⟨h.sorted, hempty.sorted, by simp⟩
    · simp only [List.forall_mem_cons]
      exact ⟨⟨f, by simp, h⟩, ⟨_, by simp, hempty⟩, by simp⟩
  refine hboth.mono fun i j hij => ?_
  rcases hQ i j hij with rfl | hij
  · exact ⟨Span.empty, by simp, rfl⟩
  · exact ⟨P, by simp, hij⟩

/-- Repetitions of a part, at least one of which is forced. -/
theorem Describes.repeated (h : Describes x d P f) {least : Nat} {most : Option Nat}
    (hleast : least ≠ 0) : Describes x d (Span.repeated least most P) f := by
  refine h.powers.mono ?_
  rintro i j ⟨k, hk, -, hij⟩
  obtain ⟨k, rfl⟩ : ∃ l, k = l + 1 := ⟨k - 1, by omega⟩
  exact ⟨k, hij⟩

/-- Repetitions of a part, or none. -/
theorem Describes.repeated_zero (h : Describes x d P f) (most : Option Nat) :
    Describes x d (Span.repeated 0 most P) f.orNothing := by
  refine h.powers.orNothing ?_
  rintro i j ⟨k, -, -, hij⟩
  cases k with
  | zero => exact Or.inl hij
  | succ k => exact Or.inr ⟨k, hij⟩

end

end First

end RegexAudit
