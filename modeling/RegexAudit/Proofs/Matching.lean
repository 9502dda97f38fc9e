import RegexAudit.Proofs.CharSets

/-!
# Matching

What a node matches, as a relation between two positions of an input: `n.spans flags x i j` says
that `n` can match the text of `x` from position `i` to position `j`. A row is composition, a group
the union of its alternatives, a quantifier the repeated composition of its element, and assertions
are tests of a position.

Two things are not told by a pattern alone, and every statement holds whatever they are: what a
reference to a group matches, and what a node matches that takes one character or more but stands
for no set of them (a class with strings, a lone surrogate). They are part of the `Input`.
-/

namespace RegexAudit

/-- Which stretches of an input are matched. -/
abbrev Span := Nat → Nat → Prop

namespace Span

/-- One after the other. -/
def andThen (P Q : Span) : Span := fun i j => ∃ k, P i k ∧ Q k j

/-- Nothing. -/
def empty : Span := fun i j => i = j

/-- All of them, one after the other. -/
def row : List Span → Span
  | [] => empty
  | P :: Ps => P.andThen (row Ps)

/-- One of them. -/
def oneOf (Ps : List Span) : Span := fun i j => ∃ P ∈ Ps, P i j

/-- The same again and again. -/
def power (P : Span) : Nat → Span
  | 0 => empty
  | k + 1 => P.andThen (power P k)

/-- The same, at least `least` and at most `most` times. -/
def repeated (least : Nat) (most : Option Nat) (P : Span) : Span :=
  fun i j => ∃ k, least ≤ k ∧ (∀ m, most = some m → k ≤ m) ∧ P.power k i j

/-- A test of a position. -/
def test (p : Nat → Prop) : Span := fun i j => i = j ∧ p i

/-- Whether something can be matched from a position on, or up to it. -/
def seen (P : Span) : Direction → Nat → Prop
  | .forward, i => ∃ j, P i j
  | .backward, i => ∃ k, P k i

end Span

/-- What tells a node without a set from others: a letter its number, another node its text. -/
inductive Mark where
  | number (n : Nat)
  | source (kind : Kind) (text : List Char)

def Node.mark : Node → Mark
  | character letter => .number letter.value
  | n => .source n.kind n.text

/-- A text, and what the pattern alone does not tell about it. -/
structure Input where
  text : List Char
  /-- What a reference matches. -/
  reference : GroupRef → Span
  /-- What a node without a set matches. -/
  unlisted : Mark → Span
  reference_le : ∀ {ref i j}, reference ref i j → i ≤ j ∧ j ≤ text.length
  unlisted_le : ∀ {mark i j}, unlisted mark i j → i ≤ j ∧ j ≤ text.length

namespace Input

/-- A text for patterns without references in which every character stands for a set. -/
def ofText (text : List Char) : Input where
  text := text
  reference := fun _ _ _ => False
  unlisted := fun _ _ _ => False
  reference_le := nofun
  unlisted_le := nofun

/-- The character next to a position. -/
def beside (x : Input) : Direction → Nat → Option Char
  | .forward, i => x.text[i]?
  | .backward, 0 => none
  | .backward, i + 1 => x.text[i]?

/-- One character that is in a set. -/
def oneIn (x : Input) (set : CharSet) : Span := fun i j => j = i + 1 ∧ ∃ c ∈ set, x.text[i]? = some c

variable [Properties]

/-- What a node that stands for a set of characters matches. -/
def character (x : Input) (flags : Flags) (n : Node) : Span :=
  match n.charSet? flags with
  | some set => x.oneIn set
  | none => x.unlisted n.mark

/-- Letters in a row. -/
def letters (x : Input) (flags : Flags) (letters : List Letter) : Span :=
  .row (letters.map fun letter => x.character flags (.character letter))

/-- Whether a line ends at a position: there is no character, or, if lines count, one that ends a
line. -/
def isLineEdge (x : Input) (flags : Flags) (direction : Direction) (i : Nat) : Prop :=
  ∀ c, x.beside direction i = some c →
    flags.multiline = true ∧ Unicode.isIn Unicode.lineTerminators c = true

/-- Whether a character counts as part of a word. -/
def isWord (flags : Flags) (c : Char) : Bool :=
  Unicode.isIn Unicode.wordCharacters c
    || (flags.ignoreCase && flags.unicodeMode && Unicode.isIn Unicode.foldedWordCharacters c)

def isWordBeside (x : Input) (flags : Flags) (direction : Direction) (i : Nat) : Bool :=
  (x.beside direction i).any (isWord flags)

end Input

/-- When an assertion of a position holds. -/
def Edge.holds (flags : Flags) (x : Input) (i : Nat) : Edge → Prop
  | lineStart => x.isLineEdge flags .backward i
  | lineEnd => x.isLineEdge flags .forward i
  | word negate => (x.isWordBeside flags .backward i != x.isWordBeside flags .forward i) = !negate

namespace Node

variable [Properties]

mutual

/-- What a node matches. -/
def spans (flags : Flags) (x : Input) : Node → Span
  | choice _ alternatives => .oneOf (spansAll flags x alternatives)
  | look direction negate alternatives =>
    .test fun i => (Span.oneOf (spansAll flags x alternatives)).seen direction i ↔ negate = false
  | alternative elements => .row (spansAll flags x elements)
  | quantifier bounds _ _ element => .repeated bounds.min bounds.max (spans flags x element)
  | edge e => .test fun i => e.holds flags x i
  | backreference ref => x.reference ref
  | strings alternatives => .oneOf (alternatives.map (x.letters flags))
  | string letters => x.letters flags letters
  | character letter => x.character flags (character letter)
  | range min max => x.character flags (range min max)
  | shorthand set => x.character flags (shorthand set)
  | charClass negate unicodeSets elements => x.character flags (charClass negate unicodeSets elements)
  | classExpression negate expression => x.character flags (classExpression negate expression)
  | classOperation operator left right => x.character flags (classOperation operator left right)

def spansAll (flags : Flags) (x : Input) : List Node → List Span
  | [] => []
  | n :: rest => spans flags x n :: spansAll flags x rest

end

/-- The spans of a row of nodes are those of its nodes. -/
theorem spansAll_eq_map (flags : Flags) (x : Input) (ns : List Node) :
    spansAll flags x ns = ns.map (spans flags x) := by
  induction ns with
  | nil => rfl
  | cons n ns ih => rw [spansAll, ih, List.map_cons]

end Node

/-! ## Algebra of spans -/

namespace Span

theorem empty_andThen (P : Span) : empty.andThen P = P := by
  funext i j
  simp [andThen, empty]

theorem andThen_empty (P : Span) : P.andThen empty = P := by
  funext i j
  simp [andThen, empty]

/-- Rows can be bracketed in any way. -/
theorem andThen_assoc (P Q R : Span) : (P.andThen Q).andThen R = P.andThen (Q.andThen R) := by
  funext i j
  apply propext
  constructor
  · rintro ⟨k, ⟨l, hP, hQ⟩, hR⟩
    exact ⟨l, hP, k, hQ, hR⟩
  · rintro ⟨l, hP, k, hQ, hR⟩
    exact ⟨k, ⟨l, hP, hQ⟩, hR⟩

@[simp] theorem row_nil : row [] = empty := rfl

@[simp] theorem row_cons (P : Span) (Ps : List Span) : row (P :: Ps) = P.andThen (row Ps) := rfl

/-- Two rows, one after the other, are one row. -/
@[simp] theorem row_append (Ps Qs : List Span) : row (Ps ++ Qs) = (row Ps).andThen (row Qs) := by
  induction Ps with
  | nil => rw [List.nil_append, row_nil, empty_andThen]
  | cons P Ps ih => rw [List.cons_append, row_cons, ih, row_cons, andThen_assoc]

theorem row_singleton (P : Span) : row [P] = P := by rw [row_cons, row_nil, andThen_empty]

theorem oneOf_singleton (P : Span) : oneOf [P] = P := by
  funext i j
  simp [oneOf]

theorem oneOf_cons (P : Span) (Ps : List Span) (i j : Nat) :
    oneOf (P :: Ps) i j ↔ P i j ∨ oneOf Ps i j := by simp [oneOf]

/-- The first `k` rounds and the others. -/
theorem power_add (P : Span) (k l : Nat) : P.power (k + l) = (P.power k).andThen (P.power l) := by
  induction k with
  | zero => rw [Nat.zero_add, power, empty_andThen]
  | succ k ih => rw [Nat.succ_add, power, ih, power, andThen_assoc]

theorem power_one (P : Span) : P.power 1 = P := by rw [power, power, andThen_empty]

/-- The forced repetitions come first. -/
theorem repeated_add (P : Span) (k : Nat) (most : Option Nat) :
    repeated k (most.map (k + ·)) P = (P.power k).andThen (repeated 0 most P) := by
  funext i j
  apply propext
  constructor
  · rintro ⟨n, hkn, hm, h⟩
    obtain ⟨l, rfl⟩ := Nat.exists_eq_add_of_le hkn
    rw [power_add] at h
    obtain ⟨m, h1, h2⟩ := h
    refine ⟨m, h1, l, Nat.zero_le _, fun b hb => ?_, h2⟩
    have := hm (k + b) (by rw [hb]; rfl)
    omega
  · rintro ⟨m, h1, l, -, hm, h2⟩
    refine ⟨k + l, Nat.le_add_right k l, fun b hb => ?_, ?_⟩
    · obtain ⟨b', hb', rfl⟩ := Option.map_eq_some_iff.1 hb
      have := hm b' hb'
      omega
    · rw [power_add]
      exact ⟨m, h1, h2⟩

/-- A repetition is what is asked for, and then any number of rounds up to the maximum. -/
theorem repeated_rest (P : Span) (bounds : Bounds) :
    repeated bounds.min bounds.max P
      = (P.power bounds.min).andThen (repeated 0 (bounds.max.map (· - bounds.min)) P) := by
  have hmax : (bounds.max.map (· - bounds.min)).map (bounds.min + ·) = bounds.max := by
    cases h : bounds.max with
    | none => rfl
    | some m =>
      have := bounds.ordered m h
      simp only [Option.map_some, Option.some.injEq]
      omega
  rw [← repeated_add, hmax]

theorem repeated_zero (P : Span) : repeated 0 (some 0) P = empty := by
  funext i j
  apply propext
  constructor
  · rintro ⟨k, -, hk, h⟩
    have : k = 0 := Nat.le_zero.1 (hk 0 rfl)
    subst this
    exact h
  · intro h
    exact ⟨0, Nat.le_refl 0, fun _ _ => Nat.zero_le _, h⟩

/-! ### Positions only go forward -/

/-- A span runs forward and stays within the first `n` positions if it starts there. -/
def Within (n : Nat) (P : Span) : Prop := ∀ i j, P i j → i ≤ j ∧ (i ≤ n → j ≤ n)

theorem within_empty (n : Nat) : Within n empty := by
  rintro i j (rfl : i = j)
  exact ⟨Nat.le_refl i, id⟩

theorem within_test (n : Nat) (p : Nat → Prop) : Within n (test p) := by
  rintro i j ⟨rfl, -⟩
  exact ⟨Nat.le_refl i, id⟩

theorem Within.andThen {n : Nat} {P Q : Span} (hP : Within n P) (hQ : Within n Q) :
    Within n (P.andThen Q) := by
  rintro i j ⟨k, h1, h2⟩
  have h3 := hP i k h1
  have h4 := hQ k j h2
  exact ⟨Nat.le_trans h3.1 h4.1, fun h => h4.2 (h3.2 h)⟩

/-- A row stays in the text if its parts do. -/
theorem within_row {n : Nat} {Ps : List Span} (h : ∀ P ∈ Ps, Within n P) : Within n (row Ps) := by
  induction Ps with
  | nil => exact within_empty n
  | cons P Ps ih =>
    exact (h P (by simp)).andThen (ih fun Q hQ => h Q (List.mem_cons_of_mem _ hQ))

theorem within_oneOf {n : Nat} {Ps : List Span} (h : ∀ P ∈ Ps, Within n P) :
    Within n (oneOf Ps) := by
  rintro i j ⟨P, hP, hij⟩
  exact h P hP i j hij

theorem within_power {n : Nat} {P : Span} (h : Within n P) (k : Nat) : Within n (P.power k) := by
  induction k with
  | zero => exact within_empty n
  | succ k ih => exact h.andThen ih

theorem within_repeated {n : Nat} {P : Span} (h : Within n P) (least : Nat) (most : Option Nat) :
    Within n (repeated least most P) := by
  rintro i j ⟨k, -, -, hk⟩
  exact within_power h k i j hk

end Span

namespace Input

theorem within_oneIn (x : Input) (set : CharSet) : Span.Within x.text.length (x.oneIn set) := by
  rintro i j ⟨rfl, c, -, hc⟩
  obtain ⟨hi, -⟩ := List.getElem?_eq_some_iff.1 hc
  exact ⟨Nat.le_succ i, fun _ => hi⟩

variable [Properties]

/-- What stands for a character takes a part of the text, with a set or without one. -/
theorem within_character (x : Input) (flags : Flags) (n : Node) :
    Span.Within x.text.length (x.character flags n) := by
  unfold character
  split
  · exact x.within_oneIn _
  · intro i j h
    have := x.unlisted_le h
    exact ⟨this.1, fun _ => this.2⟩

theorem within_letters (x : Input) (flags : Flags) (letters : List Letter) :
    Span.Within x.text.length (x.letters flags letters) := by
  apply Span.within_row
  intro P hP
  obtain ⟨letter, -, rfl⟩ := List.mem_map.1 hP
  exact x.within_character flags _

end Input

variable [Properties]

namespace Node

mutual

/-- No node matches beyond the text or backward. -/
theorem within_spans (flags : Flags) (x : Input) :
    (n : Node) → Span.Within x.text.length (n.spans flags x)
  | choice _ alternatives => by
    rw [spans]
    exact Span.within_oneOf (within_spansAll flags x alternatives)
  | look .. => by
    rw [spans]
    exact Span.within_test _ _
  | alternative elements => by
    rw [spans]
    exact Span.within_row (within_spansAll flags x elements)
  | quantifier bounds _ _ element => by
    rw [spans]
    exact Span.within_repeated (within_spans flags x element) _ _
  | edge _ => by
    rw [spans]
    exact Span.within_test _ _
  | backreference ref => by
    intro i j h
    rw [spans] at h
    have := x.reference_le h
    exact ⟨this.1, fun _ => this.2⟩
  | strings alternatives => by
    rw [spans]
    apply Span.within_oneOf
    intro P hP
    obtain ⟨letters, -, rfl⟩ := List.mem_map.1 hP
    exact x.within_letters flags letters
  | string letters => by
    rw [spans]
    exact x.within_letters flags letters
  | character _ | range .. | shorthand _ | charClass .. | classExpression .. | classOperation .. => by
    rw [spans]
    exact x.within_character flags _

theorem within_spansAll (flags : Flags) (x : Input) :
    (ns : List Node) → ∀ P ∈ spansAll flags x ns, Span.Within x.text.length P
  | [] => by simp [spansAll]
  | n :: ns => by
    intro P hP
    rw [spansAll] at hP
    rcases List.mem_cons.1 hP with rfl | hP
    · exact within_spans flags x n
    · exact within_spansAll flags x ns P hP

end

end Node

end RegexAudit
