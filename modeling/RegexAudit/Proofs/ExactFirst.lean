import RegexAudit.CharSet.KnownProperties
import RegexAudit.Proofs.First
import RegexAudit.Proofs.Languages
import RegexAudit.Proofs.Overlaps

/-!
# First characters are exact

Where no assertion and no reference stands in a node, and all its characters stand for sets with
members, the analysis of first characters is no mere superset: the characters are those that the
texts of the language start with, seen from the direction of the analysis, and something else may
come next exactly if the empty text is one of them. `First.Exactly d L f` says this of a language.

Each way to put languages together keeps it: rows (`exactly_row`), choices (`exactly_oneOf`) and
repetitions (`Exactly.repeated`). It takes a text in every language of a row, or a character of the
first part would be reported that no text starts with; so choices must not be empty, and those of a
parsed pattern are not (`Regex.children_ne_nil_of_choice`). `Regex.first_exact` puts this together.
-/

namespace RegexAudit

/-! ## Directions -/

namespace Direction

/-- The character of a text that a direction meets first. -/
def head? : Direction → List Char → Option Char
  | forward, w => w.head?
  | backward, w => w.getLast?

/-- Two texts in a row; the direction meets `u` first. -/
def append (d : Direction) (u v : List Char) : List Char :=
  match d with
  | forward => u ++ v
  | backward => v ++ u

/-- Two languages in a row; the direction meets `L` first. -/
def product (d : Direction) (L M : Language Char) : Language Char :=
  match d with
  | forward => L * M
  | backward => M * L

section
variable (d : Direction)

@[simp] theorem head?_nil : d.head? [] = none := by
  cases d <;> rfl

@[simp] theorem head?_singleton (c : Char) : d.head? [c] = some c := by
  cases d <;> rfl

theorem head?_append (u v : List Char) :
    d.head? (d.append u v) = (d.head? u).or (d.head? v) := by
  cases d with
  | forward => exact List.head?_append
  | backward => exact List.getLast?_append

theorem append_eq_nil {u v : List Char} : d.append u v = [] ↔ u = [] ∧ v = [] := by
  cases d with
  | forward => exact List.append_eq_nil_iff
  | backward => exact List.append_eq_nil_iff.trans and_comm

theorem mem_product {L M : Language Char} {w : List Char} :
    w ∈ d.product L M ↔ ∃ u ∈ L, ∃ v ∈ M, d.append u v = w := by
  cases d with
  | forward => exact Language.mem_mul
  | backward =>
    show w ∈ M * L ↔ _
    rw [Language.mem_mul]
    constructor
    · rintro ⟨v, hv, u, hu, h⟩
      exact ⟨u, hu, v, hv, h⟩
    · rintro ⟨u, hu, v, hv, h⟩
      exact ⟨v, hv, u, hu, h⟩

theorem eq_nil_of_head? {w : List Char} (h : d.head? w = none) : w = [] := by
  cases d with
  | forward => exact List.head?_eq_none_iff.1 h
  | backward => exact List.getLast?_eq_none_iff.1 h

end

end Direction

/-- A character is met first by some text. -/
def Starts (d : Direction) (L : Language Char) (c : Char) : Prop := ∃ w ∈ L, d.head? w = some c

section
variable {d : Direction} {L M : Language Char} {c : Char}

theorem starts_or_of_product (h : Starts d (d.product L M) c) :
    Starts d L c ∨ ([] ∈ L ∧ Starts d M c) := by
  obtain ⟨w, hw, hc⟩ := h
  obtain ⟨u, hu, v, hv, rfl⟩ := d.mem_product.1 hw
  rw [d.head?_append] at hc
  cases hhead : d.head? u with
  | some a =>
    rw [hhead, Option.some_or] at hc
    exact .inl ⟨u, hu, hhead.trans hc⟩
  | none =>
    rw [hhead, Option.none_or] at hc
    obtain rfl := d.eq_nil_of_head? hhead
    exact .inr ⟨hu, v, hv, hc⟩

/-- In a row the second language counts if the first one has the empty text. -/
theorem starts_product (hM : ∃ w, w ∈ M) :
    Starts d (d.product L M) c ↔ Starts d L c ∨ ([] ∈ L ∧ Starts d M c) := by
  refine ⟨starts_or_of_product, ?_⟩
  rintro (⟨u, hu, hc⟩ | ⟨hnil, v, hv, hc⟩)
  · obtain ⟨v, hv⟩ := hM
    refine ⟨d.append u v, d.mem_product.2 ⟨u, hu, v, hv, rfl⟩, ?_⟩
    rw [d.head?_append, hc, Option.some_or]
  · refine ⟨d.append [] v, d.mem_product.2 ⟨[], hnil, v, hv, rfl⟩, ?_⟩
    rw [d.head?_append, d.head?_nil, Option.none_or, hc]

theorem nil_mem_product : [] ∈ d.product L M ↔ [] ∈ L ∧ [] ∈ M := by
  rw [d.mem_product]
  constructor
  · rintro ⟨u, hu, v, hv, h⟩
    obtain ⟨rfl, rfl⟩ := d.append_eq_nil.1 h
    exact ⟨hu, hv⟩
  · rintro ⟨hL, hM⟩
    exact ⟨[], hL, [], hM, d.append_eq_nil.2 ⟨rfl, rfl⟩⟩

theorem starts_add : Starts d (L + M) c ↔ Starts d L c ∨ Starts d M c := by
  simp only [Starts, Language.mem_add, or_and_right, exists_or]

theorem not_starts_one : ¬ Starts d 1 c := by
  rintro ⟨w, hw, hc⟩
  rw [(Language.mem_one w).1 hw, d.head?_nil] at hc
  cases hc

/-! ### Repetitions -/

theorem pow_succ_eq_product (d : Direction) (L : Language Char) (k : Nat) :
    L ^ (k + 1) = d.product L (L ^ k) := by
  cases d with
  | forward => exact pow_succ' L k
  | backward => exact pow_succ L k

theorem starts_of_pow {k : Nat} (h : Starts d (L ^ k) c) : Starts d L c := by
  induction k with
  | zero =>
    rw [pow_zero] at h
    exact absurd h not_starts_one
  | succ k ih =>
    rw [pow_succ_eq_product d] at h
    rcases starts_or_of_product h with h | ⟨-, h⟩
    · exact h
    · exact ih h

/-- If one repetition is allowed, repetitions start like the repeated language. -/
theorem starts_repetitions {bounds : Bounds} (hmax : bounds.max ≠ some 0) :
    Starts d (repetitions bounds.min bounds.max L) c ↔ Starts d L c := by
  constructor
  · rintro ⟨w, ⟨k, -, -, hw⟩, hc⟩
    exact starts_of_pow ⟨w, hw, hc⟩
  · rintro ⟨w, hw, hc⟩
    obtain ⟨k, hk⟩ : ∃ k, max bounds.min 1 = k + 1 := ⟨max bounds.min 1 - 1, by omega⟩
    have hpow : Starts d (L ^ (k + 1)) c := by
      rw [pow_succ_eq_product d]
      exact (starts_product ⟨_, flatten_replicate_mem_pow hw k⟩).2 (.inl ⟨w, hw, hc⟩)
    obtain ⟨v, hv, hc⟩ := hpow
    refine ⟨v, ⟨k + 1, by omega, fun m hm => ?_, hv⟩, hc⟩
    have hordered := bounds.ordered m hm
    have hpos : m ≠ 0 := by
      rintro rfl
      exact hmax hm
    omega

theorem nil_mem_repetitions {bounds : Bounds} (hmin : bounds.min ≠ 0) :
    [] ∈ repetitions bounds.min bounds.max L ↔ [] ∈ L := by
  constructor
  · rintro ⟨k, hleast, -, hk⟩
    obtain ⟨k, rfl⟩ : ∃ j, k = j + 1 := ⟨k - 1, by omega⟩
    rw [pow_succ_eq_product .forward] at hk
    exact (nil_mem_product.1 hk).1
  · intro hnil
    have hpow := flatten_replicate_mem_pow hnil bounds.min
    rw [List.flatten_replicate_nil] at hpow
    exact ⟨bounds.min, Nat.le_refl _, bounds.ordered, hpow⟩

theorem nil_mem_repetitions_zero {bounds : Bounds} (hmin : bounds.min = 0) :
    [] ∈ repetitions bounds.min bounds.max L := by
  refine ⟨0, Nat.le_of_eq hmin, fun _ _ => Nat.zero_le _, ?_⟩
  rw [pow_zero]
  exact Language.nil_mem_one

end

/-! ## What is exact -/

namespace Look

theorem anything_both : anything.both anything = anything := rfl

theorem anything_either : anything.either anything = anything := rfl

end Look

/-- What `f` says is all there is to say of the language: its characters are those that some text
starts with, and there is a look, which lets everything follow, if the empty text is in it. -/
structure First.Exactly (d : Direction) (L : Language Char) (f : First) : Prop where
  exact : f.exact = true
  chars : ∀ c, c ∈ f.chars ↔ Starts d L c
  look : ∀ look, f.look? = some look ↔ [] ∈ L ∧ look = .anything
  meet : ∀ c, c ∈ f.chars.meet .all ↔ c ∈ f.chars

namespace First

section
variable {d : Direction} {L M : Language Char} {f g : First}

theorem Exactly.congr (h : Exactly d L f) (hstarts : ∀ c, Starts d M c ↔ Starts d L c)
    (hnil : [] ∈ M ↔ [] ∈ L) : Exactly d M f where
  exact := h.exact
  chars c := (h.chars c).trans (hstarts c).symm
  look look := (h.look look).trans (and_congr_left fun _ => hnil.symm)
  meet := h.meet

theorem exactly_always {set : CharSet} (hset : ∀ c, c ∈ set.meet .all ↔ c ∈ set) :
    Exactly d {w | ∃ c ∈ set, w = [c]} (always set) where
  exact := rfl
  chars c := by
    constructor
    · intro hc
      exact ⟨[c], ⟨c, hc, rfl⟩, d.head?_singleton c⟩
    · rintro ⟨w, ⟨a, ha, rfl⟩, hc⟩
      rw [d.head?_singleton, Option.some.injEq] at hc
      rwa [← hc]
  look look := by
    constructor
    · intro h
      cases h
    · rintro ⟨⟨c, -, hnil⟩, -⟩
      cases hnil
  meet := hset

theorem mem_meet_all_empty (c : Char) : c ∈ CharSet.empty.meet .all ↔ c ∈ CharSet.empty := by
  rfl

theorem exactly_nothing : Exactly d 1 (nothing .anything) where
  exact := rfl
  chars c := iff_of_false (CharSet.not_mem_empty c) not_starts_one
  look look := by
    constructor
    · intro h
      cases h
      exact ⟨Language.nil_mem_one, rfl⟩
    · rintro ⟨-, rfl⟩
      rfl
  meet := mem_meet_all_empty

/-- A set that other characters were added to is sorted, or nothing was added. -/
theorem mem_join_meet_all {s : CharSet} (hs : ∀ c, c ∈ s.meet .all ↔ c ∈ s) (t : CharSet)
    (c : Char) : c ∈ (s.join t).meet .all ↔ c ∈ s.join t := by
  unfold CharSet.join
  split
  · exact hs c
  · have hsorted : CharSet.Sorted
        ⟨Range.canonical (s.ranges ++ t.ranges), s.closed && t.closed⟩ :=
      (Range.apart_canonical _).sorted
    exact (CharSet.mem_meet hsorted CharSet.sorted_all c).trans (and_iff_left (CharSet.mem_all c))

/-! ### Rows -/

theorem Exactly.andThen (hf : Exactly d L f) (hg : Exactly d M g) (hM : ∃ w, w ∈ M) :
    Exactly d (d.product L M) (f.andThen fun _ => g) := by
  cases hlook : f.look? with
  | none =>
    have hnil : ¬ [] ∈ L := by
      intro hnil
      rw [(hf.look .anything).2 ⟨hnil, rfl⟩] at hlook
      cases hlook
    have hthen : (f.andThen fun _ => g) = f := by
      rw [First.andThen, hlook]
    rw [hthen]
    refine hf.congr (fun c => ?_) (nil_mem_product.trans (and_iff_left_of_imp fun h => ?_))
    · rw [starts_product hM]
      exact or_iff_left fun h => hnil h.1
    · exact absurd h hnil
  | some look =>
    obtain ⟨hnil, rfl⟩ := (hf.look look).1 hlook
    have hthen : (f.andThen fun _ => g) = ⟨f.chars.join (g.chars.meet .all),
        f.exact && g.exact && true, g.look?.map Look.anything.both⟩ := by
      rw [First.andThen, hlook]
      rfl
    rw [hthen]
    constructor
    · show (f.exact && g.exact && true) = true
      rw [hf.exact, hg.exact]
      rfl
    · intro c
      show c ∈ f.chars.join (g.chars.meet .all) ↔ _
      rw [CharSet.mem_join, hf.chars, hg.meet, hg.chars, starts_product hM]
      simp only [hnil, true_and]
    · intro look
      show g.look?.map Look.anything.both = some look ↔ _
      rw [nil_mem_product, Option.map_eq_some_iff]
      constructor
      · rintro ⟨other, hother, rfl⟩
        obtain ⟨hnil', rfl⟩ := (hg.look other).1 hother
        exact ⟨⟨hnil, hnil'⟩, Look.anything_both⟩
      · rintro ⟨⟨-, hnil'⟩, rfl⟩
        exact ⟨.anything, (hg.look .anything).2 ⟨hnil', rfl⟩, Look.anything_both⟩
    · exact mem_join_meet_all hf.meet _

theorem exactly_row {Ls : List (Language Char)} {fs : List First}
    (h : List.Forall₂ (Exactly d) Ls fs) (hsome : ∀ L ∈ Ls, ∃ w, w ∈ L) :
    Exactly d Ls.prod (row (d.arrange fs)) := by
  cases d with
  | forward =>
    -- what came before is in front of the parts that are left
    have hfold : ∀ (A : Language Char) (acc : First), Exactly .forward A acc →
        Exactly .forward (A * Ls.prod) (fs.foldl (fun x y => x.andThen fun _ => y) acc) := by
      induction h with
      | nil =>
        intro A acc hacc
        rwa [List.prod_nil, mul_one]
      | cons hf _ ih =>
        intro A acc hacc
        rw [List.forall_mem_cons] at hsome
        rw [List.prod_cons, ← mul_assoc, List.foldl_cons]
        exact ih hsome.2 _ _ (hacc.andThen hf hsome.1)
    have := hfold 1 (nothing .anything) exactly_nothing
    rwa [one_mul] at this
  | backward =>
    show Exactly .backward Ls.prod (row fs.reverse)
    rw [row, List.foldl_reverse]
    induction h with
    | nil => exact exactly_nothing
    | cons hf _ ih =>
      rw [List.forall_mem_cons] at hsome
      exact (ih hsome.2).andThen hf hsome.1

/-! ### Choices -/

theorem Exactly.either (hf : Exactly d L f) (hg : Exactly d M g) :
    Exactly d (L + M) (f.either g) where
  exact := by
    show (f.exact && g.exact) = true
    rw [hf.exact, hg.exact]
    rfl
  chars c := by
    show c ∈ f.chars.join g.chars ↔ _
    rw [CharSet.mem_join, hf.chars, hg.chars, starts_add]
  look look := by
    show eitherLook f.look? g.look? = some look ↔ _
    rw [Language.mem_add, or_and_right, ← hf.look, ← hg.look]
    cases hflook : f.look? with
    | none => simp only [eitherLook, reduceCtorEq, false_or]
    | some x =>
      obtain rfl := ((hf.look x).1 hflook).2
      cases hglook : g.look? with
      | none => simp only [eitherLook, reduceCtorEq, or_false]
      | some y =>
        obtain rfl := ((hg.look y).1 hglook).2
        rw [eitherLook, Look.anything_either, or_self]
  meet := mem_join_meet_all hf.meet _

theorem exactly_none : Exactly d 0 ⟨.empty, true, none⟩ where
  exact := rfl
  chars c := by
    refine iff_of_false (CharSet.not_mem_empty c) ?_
    rintro ⟨w, hw, -⟩
    exact Language.notMem_zero w hw
  look look := by
    constructor
    · intro h
      cases h
    · rintro ⟨hnil, -⟩
      exact absurd hnil (Language.notMem_zero [])
  meet := mem_meet_all_empty

theorem exactly_oneOf {Ls : List (Language Char)} {fs : List First}
    (h : List.Forall₂ (Exactly d) Ls fs) : Exactly d Ls.sum (oneOf fs) := by
  have hfold : ∀ (A : Language Char) (acc : First), Exactly d A acc →
      Exactly d (A + Ls.sum) (fs.foldl First.either acc) := by
    induction h with
    | nil =>
      intro A acc hacc
      rwa [List.sum_nil, add_zero]
    | cons hf _ ih =>
      intro A acc hacc
      rw [List.sum_cons, ← add_assoc]
      exact ih _ _ (hacc.either hf)
  have := hfold 0 _ exactly_none
  rwa [zero_add] at this

theorem Exactly.orNothing (hf : Exactly d L f) : Exactly d (L + 1) f.orNothing := by
  have h : Exactly d [L, 1].sum (oneOf [f, .nothing .anything]) :=
    exactly_oneOf (.cons hf (.cons exactly_nothing .nil))
  rwa [List.sum_cons, List.sum_singleton] at h

/-- Whether nothing, or nothing else but a repetition, is allowed, is all that counts of bounds. -/
theorem Exactly.repeated (hf : Exactly d L f) (bounds : Bounds) :
    Exactly d (repetitions bounds.min bounds.max L)
      (if bounds.max = some 0 then .nothing .anything
        else if bounds.min = 0 then f.orNothing else f) := by
  split
  · rename_i hmax
    have hmin : bounds.min = 0 := Nat.le_zero.1 (bounds.ordered 0 hmax)
    have hone : repetitions bounds.min bounds.max L = 1 := by
      ext w
      rw [Language.mem_one]
      constructor
      · rintro ⟨k, -, hk, hw⟩
        rwa [Nat.le_zero.1 (hk 0 hmax), pow_zero, Language.mem_one] at hw
      · rintro rfl
        exact nil_mem_repetitions_zero hmin
    rw [hone]
    exact exactly_nothing
  · rename_i hmax
    split
    · rename_i hmin
      refine hf.orNothing.congr (fun c => ?_) ?_
      · rw [starts_repetitions hmax, starts_add]
        exact (or_iff_left not_starts_one).symm
      · exact iff_of_true (nil_mem_repetitions_zero hmin) (.inr Language.nil_mem_one)
    · rename_i hmin
      exact hf.congr (fun c => starts_repetitions hmax) (nil_mem_repetitions hmin)

end

end First

/-! ## Nodes -/

namespace Node

variable [Properties]

section
variable {flags : Flags} {refs : Path → GroupRef → First} {d : Direction} {ns : List Node}

theorem first_of_isCharacter {n : Node} (hn : n.isCharacter = true) (path : Path) :
    n.first refs flags d path = n.characterFirst flags := by
  cases n with
  | character _ | range _ _ | shorthand _ | charClass _ _ _ | classExpression _ _
  | classOperation _ _ _ => rw [first]
  | choice _ _ | look _ _ _ | alternative _ | quantifier _ _ _ _ | edge _ | backreference _
  | strings _ | string _ => cases hn

/-- A row of children consumes first what the row of their first characters does. -/
theorem firstRow_eq_row (path : Path) (ns : List Node) :
    firstRow refs flags d path 0 ns (.nothing .anything)
      = .row (d.arrange (firsts refs flags d path 0 ns)) := by
  cases d with
  | forward =>
    have hfold (slot : Nat) (before : First) : firstRow refs flags .forward path slot ns before
        = (firsts refs flags .forward path slot ns).foldl (fun x y => x.andThen fun _ => y)
          before := by
      induction ns generalizing slot before with
      | nil => rw [firstRow, firsts, List.foldl_nil]
      | cons n ns ih => rw [firstRow, firsts, List.foldl_cons, ih]
    exact hfold 0 _
  | backward =>
    have hfold (slot : Nat) : firstRow refs flags .backward path slot ns (.nothing .anything)
        = (firsts refs flags .backward path slot ns).foldr (fun y x => x.andThen fun _ => y)
          (.nothing .anything) := by
      induction ns generalizing slot with
      | nil => rw [firstRow, firsts, List.foldr_nil]
      | cons n ns ih => rw [firstRow, firsts, List.foldr_cons, ih]
    rw [hfold 0, First.row, Direction.arrange, List.foldl_reverse]

theorem exactly_firsts
    (h : ∀ n ∈ ns, ∀ path, First.Exactly d (n.language flags) (n.first refs flags d path))
    (path : Path) (slot : Nat) :
    List.Forall₂ (First.Exactly d) (ns.map (language flags))
      (firsts refs flags d path slot ns) := by
  induction ns generalizing slot with
  | nil =>
    rw [firsts]
    exact .nil
  | cons n ns ih =>
    rw [List.forall_mem_cons] at h
    rw [firsts]
    exact .cons (h.1 _) (ih h.2 _)

end

namespace Regular

variable {flags : Flags} {refs : Path → GroupRef → First} {d : Direction}

theorem exactly_children {α : Type} {make : α → Node} {f : α → First} {parts : List α}
    (h : ∀ a ∈ parts, First.Exactly d ((make a).language flags) (f a)) :
    List.Forall₂ (First.Exactly d) ((parts.map make).map (language flags)) (parts.map f) := by
  rw [List.forall₂_map_left_iff, List.forall₂_map_left_iff, List.forall₂_map_right_iff,
    List.forall₂_same]
  exact h

/-- The first characters of a node without assertions and references are exact. -/
theorem exactly {n : Node} (h : n.Regular flags) (path : Path) :
    First.Exactly d (n.language flags) (n.first refs flags d path) := by
  have hsome {m : Node} (hm : m.Regular flags) (hclass : m.isCharacter = false) :
      ∀ L ∈ m.children.map (language flags), ∃ w, w ∈ L :=
    List.forall_mem_map.2 fun c hc => (hm.child hclass hc).inhabited
  refine induct (p := fun n => ∀ path,
    First.Exactly d (n.language flags) (n.first refs flags d path)) ?_ ?_ ?_ ?_ ?_ ?_ h path
  · intro n set hn hset _ hmeet path
    rw [language_eq (reads_set hn hset), first_of_isCharacter hn, characterFirst, hset]
    exact First.exactly_always hmeet
  · intro elements h ih path
    rw [h.language_alternative, first, firstRow_eq_row]
    exact First.exactly_row (exactly_firsts ih path 0) (hsome h rfl)
  · intro frame alternatives h ih path
    rw [h.language_choice, first]
    exact First.exactly_oneOf (exactly_firsts ih path 0)
  · intro bounds greedy lexeme element h ih path
    rw [h.language_quantifier, first]
    exact (ih _).repeated bounds
  · intro letters h ih path
    rw [h.language_string, first]
    refine First.exactly_row (exactly_children fun letter hletter => ?_) (hsome h rfl)
    exact ih _ (List.mem_map_of_mem hletter) []
  · intro alternatives h ih path
    rw [h.language_strings, first]
    refine First.exactly_oneOf (exactly_children fun letters hletters => ?_)
    exact ih _ (List.mem_map_of_mem hletters) []

end Regular

end Node

/-! ## Parsed patterns -/

namespace Class

variable {setting : Setting} {limit : Nat} {text rest : List Char} {n : Node}

theorem Escape.isCharacter (h : Escape setting text n rest) : n.isCharacter = true := by
  cases h <;> rfl

theorem Atom.isCharacter (h : Atom setting text n rest) : n.isCharacter = true := by
  cases h with
  | escape h => exact h.isCharacter
  | self _ _ => rfl

/-- Between the braces there is one string at least, if only an empty one. -/
theorem strings_ne_nil {found : List (List Letter)}
    (h : member setting limit text = .ok (.strings found, rest)) : found ≠ [] := by
  unfold member at h
  split at h
  · generalize hn : Node.strings found = n at h
    cases operand_iff.1 h with
    | nested h =>
      subst hn
      cases isCharacter_nested h
    | strings h =>
      cases hn
      exact h.ne_nil
    | escape _ h =>
      subst hn
      cases h.isCharacter
    | self _ _ _ => cases hn
  · cases (atom_iff.1 h).isCharacter

end Class

namespace Pattern

open Node

variable {setting : Setting} {depth : Nat} {n : Node} {s s' : Progress}

/-- No choice outside of classes is empty. -/
def Filled (n : Node) : Prop := ∀ m, n.HasTerm m → m.category = .choice → m.children ≠ []

theorem filled_iff : Filled n ↔ (n.category = .choice → n.children ≠ []) ∧
    (n.isCharacter = false → ∀ c ∈ n.children, Filled c) := by
  constructor
  · intro h
    exact ⟨h n .self, fun hn c hc m hm => h m ((HasTerm.self.child hn hc).trans hm)⟩
  · rintro ⟨hself, hchildren⟩ m hm
    rcases hasTerm_iff.1 hm with rfl | ⟨hn, c, hc, hcm⟩
    · exact hself
    · exact hchildren hn c hc m hcm

theorem filled_of_isCharacter (h : n.isCharacter = true) : Filled n := by
  refine filled_iff.2 ⟨fun hcategory => ?_, fun hn => ?_⟩
  · rw [isCharacter, hcategory] at h
    cases h
  · rw [h] at hn
    cases hn

theorem filled_leaf {text rest : List Char} {repeats : Bool}
    (h : Leaf setting (Class.nested setting depth) text n repeats rest) : Filled n := by
  obtain ⟨_, rfl⟩ | ⟨_, rfl⟩ | ⟨hn, -⟩ := h.shape
  · exact filled_iff.2 ⟨nofun, fun _ => List.forall_mem_nil _⟩
  · exact filled_iff.2 ⟨nofun, fun _ => List.forall_mem_nil _⟩
  · exact filled_of_isCharacter hn

theorem filled_disjunction {ns : List Node} (h : disjunction setting depth s = .ok (ns, s')) :
    ∀ n ∈ ns, Filled n :=
  forall_disjunction (fun _ => filled_leaf)
    (fun _ _ hne hchildren => filled_iff.2 ⟨hne, fun _ => hchildren⟩) (Nat.le_refl depth) h

end Pattern

namespace Regex

open Node Pattern

variable {source : List Char} {letters : Flags} {r : Regex}

/-- No choice of a parsed pattern is empty, be it of strings in a class. -/
theorem children_ne_nil_of_choice (hparse : Regex.parse source letters = .ok r) {n : Node}
    (hn : r.root.HasPart n) (hcategory : n.category = .choice) : n.children ≠ [] := by
  cases n with
  | choice frame alternatives =>
    have hterm := (parse_source hparse).2.2.1.hasTerm hn rfl
    obtain ⟨ns, s, hread, -, -, rfl⟩ := parse_iff.1 hparse
    refine filled_iff.2 ⟨fun _ => ?_, fun _ => ?_⟩ _ hterm hcategory
    · exact disjunction_ne_nil hread
    · exact filled_disjunction hread
  | strings found =>
    obtain hroot | ⟨-, ⟨-, hspelled⟩ | ⟨hclass, -⟩⟩ := part_cases hparse hn
    · obtain ⟨ns, hpattern, -⟩ := (parse_source hparse).2.2.1
      rw [hpattern] at hroot
      cases hroot
    · intro hnone
      exact Class.strings_ne_nil hspelled (List.map_eq_nil_iff.1 hnone)
    · cases hclass
  | _ => cases hcategory

/-- The sets of a parsed pattern can be intersected with everything, and its choices are filled. -/
theorem regular_of_parse [Properties] (hproperties : Properties.Canonical)
    (hparse : Regex.parse source letters = .ok r) {n : Node} (hn : r.root.HasPart n) {flags : Flags}
    (hkinds : ∀ m, n.HasTerm m → m.kind ≠ .assertion ∧ m.kind ≠ .backreference)
    (hsets : ∀ m, n.HasTerm m → m.isCharacter = true →
      ∃ set, m.charSet? flags = some set ∧ ∃ c, c ∈ set) : n.Regular flags where
  kinds := hkinds
  sets m hm hclass := by
    obtain ⟨set, hset, hmember⟩ := hsets m hm hclass
    exact ⟨set, hset, hmember, mem_meet_all hproperties hparse (hn.trans hm.hasPart) hset⟩
  filled m hm := children_ne_nil_of_choice hparse (hn.trans hm.hasPart)

/-- First characters are exact for the nodes of a parsed pattern in which no assertion and no
reference stands and whose characters all stand for sets with members. What a class is made of does
not matter. The characters are those which the texts of the language of the node start with in the
direction of the analysis, and if the empty text is one of them, and only then, anything may come
next instead. -/
theorem first_exact [Properties] (hproperties : Properties.Canonical)
    (hparse : Regex.parse source letters = .ok r) (flags : Flags) {p : Place} (hp : p ∈ r.walk)
    (hkinds : ∀ n, p.node.HasTerm n → n.kind ≠ .assertion ∧ n.kind ≠ .backreference)
    (hsets : ∀ n, p.node.HasTerm n → n.isCharacter = true →
      ∃ set, n.charSet? flags = some set ∧ ∃ c, c ∈ set) (d : Direction) :
    (r.first flags d p).exact = true ∧
      (∀ c, c ∈ (r.first flags d p).chars ↔
        ∃ w ∈ p.node.language flags, d.head? w = some c) ∧
      ((r.first flags d p).look?.isSome = true ↔ [] ∈ p.node.language flags) ∧
      ∀ look, (r.first flags d p).look? = some look → look = .anything := by
  have hregular := regular_of_parse hproperties hparse (leads_of_mem_walk hp).hasPart hkinds hsets
  have hexactly : First.Exactly d (p.node.language flags) (r.first flags d p) :=
    hregular.exactly p.path
  refine ⟨hexactly.exact, hexactly.chars, ?_, fun look hlook => ((hexactly.look look).1 hlook).2⟩
  rw [Option.isSome_iff_exists]
  constructor
  · rintro ⟨look, hlook⟩
    exact ((hexactly.look look).1 hlook).1
  · intro hnil
    exact ⟨.anything, (hexactly.look .anything).2 ⟨hnil, rfl⟩⟩

/-- Of the texts of `(?:a|bc?)*d?` one is empty, and the others end with the letters from `a` to `d`
and no other character. -/
theorem first_exact_repetition :
    let a : Node := character ⟨97, ['a']⟩
    let b : Node := character ⟨98, ['b']⟩
    let c : Node := character ⟨99, ['c']⟩
    let d : Node := character ⟨100, ['d']⟩
    let optional : Node → Node := quantifier ⟨0, some 1, fun _ _ => Nat.zero_le _⟩ true ['?']
    let group : Node := choice .plain [alternative [a], alternative [b, optional c]]
    let repetition : Node := quantifier ⟨0, none, fun _ _ => Nat.zero_le _⟩ true ['*'] group
    let r : Regex :=
      ⟨['(', '?', ':', 'a', '|', 'b', 'c', '?', ')', '*', 'd', '?'], .empty,
        choice .whole [alternative [repetition, optional d]]⟩
    let p : Place := ⟨r.root, 0, 0, []⟩
    Regex.parse r.source .empty = .ok r ∧ p ∈ r.walk ∧ [] ∈ r.root.language .empty ∧
      ∀ c, (∃ w ∈ r.root.language .empty, w.getLast? = some c) ↔ 'a' ≤ c ∧ c ≤ 'd' := by
  intro a b c d optional group repetition r p
  have hparse : Regex.parse r.source .empty = .ok r := rfl
  have hp : p ∈ r.walk := List.mem_of_getElem? (i := 0) rfl
  have hkinds : ∀ n, r.root.HasTerm n → n.kind ≠ .assertion ∧ n.kind ≠ .backreference := by
    have hnodes : ∀ n ∈ r.root.nodes, n.kind ≠ .assertion ∧ n.kind ≠ .backreference := by decide
    exact fun n hn => hnodes n (mem_nodes.2 hn.hasPart)
  have hsets : ∀ n, r.root.HasTerm n → n.isCharacter = true →
      ∃ set, n.charSet? .empty = some set ∧ ∃ c, c ∈ set := by
    have hletters : r.root.nodes.filter isCharacter = [a, b, c, d] := rfl
    have hfilled : ∀ n ∈ [a, b, c, d], ∃ set, n.charSet? .empty = some set ∧ ∃ c, c ∈ set := by
      simp only [List.forall_mem_cons]
      exact ⟨⟨_, rfl, 'a', CharSet.mem_singleton 'a'⟩, ⟨_, rfl, 'b', CharSet.mem_singleton 'b'⟩,
        ⟨_, rfl, 'c', CharSet.mem_singleton 'c'⟩, ⟨_, rfl, 'd', CharSet.mem_singleton 'd'⟩,
        List.forall_mem_nil _⟩
    intro n hn hclass
    have hmem := List.mem_filter.2 ⟨mem_nodes.2 hn.hasPart, hclass⟩
    rw [hletters] at hmem
    exact hfilled n hmem
  have hranges : (r.first .empty .backward p).chars.ranges = [Range.between 'a' 'd'] := by decide
  have hset (c : Char) : c ∈ (r.first .empty .backward p).chars ↔ 'a' ≤ c ∧ c ≤ 'd' := by
    rw [CharSet.mem_iff, hranges, Range.inSome_cons]
    exact or_iff_left (Range.inSome_nil c)
  obtain ⟨-, hchars, hlook, -⟩ :=
    first_exact canonical_knownProperties hparse .empty hp hkinds hsets .backward
  exact ⟨hparse, hp, hlook.1 rfl, fun c => (hchars c).symm.trans (hset c)⟩

end Regex

end RegexAudit
