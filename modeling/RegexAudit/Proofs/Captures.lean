import RegexAudit.Proofs.First
import RegexAudit.Proofs.Trees
import RegexAudit.Syntax.Regex

/-!
# Matching with captures

A match that goes step by step: `x.outcomes n d s` lists how `n` can be matched in the direction `d`
from the moment `s` on, in the order in which the ways are tried. A moment is a position together
with what the groups have captured so far.

* A group captures its stretch when it is left; a round of a quantifier forgets the groups in it.
* The rounds that a quantifier forces may be empty; a round beyond them has to move.
* A lookaround is matched in its own direction. The captures of the first way through it are kept,
  and those of a negated one are dropped.
* A reference to a group that has captured nothing matches the empty text.

References aside, captures have no say in where a match ends. So for a node whose references lead
out of it the outcomes are the spans, with the captures at the start in place of every reference:

    (∃ t ∈ x.outcomes n d s, t.position = j) ↔
      (n.spans x.flags (x.input s.captures)).toward d s.position j             (outcomes_iff_spans)
-/

namespace RegexAudit

/-! ## Steps in order -/

/-- The ways on from a state, in the order in which they are tried. -/
abbrev Steps (α : Type) := Direction → α → List α

namespace Steps

variable {α : Type}

/-- All of them, one after the other; backward the last one is first. -/
def row : List (Steps α) → Steps α
  | [], _, s => [s]
  | f :: fs, .forward, s => (f .forward s).flatMap (row fs .forward)
  | f :: fs, .backward, s => (row fs .backward s).flatMap (f .backward)

/-- One of them. -/
def oneOf (fs : List (Steps α)) : Steps α := fun d s => fs.flatMap fun f => f d s

/-- The same `count` times. -/
def forced (round : α → List α) : (count : Nat) → α → List α
  | 0, s => [s]
  | count + 1, s => (round s).flatMap (forced round count)

/-- Up to `count` rounds that move; a greedy quantifier tries another one before it stops. -/
def optional (moves : α → α → Bool) (round : α → List α) (greedy : Bool) : (count : Nat) → α → List α
  | 0, s => [s]
  | count + 1, s =>
    let more := ((round s).filter (moves s)).flatMap (optional moves round greedy count)
    if greedy then more ++ [s] else s :: more

end Steps

/-! ## Moments -/

/-- What each group has captured, from where to where. -/
abbrev Captures := Nat → Option (Nat × Nat)

/-- How far a match has come. -/
structure Moment where
  position : Nat
  captures : Captures

namespace Moment

def moveTo (s : Moment) (position : Nat) : Moment := { s with position }

/-- Without the captures of some groups. -/
def forget (s : Moment) (groups : List Nat) : Moment :=
  { s with captures := fun g => if g ∈ groups then none else s.captures g }

/-- Leave a group that was entered at `start`. -/
def leave (start : Nat) : Frame → Moment → Moment
  | .capture index _, s =>
    { s with
      captures := fun g =>
        if g = index then some (min start s.position, max start s.position) else s.captures g }
  | _, s => s

/-- Whether a round has moved. -/
def moves (s t : Moment) : Bool := t.position != s.position

/-- Leave a lookaround; `first` is the first way through it. -/
def look (s : Moment) (negate : Bool) : (first : Option Moment) → List Moment
  | some t => if negate then [] else [t.moveTo s.position]
  | none => if negate then [s] else []

end Moment

/-- Move to each of some ends. -/
def Steps.moving (ends : Steps Nat) : Steps Moment := fun d s => (ends d s.position).map s.moveTo

/-! ## Scenes -/

/-- A text to be searched, the groups that references name, and where nodes without a set end. -/
structure Scene where
  flags : Flags
  text : List Char
  /-- The number of the group that a reference names. -/
  resolve? : GroupRef → Option Nat
  /-- The ends of a node without a set, in the order in which they are tried. -/
  ends : Mark → Steps Nat
  ends_le : ∀ {mark i j}, j ∈ ends mark .forward i → i ≤ j ∧ j ≤ text.length
  ends_turn : ∀ {mark i j}, i ∈ ends mark .backward j ↔ j ∈ ends mark .forward i

/-- A text to be searched for a regular expression in which every character stands for a set. -/
def Scene.ofText (r : Regex) (text : List Char) : Scene where
  flags := r.flags
  text := text
  resolve? := r.resolve?
  ends := fun _ _ _ => []
  ends_le := nofun
  ends_turn := by simp

instance (s : CharSet) (c : Char) : Decidable (c ∈ s) :=
  inferInstanceAs (Decidable (∃ r ∈ s.ranges, r.lo ≤ c ∧ c ≤ r.hi))

instance (x : Input) (flags : Flags) (d : Direction) (i : Nat) :
    Decidable (x.isLineEdge flags d i) :=
  decidable_of_iff
    ((x.beside d i).all fun c => flags.multiline && Unicode.isIn Unicode.lineTerminators c)
    (by simp [Input.isLineEdge, Option.all_eq_true])

instance (flags : Flags) (x : Input) (i : Nat) : (e : Edge) → Decidable (e.holds flags x i)
  | .lineStart => inferInstanceAs (Decidable (x.isLineEdge flags .backward i))
  | .lineEnd => inferInstanceAs (Decidable (x.isLineEdge flags .forward i))
  | .word negate => inferInstanceAs (Decidable
      ((x.isWordBeside flags .backward i != x.isWordBeside flags .forward i) = !negate))

/-- The groups in a tree. -/
def Node.groupNumbers (n : Node) : List Nat := n.walk.filterMap Regex.captureIndex?

/-- A group stands in the tree. -/
def Node.HasGroup (n : Node) (g : Nat) : Prop :=
  ∃ name alternatives, n.HasPart (choice (.capture g name) alternatives)

namespace Scene

variable (x : Scene)

/-- Whether `d` repeats `c`: the letter `c` matches it. -/
def alike (c d : Char) : Bool :=
  (Letter.charSet? x.flags ⟨c.toNat, [c]⟩).any fun set => decide (d ∈ set)

/-- The text that a reference has to repeat. -/
def captured (captures : Captures) (ref : GroupRef) : List Char :=
  match (x.resolve? ref).bind captures with
  | some (i, j) => x.text.extract i j
  | none => []

/-- Whether a word stands between two positions. -/
def isWordAt (word : List Char) (i j : Nat) : Bool := word.isEqv (x.text.extract i j) x.alike

/-- The end of a word that stands next to a position. -/
def wordEnds (word : List Char) : Steps Nat
  | .forward, i =>
    if i + word.length ≤ x.text.length ∧ x.isWordAt word i (i + word.length) then
      [i + word.length]
    else []
  | .backward, i =>
    if word.length ≤ i ∧ x.isWordAt word (i - word.length) i then [i - word.length] else []

/-- What spans need to know, with some captures in place of references. -/
def input (captures : Captures) : Input where
  text := x.text
  reference := fun ref i j =>
    i ≤ j ∧ j ≤ x.text.length ∧ x.isWordAt (x.captured captures ref) i j = true
  unlisted := fun mark i j => j ∈ x.ends mark .forward i
  reference_le := fun h => ⟨h.1, h.2.1⟩
  unlisted_le := x.ends_le

variable [Properties]

/-- The end of a single character. -/
def characterEnds (n : Node) : Steps Nat := fun d i =>
  match n.charSet? x.flags with
  | some set =>
    match (x.input fun _ => none).beside d i with
    | some c => if c ∈ set then [match d with | .forward => i + 1 | .backward => i - 1] else []
    | none => []
  | none => x.ends n.mark d i

/-- Letters in a row. -/
def letterEnds (letters : List Letter) : Steps Nat :=
  .row (letters.map fun letter => x.characterEnds (.character letter))

/-- How many rounds a quantifier may add to those it forces. Each of them moves, so there are never
more than characters. -/
def rounds (bounds : Bounds) : Nat :=
  match bounds.max with
  | some most => min (most - bounds.min) x.text.length
  | none => x.text.length

mutual

/-- The ways to match a node, in the order in which they are tried. -/
def outcomes : Node → Steps Moment
  | .choice frame alternatives => fun d s =>
    (Steps.oneOf (outcomesAll alternatives) d s).map (Moment.leave s.position frame)
  | .look direction negate alternatives => fun _ s =>
    s.look negate (Steps.oneOf (outcomesAll alternatives) direction s).head?
  | .alternative elements => .row (outcomesAll elements)
  | .quantifier bounds greedy _ element => fun d s =>
    let round := fun t => outcomes element d (t.forget element.groupNumbers)
    (Steps.forced round bounds.min s).flatMap
      (Steps.optional Moment.moves round greedy (x.rounds bounds))
  | .edge e => fun _ s =>
    if e.holds x.flags (x.input s.captures) s.position then [s] else []
  | .backreference ref => fun d s =>
    Steps.moving (x.wordEnds (x.captured s.captures ref)) d s
  | .strings alternatives => Steps.moving (.oneOf (alternatives.map x.letterEnds))
  | .string letters => Steps.moving (x.letterEnds letters)
  | .character letter => Steps.moving (x.characterEnds (.character letter))
  | .range min max => Steps.moving (x.characterEnds (.range min max))
  | .shorthand set => Steps.moving (x.characterEnds (.shorthand set))
  | .charClass negate unicodeSets elements =>
    Steps.moving (x.characterEnds (.charClass negate unicodeSets elements))
  | .classExpression negate expression =>
    Steps.moving (x.characterEnds (.classExpression negate expression))
  | .classOperation operator left right =>
    Steps.moving (x.characterEnds (.classOperation operator left right))

def outcomesAll : List Node → List (Steps Moment)
  | [] => []
  | n :: rest => outcomes n :: outcomesAll rest

end

end Scene

/-! ## Steps and spans -/

/-- From states that are `ok`, the ways on end where `Q` ends, and in states that are `ok`. -/
structure Tracks {α : Type} (position : α → Nat) (ok : α → Prop) (f : α → List α) (Q : Span) :
    Prop where
  ends : ∀ {s}, ok s → ∀ j, (∃ t ∈ f s, position t = j) ↔ Q (position s) j
  stays : ∀ {s t}, ok s → t ∈ f s → ok t

section
variable {α : Type} {position : α → Nat} {ok : α → Prop} {f g : α → List α} {Q R : Span}

theorem tracks_self : Tracks position ok (fun s => [s]) Span.empty where
  ends := by simp [Span.empty]
  stays := by
    intro s t hs ht
    rwa [List.mem_singleton.1 ht]

theorem Tracks.congr (hf : Tracks position ok f Q) (h : ∀ s, ok s → g s = f s) :
    Tracks position ok g Q where
  ends := by
    intro s hs j
    rw [h s hs]
    exact hf.ends hs j
  stays := by
    intro s t hs ht
    rw [h s hs] at ht
    exact hf.stays hs ht

theorem Tracks.andThen (hf : Tracks position ok f Q) (hg : Tracks position ok g R) :
    Tracks position ok (fun s => (f s).flatMap g) (Q.andThen R) where
  ends := by
    intro s hs j
    constructor
    · rintro ⟨t, ht, rfl⟩
      obtain ⟨u, hu, ht⟩ := List.mem_flatMap.1 ht
      exact ⟨position u, (hf.ends hs _).1 ⟨u, hu, rfl⟩,
        (hg.ends (hf.stays hs hu) _).1 ⟨t, ht, rfl⟩⟩
    · rintro ⟨k, hk, hj⟩
      obtain ⟨u, hu, rfl⟩ := (hf.ends hs k).2 hk
      obtain ⟨t, ht, rfl⟩ := (hg.ends (hf.stays hs hu) j).2 hj
      exact ⟨t, List.mem_flatMap.2 ⟨u, hu, ht⟩, rfl⟩
  stays := by
    intro s t hs ht
    obtain ⟨u, hu, ht⟩ := List.mem_flatMap.1 ht
    exact hg.stays (hf.stays hs hu) ht

theorem Tracks.forced (hf : Tracks position ok f Q) (count : Nat) :
    Tracks position ok (Steps.forced f count) (Q.power count) := by
  induction count with
  | zero => exact tracks_self
  | succ count ih => exact hf.andThen ih

theorem mem_optional {moves : α → α → Bool} {greedy : Bool} {count : Nat} {s t : α} :
    t ∈ Steps.optional moves f greedy (count + 1) s ↔
      t = s ∨ ∃ u ∈ f s, moves s u = true ∧ t ∈ Steps.optional moves f greedy count u := by
  simp only [Steps.optional]
  split
  · simp only [List.mem_append, List.mem_flatMap, List.mem_filter, List.mem_singleton, and_assoc]
    exact or_comm
  · simp only [List.mem_cons, List.mem_flatMap, List.mem_filter, and_assoc]

/-- Rounds that do not move can be left out, and each of the others takes some of the room that is
left; so a bound on the rounds that is as large as the room is none. -/
theorem Tracks.optional {moves : α → α → Bool} {room : Nat → Nat} {most : Option Nat} {count : Nat}
    (hf : Tracks position ok f Q) (greedy : Bool)
    (hmoves : ∀ s t, moves s t = true ↔ position t ≠ position s)
    (hroom : ∀ {s}, ok s → ∀ j, Q (position s) j → j ≠ position s → room j < room (position s))
    (hmost : ∀ m, most = some m → count ≤ m)
    (hcount : ∀ {s}, ok s → room (position s) ≤ count ∨ most = some count) :
    Tracks position ok (Steps.optional moves f greedy count) (.repeated 0 most Q) := by
  have hends : ∀ count' ≤ count, ∀ {s t}, ok s → t ∈ Steps.optional moves f greedy count' s →
      ok t ∧ ∃ k ≤ count', Q.power k (position s) (position t) := by
    intro count' _
    induction count' with
    | zero =>
      intro s t hs ht
      rw [Steps.optional, List.mem_singleton] at ht
      rw [ht]
      exact ⟨hs, 0, Nat.le_refl 0, rfl⟩
    | succ count' ih =>
      intro s t hs ht
      rcases mem_optional.1 ht with rfl | ⟨u, hu, -, ht⟩
      · exact ⟨hs, 0, Nat.zero_le _, rfl⟩
      · obtain ⟨hok, k, hk, hpower⟩ := ih (by omega) (hf.stays hs hu) ht
        exact ⟨hok, k + 1, by omega, position u, (hf.ends hs _).1 ⟨u, hu, rfl⟩, hpower⟩
  have hreach : ∀ k count' s j, ok s → Q.power k (position s) j →
      (k ≤ count' ∨ room (position s) ≤ count') →
      ∃ t ∈ Steps.optional moves f greedy count' s, position t = j := by
    intro k
    induction k with
    | zero =>
      rintro count' s j hs (rfl : position s = j) -
      cases count' with
      | zero => exact ⟨s, by simp [Steps.optional], rfl⟩
      | succ count' => exact ⟨s, mem_optional.2 (.inl rfl), rfl⟩
    | succ k ih =>
      rintro count' s j hs ⟨m, hm, hpower⟩ hle
      by_cases hstay : m = position s
      · rw [hstay] at hpower
        exact ih count' s j hs hpower (hle.imp_left fun h => by omega)
      · obtain ⟨u, hu, rfl⟩ := (hf.ends hs m).2 hm
        have hless := hroom hs _ hm hstay
        obtain ⟨count', rfl⟩ : ∃ c, count' = c + 1 := ⟨count' - 1, by omega⟩
        obtain ⟨t, ht, htj⟩ := ih count' u j (hf.stays hs hu) hpower (by omega)
        exact ⟨t, mem_optional.2 (.inr ⟨u, hu, (hmoves s u).2 hstay, ht⟩), htj⟩
  refine ⟨fun {s} hs j => ⟨?_, ?_⟩, fun hs ht => (hends count (Nat.le_refl _) hs ht).1⟩
  · rintro ⟨t, ht, rfl⟩
    obtain ⟨-, k, hk, hpower⟩ := hends count (Nat.le_refl _) hs ht
    exact ⟨k, Nat.zero_le k, fun m hm => Nat.le_trans hk (hmost m hm), hpower⟩
  · rintro ⟨k, -, hk, hpower⟩
    refine hreach k count s j hs hpower ?_
    rcases hcount hs with h | h
    · exact .inr h
    · exact .inl (hk count h)

/-- Both ways along the steps end where `P` has its other end. -/
def Follows (position : α → Nat) (ok : α → Prop) (f : Steps α) (P : Span) : Prop :=
  ∀ d, Tracks position ok (f d) (P.toward d)

theorem follows_row {β : Type} {ns : List β} {f : β → Steps α} {P : β → Span}
    (h : ∀ n ∈ ns, Follows position ok (f n) (P n)) :
    Follows position ok (Steps.row (ns.map f)) (Span.row (ns.map P)) := by
  induction ns with
  | nil =>
    intro d
    rw [List.map_nil, List.map_nil, Span.row_nil, Span.toward_empty]
    exact tracks_self
  | cons n ns ih =>
    rw [List.forall_mem_cons] at h
    intro d
    have hn := h.1 d
    have hns := ih h.2 d
    cases d with
    | forward => exact hn.andThen hns
    | backward =>
      have hturn := Span.toward_meeting (Span.row (ns.map P)) (P n) .backward
      rw [List.map_cons, List.map_cons, Span.row_cons]
      exact hturn ▸ hns.andThen hn

theorem follows_oneOf {β : Type} {ns : List β} {f : β → Steps α} {P : β → Span}
    (h : ∀ n ∈ ns, Follows position ok (f n) (P n)) :
    Follows position ok (Steps.oneOf (ns.map f)) (Span.oneOf (ns.map P)) := by
  intro d
  have hmem {s t : α} : t ∈ Steps.oneOf (ns.map f) d s ↔ ∃ n ∈ ns, t ∈ f n d s := by
    simp [Steps.oneOf]
  rw [Span.toward_oneOf]
  refine ⟨fun {s} hs j => ?_, fun {s t} hs ht => ?_⟩
  · simp only [hmem, Span.oneOf, List.map_map, List.mem_map, Function.comp_apply,
      exists_exists_and_eq_and]
    constructor
    · rintro ⟨t, ⟨n, hn, ht⟩, hj⟩
      exact ⟨n, hn, ((h n hn d).ends hs j).1 ⟨t, ht, hj⟩⟩
    · rintro ⟨n, hn, hj⟩
      obtain ⟨t, ht, hj⟩ := ((h n hn d).ends hs j).2 hj
      exact ⟨t, ⟨n, hn, ht⟩, hj⟩
  · obtain ⟨n, hn, ht⟩ := hmem.1 ht
    exact (h n hn d).stays hs ht

end

namespace Scene

variable {x : Scene}

/-! ## Ends -/

/-- A position of the text. -/
def Fits (x : Scene) (i : Nat) : Prop := i ≤ x.text.length

theorem follows_of_mem {ends : Steps Nat} {P : Span} (hP : P.Within x.text.length)
    (h : ∀ d i j, x.Fits i → (j ∈ ends d i ↔ P.toward d i j)) : Follows id x.Fits ends P := by
  intro d
  refine ⟨fun {i} hi j => ?_, fun {i j} hi hj => ?_⟩
  · simp only [id, exists_eq_right]
    exact h d i j hi
  · have hspan := (h d i j hi).1 hj
    cases d with
    | forward => exact (hP i j hspan).2 hi
    | backward => exact Nat.le_trans (hP j i hspan).1 hi

theorem follows_characterEnds [Properties] (captures : Captures) (n : Node) :
    Follows id x.Fits (x.characterEnds n) ((x.input captures).character x.flags n) := by
  refine follows_of_mem ((x.input captures).within_character x.flags n) fun d i j _ => ?_
  unfold characterEnds Input.character
  cases n.charSet? x.flags with
  | none =>
    cases d with
    | forward => exact Iff.rfl
    | backward => exact x.ends_turn
  | some set =>
    cases d with
    | forward =>
      simp only [Input.beside, Span.toward, Input.oneIn, input]
      cases x.text[i]? with
      | none => simp
      | some c => by_cases hc : c ∈ set <;> simp [hc]
    | backward =>
      cases i with
      | zero => simp [Input.beside, Span.toward, Input.oneIn]
      | succ i =>
        have hnear : (i + 1 = j + 1 ∧ ∃ c ∈ set, x.text[j]? = some c) ↔
            j = i ∧ ∃ c ∈ set, x.text[i]? = some c := by
          constructor
          · rintro ⟨h, hc⟩
            obtain rfl : i = j := by omega
            exact ⟨rfl, hc⟩
          · rintro ⟨rfl, hc⟩
            exact ⟨rfl, hc⟩
        simp only [Input.beside, Span.toward, Input.oneIn, input, hnear]
        cases x.text[i]? with
        | none => simp
        | some c => by_cases hc : c ∈ set <;> simp [hc]

theorem follows_letterEnds [Properties] (captures : Captures) (letters : List Letter) :
    Follows id x.Fits (x.letterEnds letters) ((x.input captures).letters x.flags letters) :=
  follows_row fun letter _ => follows_characterEnds captures (.character letter)

theorem length_eq_of_isEqv {α : Type} {r : α → α → Bool} {xs ys : List α}
    (h : xs.isEqv ys r = true) : xs.length = ys.length := by
  induction xs generalizing ys with
  | nil => cases ys <;> simp_all
  | cons a xs ih =>
    cases ys with
    | nil => cases h
    | cons b ys =>
      rw [List.isEqv_cons_cons, Bool.and_eq_true] at h
      rw [List.length_cons, List.length_cons, ih h.2]

theorem stop_of_isWordAt {word : List Char} {i j : Nat} (hij : i ≤ j) (hj : j ≤ x.text.length)
    (h : x.isWordAt word i j = true) : j = i + word.length := by
  have hlength := length_eq_of_isEqv h
  simp only [List.extract_eq_take_drop, List.length_take, List.length_drop] at hlength
  omega

theorem follows_wordEnds (captures : Captures) (ref : GroupRef) :
    Follows id x.Fits (x.wordEnds (x.captured captures ref)) ((x.input captures).reference ref) := by
  have hwithin : ((x.input captures).reference ref).Within x.text.length :=
    fun i j h => ⟨h.1, fun _ => h.2.1⟩
  refine follows_of_mem hwithin fun d i j hi => ?_
  cases d with
  | forward =>
    simp only [wordEnds, Span.toward, input]
    constructor
    · intro h
      split at h
      · rename_i hword
        rw [List.mem_singleton.1 h]
        exact ⟨by omega, hword⟩
      · cases h
    · rintro ⟨hij, hj, hword⟩
      obtain rfl := stop_of_isWordAt hij hj hword
      rw [if_pos ⟨hj, hword⟩]
      exact List.mem_singleton.2 rfl
  | backward =>
    simp only [wordEnds, Span.toward, input]
    constructor
    · intro h
      split at h
      · rename_i hword
        rw [List.mem_singleton.1 h]
        exact ⟨by omega, hi, hword.2⟩
      · cases h
    · rintro ⟨hji, -, hword⟩
      have hstop := stop_of_isWordAt hji hi hword
      have hstart : i - (x.captured captures ref).length = j := by omega
      rw [hstart, if_pos ⟨by omega, hword⟩]
      exact List.mem_singleton.2 rfl

/-! ## Moments that keep some captures -/

/-- The position is one of the text, and the groups in `kept` have captured what they had. -/
structure Keeps (x : Scene) (kept : Nat → Prop) (captures : Captures) (s : Moment) : Prop where
  fits : x.Fits s.position
  same : ∀ g, kept g → s.captures g = captures g

section
variable {kept : Nat → Prop} {captures : Captures}

theorem follows_moving {ends : Steps Nat} {P : Span} (h : Follows id x.Fits ends P) :
    Follows Moment.position (x.Keeps kept captures) (Steps.moving ends) P := by
  intro d
  refine ⟨fun {s} hs j => ?_, fun {s t} hs ht => ?_⟩
  · have hends := (h d).ends hs.fits j
    simp only [id, exists_eq_right] at hends
    simp [Steps.moving, Moment.moveTo, hends]
  · obtain ⟨j, hj, rfl⟩ := List.mem_map.1 ht
    exact ⟨(h d).stays hs.fits hj, hs.same⟩

theorem Keeps.forget {groups : List Nat} (hgroups : ∀ g ∈ groups, ¬ kept g) {s : Moment}
    (h : x.Keeps kept captures s) : x.Keeps kept captures (s.forget groups) := by
  refine ⟨h.fits, fun g hg => ?_⟩
  have : g ∉ groups := fun hmem => hgroups g hmem hg
  simp [Moment.forget, this, h.same g hg]

theorem Keeps.leave {frame : Frame} (hframe : ∀ index name, frame = .capture index name → ¬ kept index)
    {s : Moment} (h : x.Keeps kept captures s) (start : Nat) :
    x.Keeps kept captures (s.leave start frame) := by
  cases frame with
  | whole | plain => exact h
  | capture index name =>
    refine ⟨h.fits, fun g hg => ?_⟩
    have : g ≠ index := by
      rintro rfl
      exact hframe g name rfl hg
    simp [Moment.leave, this, h.same g hg]

theorem position_leave (start : Nat) (frame : Frame) (s : Moment) :
    (s.leave start frame).position = s.position := by
  cases frame <;> rfl

/-- A group ends where what is in it ends. -/
theorem follows_leave {f : Steps Moment} {P : Span} {frame : Frame}
    (hframe : ∀ index name, frame = .capture index name → ¬ kept index)
    (h : Follows Moment.position (x.Keeps kept captures) f P) :
    Follows Moment.position (x.Keeps kept captures)
      (fun d s => (f d s).map (Moment.leave s.position frame)) P := by
  intro d
  refine ⟨fun {s} hs j => ?_, fun {s t} hs ht => ?_⟩
  · rw [← (h d).ends hs j]
    simp [position_leave]
  · obtain ⟨u, hu, rfl⟩ := List.mem_map.1 ht
    exact ((h d).stays hs hu).leave hframe _

/-- A lookaround only tests whether there is a way through it. -/
theorem follows_look {f : Steps Moment} {P : Span} {direction : Direction} {negate : Bool}
    (h : Follows Moment.position (x.Keeps kept captures) f P) :
    Follows Moment.position (x.Keeps kept captures)
      (fun _ s => s.look negate (f direction s).head?)
      (.test fun i => P.seen direction i ↔ negate = false) := by
  intro d
  rw [Span.toward_test]
  have hseen {s : Moment} (hs : x.Keeps kept captures s) :
      P.seen direction s.position ↔ f direction s ≠ [] := by
    rw [Span.seen_iff_toward]
    constructor
    · rintro ⟨j, hj⟩
      obtain ⟨t, ht, -⟩ := ((h direction).ends hs j).2 hj
      exact List.ne_nil_of_mem ht
    · intro hne
      obtain ⟨t, ht⟩ := List.exists_mem_of_ne_nil _ hne
      exact ⟨t.position, ((h direction).ends hs _).1 ⟨t, ht, rfl⟩⟩
  refine ⟨fun {s} hs j => ?_, fun {s t} hs ht => ?_⟩
  · rw [Span.test, hseen hs]
    show (∃ t ∈ s.look negate (f direction s).head?, t.position = j) ↔ _
    cases f direction s with
    | nil => cases negate <;> simp [Moment.look]
    | cons t ts => cases negate <;> simp [Moment.look, Moment.moveTo]
  · replace ht : t ∈ s.look negate (f direction s).head? := ht
    cases hf : f direction s with
    | nil =>
      rw [hf] at ht
      cases negate with
      | false => cases ht
      | true => rwa [List.mem_singleton.1 ht]
    | cons u us =>
      rw [hf] at ht
      cases negate with
      | true => cases ht
      | false =>
        rw [List.mem_singleton.1 ht]
        have hu : u ∈ f direction s := by simp [hf]
        exact ⟨hs.fits, ((h direction).stays hs hu).same⟩

end

/-! ## Nodes -/

/-- The groups in the tree are not kept, and its references lead to groups that are. -/
def Steady (x : Scene) (kept : Nat → Prop) : Node → Prop := Node.Throughout fun m =>
  (∀ index name ns, m = .choice (.capture index name) ns → ¬ kept index) ∧
    ∀ ref g, m = .backreference ref → x.resolve? ref = some g → kept g

theorem hasGroup_of_mem {n : Node} {g : Nat} (h : g ∈ n.groupNumbers) : n.HasGroup g := by
  obtain ⟨p, hp, hg⟩ := List.mem_filterMap.1 h
  have hpart := (Node.leads_of_mem_walk hp).hasPart
  unfold Regex.captureIndex? at hg
  split at hg
  · rename_i name ns heq
    cases hg
    rw [heq] at hpart
    exact ⟨name, ns, hpart⟩
  · cases hg

section
variable {kept : Nat → Prop} {captures : Captures}

theorem follows_edge [Properties] (e : Edge) :
    Follows Moment.position (x.Keeps kept captures) (x.outcomes (.edge e))
      ((Node.edge e).spans x.flags (x.input captures)) := by
  intro d
  have hholds (s : Moment) : e.holds x.flags (x.input s.captures) s.position ↔
      e.holds x.flags (x.input captures) s.position := by
    cases e <;> exact Iff.rfl
  rw [Node.spans, Span.toward_test]
  refine ⟨fun {s} _ j => ?_, fun {s t} hs ht => ?_⟩
  · simp only [outcomes, Span.test, ← hholds]
    split
    · rename_i h
      simp [h]
    · rename_i h
      simp [h]
  · simp only [outcomes] at ht
    split at ht
    · rwa [List.mem_singleton.1 ht]
    · cases ht

theorem follows_backreference [Properties]
    {ref : GroupRef} (hkept : ∀ g, x.resolve? ref = some g → kept g) :
    Follows Moment.position (x.Keeps kept captures) (x.outcomes (.backreference ref))
      ((Node.backreference ref).spans x.flags (x.input captures)) := by
  intro d
  rw [Node.spans]
  refine (follows_moving (follows_wordEnds captures ref) d).congr fun s hs => ?_
  have hsame : x.captured s.captures ref = x.captured captures ref := by
    unfold captured
    cases hg : x.resolve? ref with
    | none => rfl
    | some g => rw [Option.bind_some, Option.bind_some, hs.same g (hkept g hg)]
  simp only [outcomes, hsame]

theorem rounds_le {bounds : Bounds} {m : Nat}
    (h : bounds.max.map (· - bounds.min) = some m) : x.rounds bounds ≤ m := by
  obtain ⟨most, hmost, rfl⟩ := Option.map_eq_some_iff.1 h
  rw [rounds, hmost]
  exact Nat.min_le_left _ _

theorem rounds_eq (bounds : Bounds) : x.rounds bounds = x.text.length ∨
    bounds.max.map (· - bounds.min) = some (x.rounds bounds) := by
  unfold rounds
  cases bounds.max with
  | none => exact .inl rfl
  | some most =>
    rcases Nat.le_total (most - bounds.min) x.text.length with h | h
    · exact .inr (congrArg some (Nat.min_eq_left h).symm)
    · exact .inl (Nat.min_eq_right h)

variable [Properties]

/-- A quantifier repeats its element, as often as its bounds allow. -/
theorem follows_quantifier {element : Node} {P : Span}
    (hgroups : ∀ g ∈ element.groupNumbers, ¬ kept g) (hP : P.Within x.text.length)
    (h : Follows Moment.position (x.Keeps kept captures) (x.outcomes element) P) (bounds : Bounds)
    (greedy : Bool) (lexeme : List Char) :
    Follows Moment.position (x.Keeps kept captures)
      (x.outcomes (.quantifier bounds greedy lexeme element))
      (.repeated bounds.min bounds.max P) := by
  intro d
  have hround : Tracks Moment.position (x.Keeps kept captures)
      (fun t => x.outcomes element d (t.forget element.groupNumbers)) (P.toward d) :=
    ⟨fun hs => (h d).ends (hs.forget hgroups), fun hs => (h d).stays (hs.forget hgroups)⟩
  let room (i : Nat) : Nat := match d with
    | .forward => x.text.length - i
    | .backward => i
  have hroom {s : Moment} (hs : x.Keeps kept captures s) (j : Nat)
      (hj : P.toward d s.position j) (hne : j ≠ s.position) : room j < room s.position := by
    have hfits : s.position ≤ x.text.length := hs.fits
    cases d with
    | forward =>
      have := hP _ _ hj
      show x.text.length - j < x.text.length - s.position
      omega
    | backward =>
      have := hP _ _ hj
      show j < s.position
      omega
  have hle {s : Moment} (hs : x.Keeps kept captures s) : room s.position ≤ x.text.length := by
    cases d with
    | forward => exact Nat.sub_le _ _
    | backward => exact hs.fits
  rw [Span.toward_repeated, Span.repeated_rest]
  refine (hround.forced bounds.min).andThen (hround.optional greedy ?_ hroom ?_ ?_)
  · intro s t
    simp [Moment.moves]
  · intro m hm
    exact rounds_le hm
  · intro s hs
    refine (rounds_eq bounds).imp_left fun hrounds => ?_
    rw [hrounds]
    exact hle hs

theorem outcomesAll_eq_map (ns : List Node) : x.outcomesAll ns = ns.map x.outcomes := by
  induction ns with
  | nil => rfl
  | cons n ns ih => rw [outcomesAll, ih, List.map_cons]

mutual

theorem follows_outcomes : (n : Node) → x.Steady kept n →
    Follows Moment.position (x.Keeps kept captures) (x.outcomes n)
      (n.spans x.flags (x.input captures))
  | .choice frame alternatives, h => by
    obtain ⟨hn, hchildren⟩ := Node.throughout_iff.1 h
    have hframe (index : Nat) (name : Option (List Char)) (heq : frame = .capture index name) :
        ¬ kept index := hn.1 index name alternatives (by rw [heq])
    have halternatives := follows_oneOf (follows_outcomesAll alternatives hchildren)
    rw [← outcomesAll_eq_map, ← Node.spansAll_eq_map] at halternatives
    rw [outcomes, Node.spans]
    exact follows_leave hframe halternatives
  | .look direction negate alternatives, h => by
    have hchildren := (Node.throughout_iff.1 h).2
    have halternatives := follows_oneOf (follows_outcomesAll alternatives hchildren)
    rw [← outcomesAll_eq_map, ← Node.spansAll_eq_map] at halternatives
    rw [outcomes, Node.spans]
    exact follows_look halternatives
  | .alternative elements, h => by
    have hchildren := (Node.throughout_iff.1 h).2
    have helements := follows_row (follows_outcomesAll elements hchildren)
    rw [← outcomesAll_eq_map, ← Node.spansAll_eq_map] at helements
    rw [outcomes, Node.spans]
    exact helements
  | .quantifier bounds greedy lexeme element, h => by
    have helement : x.Steady kept element := (Node.throughout_iff.1 h).2 element (by simp [Node.children])
    have hgroups (g : Nat) (hg : g ∈ element.groupNumbers) : ¬ kept g := by
      obtain ⟨name, ns, hpart⟩ := hasGroup_of_mem hg
      exact (helement _ hpart).1 g name ns rfl
    rw [Node.spans]
    exact follows_quantifier hgroups (element.within_spans x.flags (x.input captures))
      (follows_outcomes element helement) bounds greedy lexeme
  | .edge e, _ => follows_edge e
  | .backreference ref, h => follows_backreference fun g hg => (h _ .self).2 ref g rfl hg
  | .strings alternatives, _ => by
    rw [outcomes, Node.spans]
    exact follows_moving (follows_oneOf fun letters _ => follows_letterEnds captures letters)
  | .string letters, _ => by
    rw [outcomes, Node.spans]
    exact follows_moving (follows_letterEnds captures letters)
  | .character _, _ | .range _ _, _ | .shorthand _, _ | .charClass _ _ _, _
  | .classExpression _ _, _ | .classOperation _ _ _, _ => by
    rw [outcomes, Node.spans]
    exact follows_moving (follows_characterEnds captures _)

theorem follows_outcomesAll : (ns : List Node) → (∀ n ∈ ns, x.Steady kept n) →
    ∀ n ∈ ns, Follows Moment.position (x.Keeps kept captures) (x.outcomes n)
      (n.spans x.flags (x.input captures))
  | [], _ => by simp
  | n :: ns, h => by
    rw [List.forall_mem_cons] at h ⊢
    exact ⟨follows_outcomes n h.1, follows_outcomesAll ns h.2⟩

end

end

/-- For a node whose references lead out of it, the outcomes end where its spans end. -/
theorem outcomes_iff_spans [Properties] {n : Node}
    (h : ∀ ref g, n.HasPart (.backreference ref) → x.resolve? ref = some g → ¬ n.HasGroup g)
    (d : Direction) {s : Moment} (hs : x.Fits s.position) (j : Nat) :
    (∃ t ∈ x.outcomes n d s, t.position = j) ↔
      (n.spans x.flags (x.input s.captures)).toward d s.position j := by
  have hsteady : x.Steady (fun g => ¬ n.HasGroup g) n := by
    intro m hm
    constructor
    · rintro index name ns rfl hno
      exact hno ⟨name, ns, hm⟩
    · rintro ref g rfl hg
      exact h ref g hm hg
  exact (follows_outcomes n hsteady d).ends ⟨hs, fun _ _ => rfl⟩ j

end Scene

end RegexAudit
