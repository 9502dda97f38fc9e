import RegexAudit.CharSet.KnownProperties
import RegexAudit.Proofs.First
import RegexAudit.Proofs.Parsed

/-!
# Reachable characters are a superset

What a node consumes first, and what may stand right after it, is never missed by the analysis:

* `Node.describes_first`: the first characters of a node, in either direction.
* `Node.Occurs`: where a node stands in a match of the whole pattern, step by step down the trail.
* `Node.holds_afterAround`: what follows an occurrence, if what is around the match is known.

`Regex.first_sound` and `Regex.lookAfter_sound` say both for the nodes of a pattern.

Only lookarounds that are not negated are entered. Patterns have no references to groups here, and
every set that a node stands for is stored in order.
-/

namespace RegexAudit

namespace Node

/-- There is no reference in the tree, and sets can be intersected with and without complement. -/
structure Plain [Properties] (flags : Flags) (n : Node) : Prop where
  references : n.hasBackreference = false
  sets : ∀ m set, n.HasPart m → m.charSet? flags = some set → set.Sorted ∧ set.complement.Sorted

section
variable [Properties] {flags : Flags}

theorem Plain.of_child {n c : Node} (h : n.Plain flags) (hc : c ∈ n.children)
    (hreferences : c.hasBackreference = false) : c.Plain flags :=
  ⟨hreferences, fun m set hm hset => h.sets m set (.of_child hc hm) hset⟩

theorem Plain.choice {frame : Frame} {ns : List Node} (h : (choice frame ns).Plain flags) :
    ∀ n ∈ ns, n.Plain flags := fun _ hn =>
  h.of_child hn (hasBackreference_of_child h.references rfl hn)

theorem Plain.look {direction : Direction} {negate : Bool} {ns : List Node}
    (h : (look direction negate ns).Plain flags) : ∀ n ∈ ns, n.Plain flags := fun _ hn =>
  h.of_child hn (hasBackreference_of_child h.references rfl hn)

theorem Plain.alternative {ns : List Node} (h : (alternative ns).Plain flags) :
    ∀ n ∈ ns, n.Plain flags := fun _ hn =>
  h.of_child hn (hasBackreference_of_child h.references rfl hn)

theorem Plain.quantifier {bounds : Bounds} {greedy : Bool} {lexeme : List Char} {element : Node}
    (h : (quantifier bounds greedy lexeme element).Plain flags) : element.Plain flags :=
  h.of_child (List.mem_singleton_self _)
    (hasBackreference_of_child h.references rfl (List.mem_singleton_self _))

end

/-! ## First characters of nodes -/

section
variable {flags : Flags} {x : Input} {d : Direction}

section
variable [Properties]

theorem describes_characterFirst {n : Node}
    (hsets : ∀ set, n.charSet? flags = some set → set.Sorted) :
    First.Describes x d (x.character flags n) (n.characterFirst flags) := by
  unfold characterFirst Input.character
  cases hset : n.charSet? flags with
  | some set => exact First.describes_always (hsets set hset)
  | none => exact First.describes_unknown fun i j hij => x.unlisted_le hij

theorem Plain.describes_characterFirst {n : Node} (h : n.Plain flags) :
    First.Describes x d (x.character flags n) (n.characterFirst flags) :=
  Node.describes_characterFirst fun set hset => (h.sets n set .self hset).1

theorem describes_letters {letters : List Letter}
    (hsets : ∀ letter ∈ letters, ∀ set, letter.charSet? flags = some set → set.Sorted) :
    First.Describes x d (x.letters flags letters) (Letter.firstRow flags d letters) := by
  refine First.describes_row fun letter hletter => ?_
  exact Node.describes_characterFirst (n := character letter) (hsets letter hletter)

theorem soleSet?_some {alternatives : List Node} {set : CharSet}
    (h : soleSet? flags alternatives = some set) :
    ∃ n, alternatives = [alternative [n]] ∧ n.isCharacter = true ∧ n.charSet? flags = some set := by
  unfold soleSet? at h
  split at h
  · rename_i n
    split at h
    · rename_i hn
      exact ⟨n, rfl, hn, h⟩
    · cases h
  · cases h

/-- What a lookaround with a single character as its content sees. -/
theorem seen_soleSet {alternatives : List Node} {set : CharSet} {i : Nat}
    (h : soleSet? flags alternatives = some set) :
    (Span.oneOf (spansAll flags x alternatives)).seen d i ↔
      ∃ c, x.beside d i = some c ∧ c ∈ set := by
  obtain ⟨n, rfl, hn, hset⟩ := soleSet?_some h
  have hspans : n.spans flags x = x.oneIn set := by
    cases n with
    | character _ | range _ _ | shorthand _ | charClass _ _ _ | classExpression _ _
    | classOperation _ _ _ => rw [spans, Input.character, hset]
    | choice _ _ | look _ _ _ | alternative _ | quantifier _ _ _ _ | edge _ | backreference _
    | strings _ | string _ => cases hn
  rw [spansAll, spansAll, Span.oneOf_singleton, spans, spansAll, spansAll, Span.row_singleton,
    hspans]
  cases d with
  | forward =>
    constructor
    · rintro ⟨j, -, c, hc, htext⟩
      exact ⟨c, htext, hc⟩
    · rintro ⟨c, htext, hc⟩
      exact ⟨i + 1, rfl, c, hc, htext⟩
  | backward =>
    constructor
    · rintro ⟨k, rfl, c, hc, htext⟩
      exact ⟨c, htext, hc⟩
    · rintro ⟨c, htext, hc⟩
      cases i with
      | zero => cases htext
      | succ k => exact ⟨k, rfl, c, hc, htext⟩

theorem Plain.soleSet {direction : Direction} {negate : Bool} {alternatives : List Node}
    {set : CharSet} (h : (Node.look direction negate alternatives).Plain flags)
    (hset : soleSet? flags alternatives = some set) : set.Sorted ∧ set.complement.Sorted := by
  obtain ⟨n, rfl, -, hn⟩ := soleSet?_some hset
  have hpart : (Node.look direction negate [Node.alternative [n]]).HasPart n :=
    (HasPart.self.child (c := Node.alternative [n]) (by simp [children])).child
      (by simp [children])
  exact h.sets n set hpart hn

end

theorem isTable_lineTerminators : CharSet.IsTable Unicode.lineTerminators := by
  unfold CharSet.IsTable
  decide

theorem sorted_lineEdge (flags : Flags) : (lineEdge flags).chars.Sorted := by
  unfold lineEdge
  simp only
  split
  · exact CharSet.sorted_ofCodes _
  · exact CharSet.sorted_empty

theorem sorted_edgeLook (flags : Flags) (d : Direction) (e : Edge) :
    (e.look flags d).chars.Sorted := by
  cases e with
  | lineStart | lineEnd =>
    rw [Edge.look]
    split
    · exact sorted_lineEdge flags
    · exact CharSet.sorted_all
  | word negate => exact CharSet.sorted_all

theorem holds_lineEdge {i : Nat} (h : x.isLineEdge flags d i) : (lineEdge flags).Holds x d i := by
  cases hc : x.beside d i with
  | some c =>
    obtain ⟨hmultiline, hin⟩ := h c hc
    rw [Look.holds_some hc, lineEdge, if_pos hmultiline]
    exact (CharSet.mem_ofCodes isTable_lineTerminators c).2 hin
  | none =>
    rw [Look.holds_none hc]
    rfl

/-- The look of an assertion holds where the assertion does. -/
theorem holds_edgeLook (e : Edge) {i : Nat} (h : e.holds flags x i) :
    (e.look flags d).Holds x d i := by
  cases e with
  | lineStart | lineEnd =>
    rw [Edge.look]
    split
    · rename_i hd
      subst hd
      exact holds_lineEdge h
    · exact Look.holds_unknown
  | word negate => exact Look.holds_unknown

variable [Properties]

/-- The look of a lookaround holds where the lookaround does. Only one that looks the same way tells
anything, and a negated one only if it is about a single character. -/
theorem describes_look {direction : Direction} {negate : Bool} {alternatives : List Node}
    (h : (look direction negate alternatives).Plain flags) {f : First}
    (hf : First.Describes x d (Span.oneOf (spansAll flags x alternatives)) f) :
    First.Describes x d ((look direction negate alternatives).spans flags x)
      (.nothing <|
        if direction ≠ d then .unknown
        else if negate then
          match soleSet? flags alternatives with
          | some set => ⟨set.complement, true, true⟩
          | none => .unknown
        else f.toLook) := by
  have hunknown : First.Describes x d ((look direction negate alternatives).spans flags x)
      (.nothing .unknown) := by
    refine First.describes_nothing CharSet.sorted_all ?_
    rintro i j ⟨rfl, -⟩
    exact ⟨rfl, Look.holds_unknown⟩
  split
  · exact hunknown
  · rename_i hd
    obtain rfl : direction = d := Classical.not_not.1 hd
    split
    · rename_i hnegate
      subst hnegate
      split
      · rename_i set hset
        refine First.describes_nothing (h.soleSet hset).2 ?_
        rintro i j ⟨rfl, hseen⟩
        refine ⟨rfl, ?_⟩
        have hunseen : ¬ ∃ c, x.beside direction i = some c ∧ c ∈ set := by
          rw [← seen_soleSet hset]
          intro hsees
          cases hseen.1 hsees
        cases hc : x.beside direction i with
        | some c =>
          rw [Look.holds_some hc]
          exact CharSet.mem_complement fun hmem => hunseen ⟨c, hc, hmem⟩
        | none => rw [Look.holds_none hc]
      · exact hunknown
    · rename_i hnegate
      refine First.describes_nothing (First.sorted_toLook hf.sorted) ?_
      rintro i j ⟨rfl, hseen⟩
      refine ⟨rfl, First.toLook_holds ?_⟩
      have hsees := hseen.2 (Bool.eq_false_iff.2 hnegate)
      cases direction with
      | forward =>
        obtain ⟨j, hj⟩ := hsees
        exact hf.holds hj
      | backward =>
        obtain ⟨k, hk⟩ := hsees
        exact hf.holds hk

theorem describes_firstRow_cons {refs : Path → GroupRef → First} {path : Path} {slot : Nat}
    {n : Node} {ns : List Node} {B : Span} {before : First}
    (hn : First.Describes x d (n.spans flags x) (n.first refs flags d (path ++ [slot])))
    (hns : ∀ {B : Span} {before : First}, First.Describes x d B before →
      First.Describes x d (B.meeting (Span.row (spansAll flags x ns)) d)
        (firstRow refs flags d path (slot + 1) ns before))
    (hB : First.Describes x d B before) :
    First.Describes x d (B.meeting (Span.row (spansAll flags x (n :: ns))) d)
      (firstRow refs flags d path slot (n :: ns) before) := by
  rw [spansAll, Span.row_cons]
  cases d with
  | forward =>
    rw [firstRow, Span.meeting, ← Span.andThen_assoc]
    exact hns (hB.andThen hn)
  | backward =>
    rw [firstRow, Span.meeting, Span.andThen_assoc]
    exact (hns hB).andThen hn

variable {refs : Path → GroupRef → First}

mutual

/-- What a node consumes first is a superset of what it does consume first. -/
theorem describes_first (path : Path) :
    (n : Node) → n.Plain flags → First.Describes x d (n.spans flags x) (n.first refs flags d path)
  | alternative elements, h => by
    rw [spans, first]
    have hrow := describes_firstRow path 0 elements h.alternative First.describes_empty
    rwa [Span.empty_meeting] at hrow
  | choice _ alternatives, h => by
    rw [spans, first]
    obtain ⟨hsorted, hfirsts⟩ := describes_firsts path 0 alternatives h.choice
    exact First.describes_oneOf hsorted hfirsts
  | quantifier bounds _ _ element, h => by
    have helement := describes_first (path ++ [0]) element h.quantifier
    rw [spans, first]
    split
    · rename_i hmax
      refine First.describes_nothing CharSet.sorted_all ?_
      rintro i j ⟨k, -, hk, hij⟩
      have : k = 0 := Nat.le_zero.1 (hk 0 hmax)
      subst this
      exact ⟨hij, Look.holds_anything⟩
    · split
      · rename_i hmin
        rw [hmin]
        exact helement.repeated_zero bounds.max
      · rename_i hmin
        exact helement.repeated hmin
  | edge e, _ => by
    rw [spans, first]
    refine First.describes_nothing (sorted_edgeLook flags d e) ?_
    rintro i j ⟨rfl, hholds⟩
    exact ⟨rfl, holds_edgeLook e hholds⟩
  | look direction negate alternatives, h => by
    obtain ⟨hsorted, hfirsts⟩ := describes_firsts path 0 alternatives h.look
    rw [first]
    exact describes_look h (First.describes_oneOf hsorted hfirsts)
  | backreference _, h => by simpa [hasBackreference] using h.references
  | strings alternatives, h => by
    rw [spans, first]
    have heach : ∀ letters ∈ alternatives,
        First.Describes x d (x.letters flags letters) (Letter.firstRow flags d letters) := by
      intro letters hletters
      refine describes_letters fun letter hletter set hset => ?_
      have hstring : string letters ∈ (strings alternatives).children :=
        List.mem_map.2 ⟨letters, hletters, rfl⟩
      have hpart : (strings alternatives).HasPart (character letter) :=
        (HasPart.self.child hstring).child (List.mem_map.2 ⟨letter, hletter, rfl⟩)
      exact (h.sets _ set hpart hset).1
    apply First.describes_oneOf
    · intro f hf
      obtain ⟨letters, hletters, rfl⟩ := List.mem_map.1 hf
      exact (heach letters hletters).sorted
    · intro P hP
      obtain ⟨letters, hletters, rfl⟩ := List.mem_map.1 hP
      exact ⟨_, List.mem_map.2 ⟨letters, hletters, rfl⟩, heach letters hletters⟩
  | string letters, h => by
    rw [spans, first]
    refine describes_letters fun letter hletter set hset => ?_
    have hpart : (string letters).HasPart (character letter) :=
      HasPart.self.child (List.mem_map.2 ⟨letter, hletter, rfl⟩)
    exact (h.sets _ set hpart hset).1
  | character _, h | range .., h | shorthand _, h | charClass .., h | classExpression .., h
  | classOperation .., h => by
    rw [spans, first]
    exact h.describes_characterFirst

theorem describes_firsts (path : Path) (slot : Nat) :
    (ns : List Node) → (∀ n ∈ ns, n.Plain flags) →
      (∀ f ∈ firsts refs flags d path slot ns, f.Sorted) ∧
        ∀ P ∈ spansAll flags x ns, ∃ f ∈ firsts refs flags d path slot ns, First.Describes x d P f
  | [], _ => by simp [firsts, spansAll]
  | n :: ns, h => by
    rw [List.forall_mem_cons] at h
    have hn := describes_first (path ++ [slot]) n h.1
    obtain ⟨hsorted, hfirsts⟩ := describes_firsts path (slot + 1) ns h.2
    rw [firsts, spansAll, List.forall_mem_cons, List.forall_mem_cons]
    refine ⟨⟨hn.sorted, hsorted⟩, ⟨_, by simp, hn⟩, fun P hP => ?_⟩
    obtain ⟨f, hf, hPf⟩ := hfirsts P hP
    exact ⟨f, List.mem_cons_of_mem _ hf, hPf⟩

theorem describes_firstRow (path : Path) (slot : Nat) :
    (ns : List Node) → (∀ n ∈ ns, n.Plain flags) → ∀ {B : Span} {before : First},
      First.Describes x d B before →
      First.Describes x d (B.meeting (Span.row (spansAll flags x ns)) d)
        (firstRow refs flags d path slot ns before)
  | [], _, B, before, hB => by
    rwa [firstRow, spansAll, Span.row_nil, Span.meeting_empty]
  | n :: ns, h, B, before, hB => by
    rw [List.forall_mem_cons] at h
    have hn := describes_first (path ++ [slot]) n h.1
    exact describes_firstRow_cons hn (describes_firstRow path (slot + 1) ns h.2) hB

end

end

/-! ## Occurrences -/

variable [Properties]

/-- In some match of the parent from `i` to `j`, its child at a slot matches from `k` to `l`. Negated
lookarounds have no such match, and what stands in a class is not matched on its own. -/
def ChildMatches (flags : Flags) (x : Input) (parent : Node) (slot i j k l : Nat) : Prop :=
  match parent with
  | choice _ alternatives =>
    k = i ∧ l = j ∧ ∃ n, alternatives[slot]? = some n ∧ n.spans flags x k l
  | alternative elements =>
    Span.row (spansAll flags x (elements.take slot)) i k ∧
      (∃ n, elements[slot]? = some n ∧ n.spans flags x k l) ∧
      Span.row (spansAll flags x (elements.drop (slot + 1))) l j
  | quantifier bounds _ _ element =>
    ∃ before after, bounds.min ≤ before + 1 + after ∧
      (∀ m, bounds.max = some m → before + 1 + after ≤ m) ∧
      (element.spans flags x).power before i k ∧ element.spans flags x k l ∧
      (element.spans flags x).power after l j
  | look .forward false alternatives =>
    i = j ∧ k = i ∧ ∃ n, alternatives[slot]? = some n ∧ n.spans flags x k l
  | look .backward false alternatives =>
    i = j ∧ l = i ∧ ∃ n, alternatives[slot]? = some n ∧ n.spans flags x k l
  | _ => False

/-- In some match of the root from `i` to `j`, the node that the trail leads to matches from `k` to
`l`. -/
def Occurs (flags : Flags) (x : Input) (root : Node) (i j : Nat) : List Step → Nat → Nat → Prop
  | [], k, l => k = i ∧ l = j ∧ root.spans flags x i j
  | s :: up, k, l => ∃ k' l', Occurs flags x root i j up k' l' ∧
      ChildMatches flags x s.parent s.slot k' l' k l

end Node

/-- The end of a stretch that a direction comes to last. -/
def Direction.far : Direction → Nat → Nat → Nat
  | .forward, _, j => j
  | .backward, i, _ => i

namespace Node

variable [Properties]

section
variable {flags : Flags} {x : Input} {d : Direction} {i j k l slot : Nat}

/-- What a direction meets beyond a child of a row. -/
theorem beyond_of_childMatches {elements : List Node}
    (h : ChildMatches flags x (alternative elements) slot i j k l) :
    (Span.row (spansAll flags x (d.beyond slot elements).2)).toward d (d.far k l) (d.far i j) := by
  cases d with
  | forward => exact h.2.2
  | backward => exact h.1

/-- The repetitions that a direction meets after one of them. -/
theorem later_of_childMatches {bounds : Bounds} {greedy : Bool} {lexeme : List Char}
    {element : Node}
    (h : ChildMatches flags x (quantifier bounds greedy lexeme element) slot i j k l) :
    ∃ later, (∀ m, bounds.max = some m → later + 1 ≤ m) ∧
      ((element.spans flags x).power later).toward d (d.far k l) (d.far i j) := by
  obtain ⟨before, after, -, hmax, hbefore, -, hafter⟩ := h
  cases d with
  | forward =>
    refine ⟨after, fun m hm => ?_, hafter⟩
    have := hmax m hm
    omega
  | backward =>
    refine ⟨before, fun m hm => ?_, hbefore⟩
    have := hmax m hm
    omega

end

/-- A lookaround starts where it looks from. -/
theorem far_of_childMatches {direction : Direction} {negate : Bool} {alternatives : List Node}
    (hd : direction ≠ d) (h : ChildMatches flags x (look direction negate alternatives) slot i j k l) :
    d.far k l = d.far i j := by
  cases direction with
  | forward =>
    cases d with
    | forward => exact absurd rfl hd
    | backward =>
      cases negate with
      | true => exact h.elim
      | false => exact h.2.1
  | backward =>
    cases d with
    | forward =>
      cases negate with
      | true => exact h.elim
      | false => exact h.2.1.trans h.1
    | backward => exact absurd rfl hd

/-- What follows a node in a direction, if `around` follows the whole pattern. -/
def afterAround (around : Look) (refs : Path → GroupRef → First) (flags : Flags)
    (direction : Direction) : List Step → Node → First
  | [], _ => .nothing around
  | s :: up, n =>
    let path := (up.map (·.slot)).reverse
    match s.parent with
    | alternative elements =>
      let (slot, stretch) := direction.beyond s.slot elements
      (firstRow refs flags direction path slot stretch (.nothing .anything)).andThen fun _ =>
        afterAround around refs flags direction up s.parent
    | string letters =>
      (Letter.firstRow flags direction (direction.beyond s.slot letters).2).andThen fun _ =>
        afterAround around refs flags direction up s.parent
    | quantifier bounds _ _ _ =>
      let outside := afterAround around refs flags direction up s.parent
      if bounds.max.all fun m => decide (1 < m) then
        .oneOf [outside, .row [first refs flags direction (path ++ [s.slot]) n, outside]]
      else outside
    | look d _ _ =>
      if d = direction then .unknown else afterAround around refs flags direction up s.parent
    | choice .whole _ => .nothing around
    | choice _ _ => afterAround around refs flags direction up s.parent
    | _ => .unknown

theorem afterAlong_eq_afterAround (refs : Path → GroupRef → First) (flags : Flags)
    (d : Direction) (trail : List Step) (n : Node) :
    afterAlong refs flags d trail n = afterAround .onlyEdge refs flags d trail n := by
  induction trail generalizing n with
  | nil => rfl
  | cons s up ih =>
    rw [afterAlong, afterAround]
    cases s.parent with
    | choice frame _ => cases frame <;> simp only [ih]
    | _ => simp only [ih]

/-! ## What follows, step by step -/

section
variable {around : Look} {refs : Path → GroupRef → First} {flags : Flags} {x : Input}
  {d : Direction} {s : Step} {up : List Step} {n : Node} {a b : Nat}

/-- What a row consumes first beyond one of its elements. -/
theorem describes_beyond {elements : List Node} (hplain : ∀ e ∈ elements, e.Plain flags)
    (path : Path) (slot : Nat) :
    First.Describes x d (Span.row (spansAll flags x (d.beyond slot elements).2))
      (firstRow refs flags d path (d.beyond slot elements).1 (d.beyond slot elements).2
        (.nothing .anything)) := by
  have hstretch : ∀ e ∈ (d.beyond slot elements).2, e.Plain flags := fun e he =>
    hplain e (Direction.mem_of_mem_beyond he)
  have hrow : First.Describes x d
      (Span.empty.meeting (Span.row (spansAll flags x (d.beyond slot elements).2)) d)
      (firstRow refs flags d path (d.beyond slot elements).1 (d.beyond slot elements).2
        (.nothing .anything)) :=
    describes_firstRow path _ _ hstretch First.describes_empty
  rwa [Span.empty_meeting] at hrow

theorem holds_after_alternative {elements : List Node} (hparent : s.parent = alternative elements)
    (hplain : ∀ e ∈ elements, e.Plain flags)
    (hsorted : (afterAround around refs flags d up s.parent).Sorted)
    (hab : (Span.row (spansAll flags x (d.beyond s.slot elements).2)).toward d a b)
    (hb : (afterAround around refs flags d up s.parent).Holds x d b) :
    (afterAround around refs flags d (s :: up) n).Holds x d a := by
  rw [hparent] at hsorted hb
  rw [afterAround, hparent]
  exact (describes_beyond hplain _ s.slot).holds_andThen hsorted hab hb

theorem holds_after_quantifier {bounds : Bounds} {greedy : Bool} {lexeme : List Char}
    {element : Node} {R : Span} (later : Nat)
    (hparent : s.parent = quantifier bounds greedy lexeme element)
    (hR : First.Describes x d R (first refs flags d ((up.map (·.slot)).reverse ++ [s.slot]) n))
    (hsorted : (afterAround around refs flags d up s.parent).Sorted)
    (hlater : ∀ m, bounds.max = some m → later + 1 ≤ m)
    (hab : (R.power later).toward d a b)
    (hb : (afterAround around refs flags d up s.parent).Holds x d b) :
    (afterAround around refs flags d (s :: up) n).Holds x d a := by
  rw [hparent] at hsorted hb
  rw [afterAround, hparent]
  simp only
  split
  · cases later with
    | zero =>
      rw [Span.power, Span.toward_empty] at hab
      obtain rfl : a = b := hab
      exact (First.oneOf_includes (by simp)).holds hb
    | succ later =>
      refine (First.oneOf_includes (List.mem_cons_of_mem _ (List.mem_singleton.2 rfl))).holds ?_
      have hfirst : First.Describes x d (Span.empty.meeting (R.power (later + 1)) d)
          ((First.nothing .anything).andThen fun _ =>
            first refs flags d ((up.map (·.slot)).reverse ++ [s.slot]) n) :=
        First.describes_empty.andThen (hR.power later)
      rw [Span.empty_meeting] at hfirst
      rw [First.row_pair]
      exact hfirst.holds_andThen hsorted hab hb
  · rename_i hmax
    -- at most one repetition: none is left
    cases hm : bounds.max with
    | none =>
      rw [hm] at hmax
      exact absurd rfl hmax
    | some m =>
      rw [hm] at hmax
      have := hlater m hm
      simp only [Option.all_some, decide_eq_true_eq] at hmax
      obtain rfl : later = 0 := by omega
      rw [Span.power, Span.toward_empty] at hab
      obtain rfl : a = b := hab
      exact hb

end

/-! ## What follows an occurrence -/

/-- Whether matches of the node are made of matches of its children. -/
def isOpen : Node → Bool
  | choice .. | alternative _ | quantifier .. => true
  | look _ negate _ => !negate
  | _ => false

section
variable {flags : Flags} {x : Input} {d : Direction} {root : Node} {i j : Nat}

theorem Plain.of_leads (hplain : root.Plain flags) {trail : List Step} {n : Node}
    (h : root.Leads trail n) (hopen : ∀ s ∈ trail, s.parent.isOpen = true) : n.Plain flags := by
  induction trail generalizing n with
  | nil =>
    rw [Leads] at h
    rwa [h]
  | cons s up ih =>
    rw [List.forall_mem_cons] at hopen
    obtain ⟨hn, hleads⟩ := h
    have hparent := ih hleads hopen.2
    have hmem := List.mem_of_getElem? hn
    generalize s.parent = parent at hparent hmem hopen
    cases parent with
    | choice _ _ => exact hparent.choice n hmem
    | alternative _ => exact hparent.alternative n hmem
    | look _ _ _ => exact hparent.look n hmem
    | quantifier _ _ _ _ =>
      rw [children, List.mem_singleton] at hmem
      rw [hmem]
      exact hparent.quantifier
    | edge _ | backreference _ | character _ | range _ _ | shorthand _ | charClass _ _ _
    | classExpression _ _ | classOperation _ _ _ | strings _ | string _ => cases hopen.1

/-- What follows an alternative is what follows the choice. -/
theorem after_choice {around : Look} {refs : Path → GroupRef → First} {s : Step} {up : List Step}
    {n : Node} (hroot : root.IsPattern) (hleads : root.Leads up s.parent) {frame : Frame}
    {alternatives : List Node} (hparent : s.parent = choice frame alternatives) :
    afterAround around refs flags d (s :: up) n = afterAround around refs flags d up s.parent := by
  rw [hparent] at hleads
  rw [afterAround, hparent]
  cases frame with
  | whole =>
    rw [hroot.whole_on_top hleads]
    rfl
  | plain | capture _ _ => rfl

/-- Nothing is known of what follows the content of a lookaround in its own direction. -/
theorem after_look {around : Look} {refs : Path → GroupRef → First} {s : Step} {up : List Step}
    {n : Node} {direction : Direction} {negate : Bool} {alternatives : List Node}
    (hparent : s.parent = look direction negate alternatives) :
    afterAround around refs flags d (s :: up) n
      = if direction = d then .unknown else afterAround around refs flags d up s.parent := by
  rw [afterAround, hparent]

theorem isOpen_of_childMatches {parent : Node} {slot k l : Nat}
    (h : ChildMatches flags x parent slot i j k l) : parent.isOpen = true := by
  unfold ChildMatches at h
  split at h
  · rfl
  · rfl
  · rfl
  · rfl
  · rfl
  · exact h.elim

theorem spans_of_childMatches {parent n : Node} {slot k l : Nat}
    (hn : parent.children[slot]? = some n) (h : ChildMatches flags x parent slot i j k l) :
    n.spans flags x k l := by
  have hsame {ns : List Node} (hns : ns[slot]? = some n)
      (hm : ∃ m, ns[slot]? = some m ∧ m.spans flags x k l) : n.spans flags x k l := by
    obtain ⟨m, hm, hspans⟩ := hm
    rw [hns] at hm
    cases hm
    exact hspans
  unfold ChildMatches at h
  split at h
  · exact hsame hn h.2.2
  · exact hsame hn h.2.1
  · obtain ⟨-, -, -, -, -, hspans, -⟩ := h
    rwa [List.mem_singleton.1 (List.mem_of_getElem? hn)]
  · exact hsame hn h.2.2
  · exact hsame hn h.2.2
  · exact h.elim

/-- A node matches where it occurs. -/
theorem spans_of_occurs {trail : List Step} {n : Node} {k l : Nat} (hleads : root.Leads trail n)
    (h : Occurs flags x root i j trail k l) : n.spans flags x k l := by
  cases trail with
  | nil =>
    obtain ⟨rfl, rfl, hroot⟩ := h
    rw [Leads] at hleads
    rwa [hleads]
  | cons s up =>
    obtain ⟨k', l', -, hchild⟩ := h
    exact spans_of_childMatches hleads.1 hchild

/-- Occurrences stay in the text. -/
theorem le_of_childMatches {parent : Node} {slot k l : Nat} (hi : i ≤ x.text.length)
    (h : ChildMatches flags x parent slot i j k l) : k ≤ x.text.length ∧ l ≤ x.text.length := by
  have hspan {n : Node} (hk : k ≤ x.text.length) (hn : n.spans flags x k l) :
      k ≤ x.text.length ∧ l ≤ x.text.length := ⟨hk, (n.within_spans flags x k l hn).2 hk⟩
  unfold ChildMatches at h
  split at h
  · obtain ⟨rfl, -, n, -, hn⟩ := h
    exact hspan hi hn
  · obtain ⟨hbefore, ⟨n, -, hn⟩, -⟩ := h
    exact hspan ((Span.within_row (within_spansAll flags x _) i k hbefore).2 hi) hn
  · obtain ⟨before, after, -, -, hbefore, hn, -⟩ := h
    exact hspan ((Span.within_power (within_spans flags x _) before i k hbefore).2 hi) hn
  · obtain ⟨-, rfl, n, -, hn⟩ := h
    exact hspan hi hn
  · obtain ⟨-, rfl, n, -, hn⟩ := h
    exact ⟨Nat.le_trans (n.within_spans flags x k l hn).1 hi, hi⟩
  · exact h.elim

theorem le_of_occurs (hi : i ≤ x.text.length) {trail : List Step} {k l : Nat}
    (h : Occurs flags x root i j trail k l) : k ≤ x.text.length ∧ l ≤ x.text.length := by
  induction trail generalizing k l with
  | nil =>
    obtain ⟨rfl, rfl, hroot⟩ := h
    exact ⟨hi, (root.within_spans flags x k l hroot).2 hi⟩
  | cons s up ih =>
    obtain ⟨k', l', hup, hchild⟩ := h
    exact le_of_childMatches (ih hup).1 hchild

theorem isOpen_of_occurs {trail : List Step} {k l : Nat} (h : Occurs flags x root i j trail k l) :
    ∀ s ∈ trail, s.parent.isOpen = true := by
  induction trail generalizing k l with
  | nil => simp
  | cons s up ih =>
    obtain ⟨k', l', hup, hchild⟩ := h
    rw [List.forall_mem_cons]
    exact ⟨isOpen_of_childMatches hchild, ih hup⟩

variable {around : Look} {refs : Path → GroupRef → First}

theorem sorted_afterAround (x : Input) (haround : around.chars.Sorted) (hplain : root.Plain flags)
    {trail : List Step} {n : Node} (h : root.Leads trail n)
    (hopen : ∀ s ∈ trail, s.parent.isOpen = true) :
    (afterAround around refs flags d trail n).Sorted := by
  have hedge : (First.nothing around).Sorted := First.sorted_nothing haround
  induction trail generalizing n with
  | nil => exact hedge
  | cons s up ih =>
    have hn : n.Plain flags := hplain.of_leads h hopen
    rw [List.forall_mem_cons] at hopen
    have hparent : s.parent.Plain flags := hplain.of_leads h.2 hopen.2
    have houtside := ih h.2 hopen.2
    rw [afterAround]
    simp only
    split
    · rename_i elements heq
      rw [heq] at hparent houtside
      have hrow : First.Describes x d (Span.row (spansAll flags x (d.beyond s.slot elements).2))
          (firstRow refs flags d (up.map (·.slot)).reverse (d.beyond s.slot elements).1
            (d.beyond s.slot elements).2 (.nothing .anything)) :=
        describes_beyond hparent.alternative _ s.slot
      rw [heq]
      exact First.sorted_andThen hrow.sorted houtside
    · rename_i heq
      rw [heq] at hopen
      cases hopen.1
    · have hfirst : (first refs flags d ((up.map (·.slot)).reverse ++ [s.slot]) n).Sorted :=
        (describes_first (x := x) _ n hn).sorted
      split
      · refine First.sorted_oneOf ?_
        simp only [List.forall_mem_cons]
        exact ⟨houtside, First.sorted_row (by simp [hfirst, houtside]), by simp⟩
      · exact houtside
    · split
      · exact First.sorted_unknown
      · exact houtside
    · exact hedge
    · exact houtside
    · exact First.sorted_unknown

/-- What is right about the surroundings of a match is right about every occurrence in it. -/
theorem holds_afterAround (hroot : root.IsPattern) (hplain : root.Plain flags)
    (haround : around.chars.Sorted) (hholds : around.Holds x d (d.far i j))
    {trail : List Step} {n : Node} {k l : Nat} (hleads : root.Leads trail n)
    (h : Occurs flags x root i j trail k l) :
    (afterAround around refs flags d trail n).Holds x d (d.far k l) := by
  induction trail generalizing n k l with
  | nil =>
    obtain ⟨rfl, rfl, -⟩ := h
    exact Or.inr ⟨around, rfl, hholds⟩
  | cons s up ih =>
    have hopen := isOpen_of_occurs h
    have hnplain := hplain.of_leads hleads hopen
    rw [List.forall_mem_cons] at hopen
    have hpplain := hplain.of_leads hleads.2 hopen.2
    obtain ⟨k', l', hup, hchild⟩ := h
    have houtside := ih hleads.2 hup
    have hsorted : (afterAround around refs flags d up s.parent).Sorted :=
      sorted_afterAround x haround hplain hleads.2 hopen.2
    cases hparent : s.parent with
    | alternative elements =>
      rw [hparent] at hpplain hchild
      exact holds_after_alternative hparent hpplain.alternative hsorted
        (beyond_of_childMatches hchild) houtside
    | quantifier bounds greedy lexeme element =>
      have hn : n = element := by
        have := hleads.1
        rw [hparent] at this
        exact (List.mem_singleton.1 (List.mem_of_getElem? this))
      rw [hparent] at hchild
      obtain ⟨later, hlater, hpower⟩ := later_of_childMatches (d := d) hchild
      rw [← hn] at hpower
      exact holds_after_quantifier later hparent (describes_first _ n hnplain) hsorted hlater
        hpower houtside
    | choice frame alternatives =>
      rw [hparent] at hchild
      obtain ⟨rfl, rfl, -⟩ := hchild
      rwa [after_choice hroot hleads.2 hparent]
    | look direction negate alternatives =>
      rw [hparent] at hchild
      rw [after_look hparent]
      split
      · exact First.holds_unknown
      · rename_i hd
        rwa [far_of_childMatches hd hchild]
    | edge _ | backreference _ | character _ | range _ _ | shorthand _ | charClass _ _ _
    | classExpression _ _ | classOperation _ _ _ | strings _ | string _ =>
      rw [hparent] at hopen
      cases hopen.1

end

end Node

/-! ## The analysis of a pattern -/

namespace Regex

open Node

/-- Directional reachability is sound. In a match of the whole text, what stands right after an
occurrence of a node is among the characters found for that direction, and the text ends there only
if the edge was found. -/
theorem lookAfter_sound [Properties] {source : List Char} {letters : Flags} {r : Regex}
    (hparse : Regex.parse source letters = .ok r) (hreferences : r.root.hasBackreference = false)
    (flags : Flags)
    (hsets : ∀ n set, r.root.HasPart n → n.charSet? flags = some set → set.Apart)
    (x : Input) {p : Place} (hp : p ∈ r.walk) {i j : Nat}
    (h : r.root.Occurs flags x 0 x.text.length p.trail i j) :
    ((∃ c, x.text[j]? = some c ∧ c ∈ (r.lookAfter flags .forward p).chars) ∨
      (j = x.text.length ∧ (r.lookAfter flags .forward p).edge = true)) ∧
    ((∃ k c, i = k + 1 ∧ x.text[k]? = some c ∧ c ∈ (r.lookAfter flags .backward p).chars) ∨
      (i = 0 ∧ (r.lookAfter flags .backward p).edge = true)) := by
  have hroot := (parse_source hparse).2.2.1
  have hplain : r.root.Plain flags := by
    refine ⟨hreferences, fun n set hn hset => ?_⟩
    have hapart := hsets n set hn hset
    exact ⟨hapart.sorted, CharSet.sorted_complement hapart⟩
  have hlook (d : Direction) (hedge : x.beside d (d.far 0 x.text.length) = none) :
      (r.lookAfter flags d p).Holds x d (d.far i j) := by
    apply First.toLook_holds
    rw [Regex.after, Node.afterAlong_eq_afterAround]
    refine Node.holds_afterAround hroot hplain CharSet.sorted_empty ?_
      (Node.leads_of_mem_walk hp) h
    rw [Look.holds_none hedge]
    rfl
  obtain ⟨-, hj⟩ := Node.le_of_occurs (Nat.zero_le _) h
  constructor
  · have hforward := hlook .forward (List.getElem?_eq_none (Nat.le_refl _))
    cases hc : x.text[j]? with
    | some c =>
      have hbeside : x.beside .forward j = some c := hc
      exact Or.inl ⟨c, rfl, (Look.holds_some hbeside).1 hforward⟩
    | none =>
      have hbeside : x.beside .forward j = none := hc
      have hend := List.getElem?_eq_none_iff.1 hc
      exact Or.inr ⟨Nat.le_antisymm hj hend, (Look.holds_none hbeside).1 hforward⟩
  · have hbackward := hlook .backward rfl
    cases i with
    | zero => exact Or.inr ⟨rfl, (Look.holds_none rfl).1 hbackward⟩
    | succ k =>
      obtain ⟨hk, -⟩ := Node.le_of_occurs (Nat.zero_le _) h
      obtain ⟨c, hc⟩ : ∃ c, x.text[k]? = some c := ⟨_, List.getElem?_eq_getElem (by omega)⟩
      have hbeside : x.beside .backward (k + 1) = some c := hc
      exact Or.inl ⟨k, c, rfl, hc, (Look.holds_some hbeside).1 hbackward⟩

/-- Without flags, a letter stands for itself. -/
theorem apart_letter [Properties] {letter : Letter} {set : CharSet}
    (h : (character letter).charSet? .empty = some set) : set.Apart := by
  obtain ⟨s, hs, rfl⟩ := Option.map_eq_some_iff.1 h
  unfold CharSet.ofCode? at hs
  split at hs
  · cases hs
    exact CharSet.apart_ofRanges _
  · cases hs

/-- In the match of `ab` by `/ab/`, the letter `b` is found after `a`. -/
theorem lookAfter_sound_ab :
    let a : Node := character ⟨97, ['a']⟩
    let b : Node := character ⟨98, ['b']⟩
    let r : Regex := ⟨['a', 'b'], .empty, choice .whole [alternative [a, b]]⟩
    let p : Place := ⟨a, 2, 0, [⟨alternative [a, b], 1, 0, 0⟩, ⟨r.root, 0, 0, 0⟩]⟩
    Regex.parse ['a', 'b'] .empty = .ok r ∧ p ∈ r.walk ∧
      r.root.Occurs .empty (.ofText ['a', 'b']) 0 2 p.trail 0 1 ∧
      ((∃ c, ['a', 'b'][1]? = some c ∧ c ∈ (r.lookAfter .empty .forward p).chars) ∨
        (1 = 2 ∧ (r.lookAfter .empty .forward p).edge = true)) := by
  intro a b r p
  have hparse : Regex.parse ['a', 'b'] .empty = .ok r := rfl
  have hp : p ∈ r.walk := List.mem_of_getElem? (i := 2) rfl
  have ha : a.charSet? .empty = some (.singleton 'a') := rfl
  have hb : b.charSet? .empty = some (.singleton 'b') := rfl
  have hspanA : a.spans .empty (.ofText ['a', 'b']) 0 1 := by
    rw [spans, Input.character, ha]
    exact ⟨rfl, 'a', CharSet.mem_singleton 'a', rfl⟩
  have hspanB : b.spans .empty (.ofText ['a', 'b']) 1 2 := by
    rw [spans, Input.character, hb]
    exact ⟨rfl, 'b', CharSet.mem_singleton 'b', rfl⟩
  have hrow : (alternative [a, b]).spans .empty (.ofText ['a', 'b']) 0 2 := by
    rw [spans]
    exact ⟨1, hspanA, 2, hspanB, rfl⟩
  have hroot : r.root.spans .empty (.ofText ['a', 'b']) 0 2 := by
    rw [spans]
    exact ⟨_, List.mem_singleton.2 rfl, hrow⟩
  have hoccurs : r.root.Occurs .empty (.ofText ['a', 'b']) 0 2 p.trail 0 1 :=
    ⟨0, 2, ⟨0, 2, ⟨rfl, rfl, hroot⟩, rfl, rfl, _, rfl, hrow⟩, rfl, ⟨a, rfl, hspanA⟩, 2, hspanB, rfl⟩
  have hsets : Throughout (fun n => ∀ set, n.charSet? .empty = some set → set.Apart) r.root := by
    refine throughout_iff.2 ⟨fun _ hset => (by cases hset), fun c hc => ?_⟩
    rw [List.mem_singleton.1 hc]
    refine throughout_iff.2 ⟨fun _ hset => (by cases hset), ?_⟩
    have hletter (letter : Letter) :
        Throughout (fun n => ∀ set, n.charSet? .empty = some set → set.Apart)
          (character letter) :=
      throughout_iff.2 ⟨fun _ => apart_letter, by simp [children]⟩
    simp only [children, List.forall_mem_cons]
    exact ⟨hletter _, hletter _, by simp⟩
  exact ⟨hparse, hp, hoccurs,
    (lookAfter_sound hparse rfl .empty (fun n set hn => hsets n hn set) (.ofText ['a', 'b']) hp
      hoccurs).1⟩

/-- The first characters of a node are a superset, in either direction. A match that is not empty
starts and ends with characters that were found, and at one that is empty the look holds; so a node
without a look has no empty match. -/
theorem first_sound [Properties] (r : Regex) (flags : Flags) {p : Place}
    (hreferences : p.node.hasBackreference = false)
    (hsets : ∀ n set, p.node.HasPart n → n.charSet? flags = some set → set.Apart)
    (x : Input) {i j : Nat} (hi : i ≤ x.text.length) (h : p.node.spans flags x i j) :
    (i < j →
      (∃ c, x.text[i]? = some c ∧ c ∈ (r.first flags .forward p).chars) ∧
      (∃ k c, j = k + 1 ∧ x.text[k]? = some c ∧ c ∈ (r.first flags .backward p).chars)) ∧
    (i = j →
      (∃ look, (r.first flags .forward p).look? = some look ∧
        ((∃ c, x.text[i]? = some c ∧ c ∈ look.chars) ∨
          (i = x.text.length ∧ look.edge = true))) ∧
      (∃ look, (r.first flags .backward p).look? = some look ∧
        ((∃ k c, i = k + 1 ∧ x.text[k]? = some c ∧ c ∈ look.chars) ∨
          (i = 0 ∧ look.edge = true)))) ∧
    ∀ d, (r.first flags d p).look? = none → i < j := by
  have hplain : p.node.Plain flags := by
    refine ⟨hreferences, fun n set hn hset => ?_⟩
    have hapart := hsets n set hn hset
    exact ⟨hapart.sorted, CharSet.sorted_complement hapart⟩
  have hfirst (d : Direction) : First.Describes x d (p.node.spans flags x) (r.first flags d p) :=
    Node.describes_first p.path p.node hplain
  refine ⟨fun hij => ⟨?_, ?_⟩, fun hij => ?_, fun d hnone => ?_⟩
  · exact (hfirst .forward).consumed i j h (Nat.ne_of_lt hij)
  · obtain ⟨c, hc, hmem⟩ := (hfirst .backward).consumed j i h (Nat.ne_of_gt hij)
    obtain ⟨k, rfl⟩ : ∃ k, j = k + 1 := ⟨j - 1, by omega⟩
    exact ⟨k, c, rfl, hc, hmem⟩
  · subst hij
    constructor
    · obtain ⟨look, hlook, hholds⟩ := (hfirst .forward).nothing i h
      refine ⟨look, hlook, ?_⟩
      cases hc : x.beside .forward i with
      | some c => exact .inl ⟨c, hc, (Look.holds_some hc).1 hholds⟩
      | none =>
        have hend := List.getElem?_eq_none_iff.1 hc
        exact .inr ⟨Nat.le_antisymm hi hend, (Look.holds_none hc).1 hholds⟩
    · obtain ⟨look, hlook, hholds⟩ := (hfirst .backward).nothing i h
      refine ⟨look, hlook, ?_⟩
      cases i with
      | zero => exact .inr ⟨rfl, (Look.holds_none rfl).1 hholds⟩
      | succ k =>
        obtain ⟨c, hc⟩ : ∃ c, x.text[k]? = some c := ⟨_, List.getElem?_eq_getElem (by omega)⟩
        have hbeside : x.beside .backward (k + 1) = some c := hc
        exact .inl ⟨k, c, rfl, hc, (Look.holds_some hbeside).1 hholds⟩
  · -- a match that is empty would have a look
    refine Nat.lt_of_le_of_ne ((hfirst d).ordered i j h) fun hij => ?_
    subst hij
    obtain ⟨look, hlook, -⟩ := (hfirst d).nothing i h
    rw [hnone] at hlook
    cases hlook

/-- The pattern `(?!b)a?` matches nothing in front of `c`, and the look it has there lets `c`
follow. -/
theorem first_sound_negated_lookahead :
    let b : Node := character ⟨98, ['b']⟩
    let unlessB : Node := look .forward true [alternative [b]]
    let optional : Node :=
      quantifier ⟨0, some 1, fun _ _ => Nat.zero_le _⟩ true ['?'] (character ⟨97, ['a']⟩)
    let r : Regex :=
      ⟨['(', '?', '!', 'b', ')', 'a', '?'], .empty, choice .whole [alternative [unlessB, optional]]⟩
    let p : Place := ⟨r.root, 0, 0, []⟩
    Regex.parse r.source .empty = .ok r ∧ p ∈ r.walk ∧
      r.root.spans .empty (.ofText ['c']) 0 0 ∧
      ∃ look, (r.first .empty .forward p).look? = some look ∧
        ((∃ c, ['c'][0]? = some c ∧ c ∈ look.chars) ∨ (0 = 1 ∧ look.edge = true)) := by
  intro b unlessB optional r p
  have hparse : Regex.parse r.source .empty = .ok r := rfl
  have hp : p ∈ r.walk := List.mem_of_getElem? (i := 0) rfl
  have hsole : soleSet? .empty [alternative [b]] = some (.singleton 'b') := rfl
  have hunless : unlessB.spans .empty (.ofText ['c']) 0 0 := by
    refine ⟨rfl, ⟨fun hseen => ?_, fun h => by cases h⟩⟩
    obtain ⟨c, hc, hmem⟩ := (seen_soleSet hsole).1 hseen
    cases hc
    obtain ⟨range, hrange, -, hhi⟩ := hmem
    rw [List.mem_singleton.1 hrange] at hhi
    exact absurd hhi (by decide)
  have hoptional : optional.spans .empty (.ofText ['c']) 0 0 := by
    rw [spans]
    exact ⟨0, Nat.le_refl 0, fun _ _ => Nat.zero_le _, rfl⟩
  have hrow : (alternative [unlessB, optional]).spans .empty (.ofText ['c']) 0 0 := by
    rw [spans]
    exact ⟨0, hunless, 0, hoptional, rfl⟩
  have hroot : r.root.spans .empty (.ofText ['c']) 0 0 := by
    rw [spans]
    exact ⟨_, List.mem_singleton.2 rfl, hrow⟩
  have hsets : Throughout (fun n => ∀ set, n.charSet? .empty = some set → set.Apart) r.root := by
    have hletter (letter : Letter) :
        Throughout (fun n => ∀ set, n.charSet? .empty = some set → set.Apart)
          (character letter) :=
      throughout_iff.2 ⟨fun _ => apart_letter, by simp [children]⟩
    have hlook : Throughout (fun n => ∀ set, n.charSet? .empty = some set → set.Apart)
        unlessB := by
      refine throughout_iff.2 ⟨nofun, fun c hc => ?_⟩
      rw [List.mem_singleton.1 hc]
      exact throughout_iff.2 ⟨nofun, by simpa [children] using hletter _⟩
    refine throughout_iff.2 ⟨nofun, fun c hc => ?_⟩
    rw [List.mem_singleton.1 hc]
    refine throughout_iff.2 ⟨nofun, ?_⟩
    have hquantifier : Throughout (fun n => ∀ set, n.charSet? .empty = some set → set.Apart)
        optional :=
      throughout_iff.2 ⟨nofun, by simpa [optional, children] using hletter _⟩
    simp only [children, List.forall_mem_cons]
    exact ⟨hlook, hquantifier, by simp⟩
  exact ⟨hparse, hp, hroot,
    ((first_sound r .empty (p := p) rfl (fun n set hn => hsets n hn set) (.ofText ['c'])
      (Nat.zero_le _) hroot).2.1 rfl).1⟩

end Regex

end RegexAudit
