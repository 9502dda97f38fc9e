import RegexAudit.Proofs.Reach

/-!
# Replacing a node

What becomes of the matches of a pattern when a node of it is replaced. `Node.rebuild` puts another
node where a trail leads to. If both nodes match the same, so do both patterns; and a node that
matches more may stand in for another one (`StandsIn`) if it does not match more wherever the
characters around are those that the analysis found. That goes up from a child to its parent, and so
from the node to the whole pattern.
-/

namespace RegexAudit

theorem Direction.ne_reverse (d : Direction) : d ≠ d.reverse := by cases d <;> simp [reverse]

theorem Span.toward_reverse (P : Span) (d : Direction) (a b : Nat) :
    P.toward d.reverse a b ↔ P.toward d b a := by cases d <;> rfl

theorem Direction.eq_reverse_of_ne {d e : Direction} (h : e ≠ d) : e = d.reverse := by
  cases d <;> cases e <;> first | rfl | exact absurd rfl h

theorem Span.toward_mono {P Q : Span} (h : ∀ i j, P i j → Q i j) (d : Direction) {a b : Nat}
    (hab : P.toward d a b) : Q.toward d a b := by
  cases d with
  | forward => exact h a b hab
  | backward => exact h b a hab

theorem Span.power_mono {P Q : Span} (h : ∀ i j, P i j → Q i j) (k : Nat) {i j : Nat}
    (hij : P.power k i j) : Q.power k i j := by
  induction k generalizing i with
  | zero => exact hij
  | succ k ih =>
    obtain ⟨m, him, hmj⟩ := hij
    exact ⟨m, h i m him, ih hmj⟩

theorem Span.seen_mono {P Q : Span} (h : ∀ i j, P i j → Q i j) {d : Direction} {i : Nat}
    (hi : P.seen d i) : Q.seen d i := by
  cases d with
  | forward =>
    obtain ⟨j, hj⟩ := hi
    exact ⟨j, h i j hj⟩
  | backward =>
    obtain ⟨k, hk⟩ := hi
    exact ⟨k, h k i hk⟩

namespace Node

/-- The node with another child at a slot. -/
def withChild (parent : Node) (slot : Nat) (child : Node) : Node :=
  match parent with
  | choice frame alternatives => choice frame (alternatives.set slot child)
  | look direction negate alternatives => look direction negate (alternatives.set slot child)
  | alternative elements => alternative (elements.set slot child)
  | quantifier bounds greedy lexeme _ => quantifier bounds greedy lexeme child
  | n => n

/-- The tree with another node where the trail leads to. -/
def rebuild : List Step → Node → Node
  | [], n => n
  | s :: up, n => rebuild up (s.parent.withChild s.slot n)

/-! ## One child replaced -/

section
variable {flags : Flags} {x : Input} {ns : List Node} {slot : Nat} {n m : Node}

theorem set_eq_append (h : ns[slot]? = some n) (m : Node) :
    ns.set slot m = ns.take slot ++ m :: ns.drop (slot + 1) := by
  obtain ⟨hslot, -⟩ := List.getElem?_eq_some_iff.1 h
  rw [List.set_eq_take_append_cons_drop, if_pos hslot]

theorem eq_append_of_getElem? (h : ns[slot]? = some n) :
    ns = ns.take slot ++ n :: ns.drop (slot + 1) := by
  rw [← set_eq_append h n]
  obtain ⟨hslot, rfl⟩ := List.getElem?_eq_some_iff.1 h
  rw [List.set_getElem_self]

variable [Properties]

theorem spansAll_append (ns ms : List Node) :
    spansAll flags x (ns ++ ms) = spansAll flags x ns ++ spansAll flags x ms := by
  rw [spansAll_eq_map, List.map_append, spansAll_eq_map, spansAll_eq_map]

theorem row_set (h : ns[slot]? = some n) (m : Node) :
    Span.row (spansAll flags x (ns.set slot m))
      = (Span.row (spansAll flags x (ns.take slot))).andThen
        ((m.spans flags x).andThen (Span.row (spansAll flags x (ns.drop (slot + 1))))) := by
  rw [set_eq_append h, spansAll_append, spansAll, Span.row_append, Span.row_cons]

theorem row_eq (h : ns[slot]? = some n) :
    Span.row (spansAll flags x ns)
      = (Span.row (spansAll flags x (ns.take slot))).andThen
        ((n.spans flags x).andThen (Span.row (spansAll flags x (ns.drop (slot + 1))))) := by
  rw [← row_set h n, set_eq_append h, ← eq_append_of_getElem? h]

theorem mem_oneOf {ns : List Node} {i j : Nat} :
    Span.oneOf (spansAll flags x ns) i j ↔ ∃ n ∈ ns, n.spans flags x i j := by
  rw [spansAll_eq_map]
  simp [Span.oneOf]

/-- One of the nodes with a replaced one among them: the new one, or one of the old ones. -/
theorem oneOf_set {i j : Nat}
    (h : Span.oneOf (spansAll flags x (ns.set slot m)) i j) :
    m.spans flags x i j ∨ Span.oneOf (spansAll flags x ns) i j := by
  obtain ⟨e, he, hij⟩ := mem_oneOf.1 h
  rcases List.mem_or_eq_of_mem_set he with he | rfl
  · exact Or.inr (mem_oneOf.2 ⟨e, he, hij⟩)
  · exact Or.inl hij

theorem oneOf_set_of_weaker (h : ns[slot]? = some n)
    (hweaker : ∀ i j, n.spans flags x i j → m.spans flags x i j) {i j : Nat}
    (hij : Span.oneOf (spansAll flags x ns) i j) :
    Span.oneOf (spansAll flags x (ns.set slot m)) i j := by
  rw [eq_append_of_getElem? h] at hij
  rw [set_eq_append h]
  obtain ⟨e, he, heij⟩ := mem_oneOf.1 hij
  refine mem_oneOf.2 ?_
  rcases List.mem_append.1 he with he | he
  · exact ⟨e, List.mem_append_left _ he, heij⟩
  · rcases List.mem_cons.1 he with rfl | he
    · exact ⟨m, by simp, hweaker i j heij⟩
    · exact ⟨e, by simp [he], heij⟩

/-- A node that matches more makes its parent match more, unless the parent is negated. -/
theorem spans_withChild_of_weaker {parent : Node} (hopen : parent.isOpen = true)
    (h : parent.children[slot]? = some n)
    (hweaker : ∀ i j, n.spans flags x i j → m.spans flags x i j) {i j : Nat}
    (hij : parent.spans flags x i j) : (parent.withChild slot m).spans flags x i j := by
  cases parent with
  | choice frame alternatives =>
    rw [spans] at hij
    rw [withChild, spans]
    exact oneOf_set_of_weaker h hweaker hij
  | look direction negate alternatives =>
    rw [isOpen, Bool.not_eq_true'] at hopen
    subst hopen
    rw [spans] at hij
    obtain ⟨rfl, hseen⟩ := hij
    rw [withChild, spans]
    have hseen := Span.seen_mono (fun _ _ => oneOf_set_of_weaker h hweaker) (hseen.2 rfl)
    exact ⟨rfl, fun _ => rfl, fun _ => hseen⟩
  | alternative elements =>
    have h : elements[slot]? = some n := h
    rw [spans, row_eq h] at hij
    rw [withChild, spans, row_set h]
    obtain ⟨k, hk, l, hl, hlj⟩ := hij
    exact ⟨k, hk, l, hweaker k l hl, hlj⟩
  | quantifier bounds greedy lexeme element =>
    have hn : n = element := List.mem_singleton.1 (List.mem_of_getElem? h)
    rw [spans] at hij
    rw [withChild, spans]
    obtain ⟨k, hmin, hmax, hpower⟩ := hij
    rw [hn] at hweaker
    exact ⟨k, hmin, hmax, Span.power_mono hweaker k hpower⟩
  | edge _ | backreference _ | character _ | range _ _ | shorthand _ | charClass _ _ _
  | classExpression _ _ | classOperation _ _ _ | strings _ | string _ => cases hopen

theorem spans_withChild_congr (parent : Node) (slot : Nat)
    (h : n.spans flags x = m.spans flags x) :
    (parent.withChild slot n).spans flags x = (parent.withChild slot m).spans flags x := by
  have hset (ns : List Node) : spansAll flags x (ns.set slot n) = spansAll flags x (ns.set slot m) := by
    rw [spansAll_eq_map, spansAll_eq_map, List.map_set, List.map_set, h]
  cases parent with
  | choice _ alternatives | look _ _ alternatives | alternative alternatives =>
    rw [withChild, withChild, spans, spans, hset]
  | quantifier _ _ _ _ => rw [withChild, withChild, spans, spans, h]
  | edge _ | backreference _ | character _ | range _ _ | shorthand _ | charClass _ _ _
  | classExpression _ _ | classOperation _ _ _ | strings _ | string _ => rfl

theorem spans_rebuild_congr (trail : List Step) (h : n.spans flags x = m.spans flags x) :
    (rebuild trail n).spans flags x = (rebuild trail m).spans flags x := by
  induction trail generalizing n m with
  | nil => exact h
  | cons s up ih => exact ih (spans_withChild_congr s.parent s.slot h)

theorem plain_of_children (hopen : n.isOpen = true) (h : ∀ c ∈ n.children, c.Plain flags) :
    n.Plain flags := by
  constructor
  · have hany := anyBackreference_eq_false.2 fun c hc => (h c hc).references
    cases n with
    | choice _ _ | look _ _ _ | alternative _ => rwa [hasBackreference]
    | quantifier _ _ _ element =>
      rw [hasBackreference]
      exact (h element (by simp [children])).references
    | edge _ | backreference _ | character _ | range _ _ | shorthand _ | charClass _ _ _
    | classExpression _ _ | classOperation _ _ _ | strings _ | string _ => cases hopen
  · intro m set hm hset
    rcases hasPart_iff.1 hm with rfl | ⟨c, hc, hcm⟩
    · cases m with
      | choice _ _ | look _ _ _ | alternative _ | quantifier _ _ _ _ => cases hset
      | edge _ | backreference _ | character _ | range _ _ | shorthand _ | charClass _ _ _
      | classExpression _ _ | classOperation _ _ _ | strings _ | string _ => cases hopen
    · exact (h c hc).sets m set hcm hset

theorem Plain.withChild {parent : Node} (hparent : parent.Plain flags)
    (hopen : parent.isOpen = true) (hm : m.Plain flags) (slot : Nat) :
    (parent.withChild slot m).Plain flags := by
  have hset {ns : List Node} (h : ∀ e ∈ ns, e.Plain flags) : ∀ e ∈ ns.set slot m, e.Plain flags := by
    intro e he
    rcases List.mem_or_eq_of_mem_set he with he | rfl
    · exact h e he
    · exact hm
  cases parent with
  | choice _ _ => exact plain_of_children rfl (hset hparent.choice)
  | look _ _ _ => exact plain_of_children hopen (hset hparent.look)
  | alternative _ => exact plain_of_children rfl (hset hparent.alternative)
  | quantifier _ _ _ _ => exact plain_of_children rfl (by simpa [Node.withChild, children] using hm)
  | edge _ | backreference _ | character _ | range _ _ | shorthand _ | charClass _ _ _
  | classExpression _ _ | classOperation _ _ _ | strings _ | string _ => cases hopen

variable {refs : Path → GroupRef → First} {d : Direction}

theorem firsts_set (hfirst : ∀ path, m.first refs flags d path = n.first refs flags d path)
    (h : ns[slot]? = some n) (path : Path) (start : Nat) :
    firsts refs flags d path start (ns.set slot m) = firsts refs flags d path start ns := by
  induction ns generalizing slot start with
  | nil => rfl
  | cons e ns ih =>
    cases slot with
    | zero =>
      cases h
      rw [List.set_cons_zero, firsts, firsts, hfirst]
    | succ slot => rw [List.set_cons_succ, firsts, firsts, ih h]

theorem firstRow_set (hfirst : ∀ path, m.first refs flags d path = n.first refs flags d path)
    (h : ns[slot]? = some n) (path : Path) (start : Nat) (before : First) :
    firstRow refs flags d path start (ns.set slot m) before
      = firstRow refs flags d path start ns before := by
  induction ns generalizing slot start before with
  | nil => rfl
  | cons e ns ih =>
    cases slot with
    | zero =>
      cases h
      cases d with
      | forward => rw [List.set_cons_zero, firstRow, firstRow, hfirst]
      | backward => rw [List.set_cons_zero, firstRow, firstRow, hfirst]
    | succ slot =>
      cases d with
      | forward => rw [List.set_cons_succ, firstRow, firstRow, ih h]
      | backward => rw [List.set_cons_succ, firstRow, firstRow, ih h]

/-- What a node consumes first depends on what its children do. -/
theorem first_withChild {parent : Node} (hopen : parent.isOpen = true)
    (h : parent.children[slot]? = some n)
    (hfirst : ∀ path, m.first refs flags d path = n.first refs flags d path) (path : Path) :
    (parent.withChild slot m).first refs flags d path = parent.first refs flags d path := by
  cases parent with
  | choice _ alternatives =>
    have h : alternatives[slot]? = some n := h
    rw [withChild, first, first, firsts_set hfirst h]
  | alternative elements =>
    have h : elements[slot]? = some n := h
    rw [withChild, first, first, firstRow_set hfirst h]
  | look _ negate alternatives =>
    have hslot : alternatives[slot]? = some n := h
    rw [isOpen, Bool.not_eq_true'] at hopen
    subst hopen
    rw [withChild, first, first, firsts_set hfirst hslot]
    rfl
  | quantifier _ _ _ element =>
    have hn : n = element := List.mem_singleton.1 (List.mem_of_getElem? h)
    rw [withChild, first, first, hfirst, hn]
  | edge _ | backreference _ | character _ | range _ _ | shorthand _ | charClass _ _ _
  | classExpression _ _ | classOperation _ _ _ | strings _ | string _ => cases hopen

end

/-! ## Standing in -/

variable [Properties]

/-- The node `m` may stand in for `n` at the end of a trail: it matches at least as much, and where
the characters around are as they were found for `n`, it matches no more. Against the direction `d`
both are analysed alike. -/
structure StandsIn (around : Direction → Look) (refs : Direction → Path → GroupRef → First) (flags : Flags)
    (x : Input) (d : Direction) (trail : List Step) (n m : Node) : Prop where
  plain : m.Plain flags
  first : ∀ path, m.first (refs d.reverse) flags d.reverse path
    = n.first (refs d.reverse) flags d.reverse path
  weaker : ∀ i j, n.spans flags x i j → m.spans flags x i j
  lift : ∀ a b, (m.spans flags x).toward d a b →
    (afterAround (around d) (refs d) flags d trail n).Holds x d b →
    (afterAround (around d.reverse) (refs d.reverse) flags d.reverse trail n).Holds x d.reverse a →
    (n.spans flags x).toward d a b

section
variable {around : Direction → Look} {refs : Direction → Path → GroupRef → First} {flags : Flags} {x : Input}
  {d : Direction} {s : Step} {up : List Step} {n m : Node} {a b : Nat}

/-- Repetitions of `m` are turned into repetitions of `n` one by one, the last one first: so the
repetitions that follow are already those of `n`, and those before count as such because both are
analysed alike against the direction. -/
theorem StandsIn.lift_power {bounds : Bounds} {greedy : Bool} {lexeme : List Char} {element : Node}
    (h : StandsIn around refs flags x d (s :: up) n m) (hn : n.Plain flags)
    (hparent : s.parent = quantifier bounds greedy lexeme element)
    (hsorted : ∀ e, (afterAround (around e) (refs e) flags e up s.parent).Sorted)
    (hb : (afterAround (around d) (refs d) flags d up s.parent).Holds x d b)
    (ha : (afterAround (around d.reverse) (refs d.reverse) flags d.reverse up s.parent).Holds x d.reverse a)
    {count later k : Nat} (hmax : ∀ most, bounds.max = some most → count + later ≤ most)
    (hcount : ((m.spans flags x).toward d).power count a k)
    (hlater : ((n.spans flags x).toward d).power later k b) :
    ((n.spans flags x).toward d).power count a k := by
  induction count generalizing later k with
  | zero => exact hcount
  | succ count ih =>
    rw [Span.power_add, Span.power_one] at hcount
    obtain ⟨l, hal, hlk⟩ := hcount
    have hafter : (afterAround (around d) (refs d) flags d (s :: up) n).Holds x d k := by
      refine holds_after_quantifier later hparent (describes_first _ n hn) (hsorted d)
        (fun most hmost => ?_) ?_ hb
      · have := hmax most hmost
        omega
      · rwa [Span.toward_power]
    have hbefore : (afterAround (around d.reverse) (refs d.reverse) flags d.reverse (s :: up) n).Holds x
        d.reverse l := by
      have hdescribes : First.Describes x d.reverse (m.spans flags x)
          (n.first (refs d.reverse) flags d.reverse ((up.map (·.slot)).reverse ++ [s.slot])) := by
        rw [← h.first]
        exact describes_first _ m h.plain
      refine holds_after_quantifier count hparent hdescribes (hsorted d.reverse)
        (fun most hmost => ?_) ?_ ha
      · have := hmax most hmost
        omega
      · rwa [Span.toward_reverse, Span.toward_power]
    have hlast := h.lift l k hlk hafter hbefore
    have hmore : ∀ most, bounds.max = some most → count + (later + 1) ≤ most := by
      intro most hmost
      have := hmax most hmost
      omega
    have hrest := ih hmore hal ⟨k, hlast, hlater⟩
    rw [Span.power_add, Span.power_one]
    exact ⟨l, hrest, hlast⟩

theorem toward_row {elements : List Node} {slot : Nat} (h : elements[slot]? = some n) (m : Node)
    (d : Direction) (a b : Nat) :
    (Span.row (spansAll flags x (elements.set slot m))).toward d a b ↔
      ∃ k l, (Span.row (spansAll flags x (d.reverse.beyond slot elements).2)).toward d.reverse k a ∧
        (m.spans flags x).toward d k l ∧
        (Span.row (spansAll flags x (d.beyond slot elements).2)).toward d l b := by
  rw [row_set h]
  cases d with
  | forward =>
    constructor
    · rintro ⟨k, hk, l, hl, hlb⟩
      exact ⟨k, l, hk, hl, hlb⟩
    · rintro ⟨k, l, hk, hl, hlb⟩
      exact ⟨k, hk, l, hl, hlb⟩
  | backward =>
    constructor
    · rintro ⟨k, hk, l, hl, hlb⟩
      exact ⟨l, k, hlb, hl, hk⟩
    · rintro ⟨k, l, hk, hl, hlb⟩
      exact ⟨l, hlb, k, hl, hk⟩

theorem toward_oneOf_set {ns : List Node} {slot : Nat}
    (h : (Span.oneOf (spansAll flags x (ns.set slot m))).toward d a b) :
    (m.spans flags x).toward d a b ∨ (Span.oneOf (spansAll flags x ns)).toward d a b := by
  cases d with
  | forward => exact oneOf_set h
  | backward => exact oneOf_set h

theorem seen_of_set {direction : Direction} {ns : List Node} {slot : Nat}
    (hslot : ns[slot]? = some n)
    (hlift : ∀ {i j}, m.spans flags x i j → a = direction.reverse.far i j → n.spans flags x i j)
    (h : (Span.oneOf (spansAll flags x (ns.set slot m))).seen direction a) :
    (Span.oneOf (spansAll flags x ns)).seen direction a := by
  have hmem := List.mem_of_getElem? hslot
  cases direction with
  | forward =>
    obtain ⟨j, hj⟩ := h
    rcases oneOf_set hj with hm | hold
    · exact ⟨j, mem_oneOf.2 ⟨n, hmem, hlift hm rfl⟩⟩
    · exact ⟨j, hold⟩
  | backward =>
    obtain ⟨k, hk⟩ := h
    rcases oneOf_set hk with hm | hold
    · exact ⟨k, mem_oneOf.2 ⟨n, hmem, hlift hm rfl⟩⟩
    · exact ⟨k, hold⟩

/-- The same, in the order of the text. -/
theorem StandsIn.lift_spans {trail : List Step} (h : StandsIn around refs flags x d trail n m)
    {i j : Nat} (hij : m.spans flags x i j)
    (hafter : ∀ e, (afterAround (around e) (refs e) flags e trail n).Holds x e (e.far i j)) :
    n.spans flags x i j := by
  cases d with
  | forward => exact h.lift i j hij (hafter .forward) (hafter .backward)
  | backward => exact h.lift j i hij (hafter .backward) (hafter .forward)

theorem StandsIn.lift_alternative {elements : List Node}
    (h : StandsIn around refs flags x d (s :: up) n m) (hkind : s.parent = alternative elements)
    (hslot : elements[s.slot]? = some n) (hplain : s.parent.Plain flags)
    (hsorted : ∀ e, (afterAround (around e) (refs e) flags e up s.parent).Sorted)
    (hab : ((s.parent.withChild s.slot m).spans flags x).toward d a b)
    (hb : (afterAround (around d) (refs d) flags d up s.parent).Holds x d b)
    (ha : (afterAround (around d.reverse) (refs d.reverse) flags d.reverse up s.parent).Holds x
      d.reverse a) :
    (s.parent.spans flags x).toward d a b := by
  rw [hkind] at hplain
  rw [hkind, withChild, spans, toward_row hslot] at hab
  obtain ⟨k, l, hak, hkl, hlb⟩ := hab
  have hafter := holds_after_alternative (n := n) hkind hplain.alternative (hsorted d) hlb hb
  have hbefore := holds_after_alternative (n := n) hkind hplain.alternative
    (hsorted d.reverse) hak ha
  have hset : elements = elements.set s.slot n := by
    rw [set_eq_append hslot, ← eq_append_of_getElem? hslot]
  rw [hkind, spans, hset, toward_row hslot]
  exact ⟨k, l, hak, h.lift k l hkl hafter hbefore, hlb⟩

theorem StandsIn.lift_choice {root : Node} {frame : Frame} {alternatives : List Node}
    (h : StandsIn around refs flags x d (s :: up) n m) (hkind : s.parent = choice frame alternatives)
    (hslot : alternatives[s.slot]? = some n) (hroot : root.IsPattern)
    (hleads : root.Leads up s.parent)
    (hab : ((s.parent.withChild s.slot m).spans flags x).toward d a b)
    (hb : (afterAround (around d) (refs d) flags d up s.parent).Holds x d b)
    (ha : (afterAround (around d.reverse) (refs d.reverse) flags d.reverse up s.parent).Holds x
      d.reverse a) :
    (s.parent.spans flags x).toward d a b := by
  have hafter (e : Direction) : afterAround (around e) (refs e) flags e (s :: up) n
      = afterAround (around e) (refs e) flags e up s.parent :=
    after_choice hroot hleads hkind
  rw [hkind, withChild, spans] at hab
  rw [hkind, spans]
  rcases toward_oneOf_set hab with hm | hold
  · have hlifted := h.lift a b hm (by rwa [hafter]) (by rwa [hafter])
    exact Span.toward_mono (fun i j hij => mem_oneOf.2 ⟨n, List.mem_of_getElem? hslot, hij⟩) d
      hlifted
  · exact hold

/-- A lookaround stands between what is before it and what is after it. -/
theorem StandsIn.lift_look {direction : Direction} {alternatives : List Node}
    (h : StandsIn around refs flags x d (s :: up) n m)
    (hkind : s.parent = look direction false alternatives)
    (hslot : alternatives[s.slot]? = some n)
    (hab : ((s.parent.withChild s.slot m).spans flags x).toward d a b)
    (hb : (afterAround (around d) (refs d) flags d up s.parent).Holds x d b)
    (ha : (afterAround (around d.reverse) (refs d.reverse) flags d.reverse up s.parent).Holds x
      d.reverse a) :
    (s.parent.spans flags x).toward d a b := by
  rw [hkind, withChild, spans, Span.toward_test] at hab
  obtain ⟨rfl, hseen⟩ := hab
  have houtside (e : Direction) :
      (afterAround (around e) (refs e) flags e up s.parent).Holds x e a := by
    by_cases he : e = d
    · rw [he]
      exact hb
    · rw [Direction.eq_reverse_of_ne he]
      exact ha
  have hlift {i j : Nat} (hij : m.spans flags x i j) (hnear : a = direction.reverse.far i j) :
      n.spans flags x i j := by
    refine h.lift_spans hij fun e => ?_
    rw [after_look hkind]
    split
    · exact First.holds_unknown
    · rename_i he
      rw [Direction.eq_reverse_of_ne (Ne.symm he), ← hnear]
      exact houtside _
  have hsees := seen_of_set hslot hlift (hseen.2 rfl)
  rw [hkind, spans, Span.toward_test]
  exact ⟨rfl, fun _ => rfl, fun _ => hsees⟩

/-- What may stand in for a child may do so in its parent. -/
theorem StandsIn.parent {root : Node} (h : StandsIn around refs flags x d (s :: up) n m)
    (hroot : root.IsPattern) (hplain : root.Plain flags) (haround : ∀ e, (around e).chars.Sorted)
    (hleads : root.Leads (s :: up) n) (hopen : ∀ t ∈ s :: up, t.parent.isOpen = true) :
    StandsIn around refs flags x d up s.parent (s.parent.withChild s.slot m) := by
  have hn := hplain.of_leads hleads hopen
  rw [List.forall_mem_cons] at hopen
  have hparent := hplain.of_leads hleads.2 hopen.2
  have hsorted (e : Direction) : (afterAround (around e) (refs e) flags e up s.parent).Sorted :=
    sorted_afterAround x (haround e) hplain hleads.2 hopen.2
  refine ⟨hparent.withChild hopen.1 h.plain s.slot, first_withChild hopen.1 hleads.1 h.first,
    fun i j => spans_withChild_of_weaker hopen.1 hleads.1 h.weaker, ?_⟩
  intro a b hab hb ha
  cases hkind : s.parent with
  | alternative elements =>
    have hslot : elements[s.slot]? = some n := by
      have := hleads.1
      rwa [hkind] at this
    rw [← hkind]
    exact h.lift_alternative hkind hslot hparent hsorted hab hb ha
  | quantifier bounds greedy lexeme element =>
    have helement : n = element := by
      have := hleads.1
      rw [hkind] at this
      exact List.mem_singleton.1 (List.mem_of_getElem? this)
    rw [hkind, withChild, spans, Span.toward_repeated] at hab
    obtain ⟨count, hmin, hmax, hpower⟩ := hab
    rw [spans, Span.toward_repeated, ← helement]
    have hlater : ((n.spans flags x).toward d).power 0 b b := rfl
    exact ⟨count, hmin, hmax, h.lift_power hn hkind hsorted hb ha hmax hpower hlater⟩
  | choice frame alternatives =>
    have hslot : alternatives[s.slot]? = some n := by
      have := hleads.1
      rwa [hkind] at this
    rw [← hkind]
    exact h.lift_choice hkind hslot hroot hleads.2 hab hb ha
  | look direction negate alternatives =>
    rw [hkind, isOpen, Bool.not_eq_true'] at hopen
    obtain rfl := hopen.1
    have hslot : alternatives[s.slot]? = some n := by
      have := hleads.1
      rwa [hkind] at this
    rw [← hkind]
    exact h.lift_look hkind hslot hab hb ha
  | edge _ | backreference _ | character _ | range _ _ | shorthand _ | charClass _ _ _
  | classExpression _ _ | classOperation _ _ _ | strings _ | string _ =>
    rw [hkind] at hopen
    cases hopen.1

/-- Going up step by step, what may stand in for a node may do so in the whole pattern. -/
theorem StandsIn.rebuild {root : Node} {trail : List Step}
    (h : StandsIn around refs flags x d trail n m) (hroot : root.IsPattern)
    (hplain : root.Plain flags) (haround : ∀ e, (around e).chars.Sorted) (hleads : root.Leads trail n)
    (hopen : ∀ s ∈ trail, s.parent.isOpen = true) :
    StandsIn around refs flags x d [] root (rebuild trail m) := by
  induction trail generalizing n m with
  | nil =>
    rw [Leads] at hleads
    rwa [← hleads]
  | cons s up ih =>
    have hparent := h.parent hroot hplain haround hleads hopen
    rw [List.forall_mem_cons] at hopen
    exact ih hparent hleads.2 hopen.2

/-- If the surroundings of a match are as assumed, the pattern with the other node matches there if
and only if the pattern does. -/
theorem StandsIn.spans_rebuild {root : Node} {trail : List Step}
    (h : StandsIn around refs flags x d trail n m) (hroot : root.IsPattern)
    (hplain : root.Plain flags) (haround : ∀ e, (around e).chars.Sorted) (hleads : root.Leads trail n)
    (hopen : ∀ s ∈ trail, s.parent.isOpen = true) {i j : Nat}
    (hholds : ∀ e : Direction, (around e).Holds x e (e.far i j)) :
    root.spans flags x i j ↔ (Node.rebuild trail m).spans flags x i j := by
  have hwhole := h.rebuild hroot hplain haround hleads hopen
  constructor
  · exact hwhole.weaker i j
  · intro hij
    exact hwhole.lift_spans hij fun e => Or.inr ⟨around e, rfl, hholds e⟩

end

end Node

/-- The tree without the node at a place: an element of a row is taken out, and any other node is
replaced by an empty row. -/
def Place.removed (p : Place) : Node :=
  match p.trail with
  | [] => .alternative []
  | s :: up =>
    match s.parent with
    | .alternative elements => .rebuild up (.alternative (elements.eraseIdx s.slot))
    | parent => .rebuild up (parent.withChild s.slot (.alternative []))

/-- Taking a node out is the same as putting one in its place that always matches nothing. -/
theorem Place.spans_removed [Properties]
    {root : Node} {p : Place} (hleads : root.Leads p.trail p.node)
    {flags : Flags} {x : Input} {m : Node} (hm : m.spans flags x = Span.empty) :
    p.removed.spans flags x = (Node.rebuild p.trail m).spans flags x := by
  have hempty : (Node.alternative []).spans flags x = m.spans flags x := by
    rw [hm, Node.spans]
    rfl
  unfold removed
  cases htrail : p.trail with
  | nil => exact hempty
  | cons s up =>
    rw [htrail] at hleads
    simp only
    split
    · rename_i elements hparent
      apply Node.spans_rebuild_congr
      have hslot : elements[s.slot]? = some p.node := by
        have := hleads.1
        rwa [hparent] at this
      rw [hparent, Node.withChild, Node.spans, Node.spans, Node.row_set hslot, hm,
        Span.empty_andThen, List.eraseIdx_eq_take_drop_succ, Node.spansAll_append, Span.row_append]
    · exact Node.spans_rebuild_congr up (Node.spans_withChild_congr _ _ hempty)

end RegexAudit
