import RegexAudit.CharSet.KnownProperties
import RegexAudit.Proofs.Coverage
import RegexAudit.Proofs.EqualTexts
import RegexAudit.Proofs.Partners
import RegexAudit.Proofs.SetAlgebra

/-!
# Repeated characters

Coverage is cautious in general, but not where one character is repeated: `X{a,b}` is found to cover
`Y{c,d}` exactly if

    every character of Y is one of X,  a ≤ c  and  d ≤ b.

That an answer `true` is right is soundness, read at texts of one letter of `Y` again and again. That
the answer is not `false` for want of steps is counted here. Each forced repetition on both sides
takes two steps (`loop_plain`), each one that meets an optional one takes four (`loop_optional`), and
what is left then is decided in three (`loop_end`). So up to 1024 forced repetitions stay far below
the budget, and comparisons never stand in one another by more than three levels.
-/

namespace RegexAudit

/-! ## Forms -/

namespace Form

/-- The row that a repeated character is written out to. -/
def copies (set : CharSet) (bounds : Bounds) : List Form :=
  List.replicate bounds.min (chars set)
    ++ Cover.consOptional (chars set) (bounds.max.map (· - bounds.min)) []

theorem rest_eq (bounds : Bounds) (f : Form) :
    rest bounds f = Cover.consOptional f (bounds.max.map (· - bounds.min)) [] := by
  have hfixed : bounds.isFixed = (bounds.max.map (· - bounds.min) == some 0) := by
    unfold Bounds.isFixed
    cases hmax : bounds.max with
    | none => rfl
    | some m =>
      have hle := bounds.ordered m hmax
      rw [Bool.eq_iff_iff, beq_iff_eq, beq_iff_eq, Option.map_some, Option.some.injEq,
        Option.some.injEq]
      omega
  unfold rest Cover.consOptional
  rw [hfixed]

/-- What such a row is made of. -/
inductive PartOf (set : CharSet) : Form → Prop
  | chars : PartOf set (chars set)
  | optional (max : Option Nat) : PartOf set (optional (chars set) max)

theorem PartOf.isSeq {set : CharSet} {f : Form} (h : PartOf set f) : f.isSeq = false := by
  cases h <;> rfl

theorem partOf_copies (set : CharSet) (bounds : Bounds) : ∀ f ∈ copies set bounds, PartOf set f := by
  intro f hf
  rcases List.mem_append.1 hf with hf | hf
  · rw [List.eq_of_mem_replicate hf]
    exact .chars
  · unfold Cover.consOptional at hf
    split at hf
    · cases hf
    · rw [List.mem_singleton.1 hf]
      exact .optional _

theorem row_cases {set : CharSet} {fs : List Form} (h : ∀ f ∈ fs, PartOf set f) :
    row fs = seq fs ∨ fs = [chars set] ∨ ∃ max, fs = [optional (chars set) max] := by
  rcases fs with _ | ⟨f, _ | ⟨g, fs⟩⟩
  · exact .inl rfl
  · cases h f List.mem_cons_self with
    | chars => exact .inr (.inl rfl)
    | optional max => exact .inr (.inr ⟨max, rfl⟩)
  · exact .inl rfl

theorem ofNode_character [Properties]
    {flags : Flags} {n : Node} {set : CharSet} (hn : n.isCharacter = true)
    (hset : n.charSet? flags = some set) : ofNode flags n = chars set := by
  cases n with
  | character _ | range _ _ | shorthand _ | charClass _ _ _ | classExpression _ _
  | classOperation _ _ _ =>
    simp only [ofNode, Node.isCharacter, Node.category, beq_self_eq_true, if_true]
    rw [hset]
  | choice _ _ | look _ _ _ | alternative _ | quantifier _ _ _ _ | edge _ | backreference _
  | strings _ | string _ => cases hn

end Form

namespace Node

/-- A repeated element, which may stand alone in groups. -/
inductive Repeats (element : Node) (bounds : Bounds) : Node → Prop
  | quantifier (greedy : Bool) (lexeme : List Char) :
    Repeats element bounds (.quantifier bounds greedy lexeme element)
  | alternative {n : Node} : Repeats element bounds n → Repeats element bounds (.alternative [n])
  | choice {n : Node} (frame : Frame) :
    Repeats element bounds n → Repeats element bounds (.choice frame [n])

variable {flags : Flags} {x : Input} {n m element : Node} {bounds : Bounds} {set : CharSet}

theorem Repeats.isCharacter (h : element.Repeats bounds n) : n.isCharacter = false := by
  cases h <;> rfl

/-- Outside of classes there are the groups, the quantifier and its element. -/
theorem Repeats.of_hasTerm (h : element.Repeats bounds n) (helement : element.isCharacter = true)
    (hm : n.HasTerm m) : element.Repeats bounds m ∨ m = element := by
  induction h with
  | quantifier greedy lexeme =>
    rcases hasTerm_iff.1 hm with rfl | ⟨-, c, hc, hcm⟩
    · exact .inl (.quantifier greedy lexeme)
    · rw [List.mem_singleton.1 hc] at hcm
      rcases hasTerm_iff.1 hcm with rfl | ⟨hno, -⟩
      · exact .inr rfl
      · rw [helement] at hno
        cases hno
  | alternative h ih =>
    rcases hasTerm_iff.1 hm with rfl | ⟨-, c, hc, hcm⟩
    · exact .inl (.alternative h)
    · rw [List.mem_singleton.1 hc] at hcm
      exact ih hcm
  | choice frame h ih =>
    rcases hasTerm_iff.1 hm with rfl | ⟨-, c, hc, hcm⟩
    · exact .inl (.choice frame h)
    · rw [List.mem_singleton.1 hc] at hcm
      exact ih hcm

/-- The only character is the element. -/
theorem Repeats.eq_of_isCharacter (h : element.Repeats bounds n)
    (helement : element.isCharacter = true) (hm : n.HasTerm m) (hcharacter : m.isCharacter = true) :
    m = element := by
  rcases h.of_hasTerm helement hm with hm | hm
  · rw [hm.isCharacter] at hcharacter
    cases hcharacter
  · exact hm

variable [Properties]

theorem Repeats.spans_eq (h : element.Repeats bounds n) :
    n.spans flags x = .repeated bounds.min bounds.max (element.spans flags x) := by
  induction h with
  | quantifier => rw [spans]
  | alternative _ ih => rw [spans, spansAll, spansAll, Span.row_singleton, ih]
  | choice _ _ ih => rw [spans, spansAll, spansAll, Span.oneOf_singleton, ih]

theorem Repeats.ofNode_eq (h : element.Repeats bounds n) (helement : element.isCharacter = true)
    (hset : element.charSet? flags = some set) (hmax : bounds.max ≠ some 0)
    (hmin : bounds.min ≤ Form.unrollLimit) :
    Form.ofNode flags n = Form.row (Form.copies set bounds) := by
  have hitems : (Form.row (Form.copies set bounds)).items = Form.copies set bounds :=
    Form.items_row fun f hf => (Form.partOf_copies set bounds f hf).isSeq
  induction h with
  | quantifier greedy lexeme =>
    rw [Form.ofNode, Form.ofNode_character helement hset]
    have hfits : ¬ Form.unrollLimit < bounds.min := Nat.not_lt.2 hmin
    have hitem : (Form.chars set).items = [Form.chars set] := rfl
    simp only [beq_false_of_ne hmax, hitem, List.length_singleton, Nat.mul_one, hfits,
      decide_false, Bool.or_false, Bool.false_eq_true, if_false]
    rw [Form.repeated, Form.rest_eq, hitem, List.flatten_replicate_singleton, Form.copies]
  | alternative _ ih =>
    rw [Form.ofNode, Form.itemsOf, Form.itemsOf, ih, hitems, List.append_nil]
  | choice _ _ ih =>
    rw [Form.ofNode, Form.ofNodes, Form.ofNodes, ih]
    rfl

end Node

/-! ## What is matched -/

namespace Span

variable {x : Input} {s t : CharSet} {i j k : Nat}

/-- Characters of a set, again and again. -/
theorem power_oneIn (h : (x.oneIn s).power k i j) :
    j = i + k ∧ ∀ l, i ≤ l → l < j → ∃ c ∈ s, x.text[l]? = some c := by
  induction k generalizing i with
  | zero =>
    have hij : i = j := h
    refine ⟨hij.symm, fun l hil hlj => ?_⟩
    omega
  | succ k ih =>
    obtain ⟨_, ⟨rfl, hfirst⟩, hrest⟩ := h
    obtain ⟨rfl, hall⟩ := ih hrest
    refine ⟨by omega, fun l hil hlj => ?_⟩
    by_cases hl : l = i
    · rw [hl]
      exact hfirst
    · exact hall l (by omega) hlj

theorem power_oneIn_replicate {c : Char} (hc : c ∈ t) {n : Nat} (h : i + k ≤ n) :
    ((Input.ofText (List.replicate n c)).oneIn t).power k i (i + k) := by
  induction k generalizing i with
  | zero => rfl
  | succ k ih =>
    have hletter : (Input.ofText (List.replicate n c)).text[i]? = some c := by
      show (List.replicate n c)[i]? = some c
      rw [List.getElem?_replicate, if_pos (by omega)]
    have hrest := ih (i := i + 1) (by omega)
    rw [Nat.add_right_comm] at hrest
    exact ⟨i + 1, ⟨rfl, c, hc, hletter⟩, hrest⟩

/-- What a text of one letter tells about two repeated sets. -/
theorem bounds_of_repeated {b d : Bounds} {c : Char} (hc : c ∈ t) (hmin : d.min ≤ k)
    (hmax : ∀ m, d.max = some m → k ≤ m)
    (h : ∀ (x : Input) i j, repeated d.min d.max (x.oneIn t) i j →
      repeated b.min b.max (x.oneIn s) i j) :
    b.min ≤ k ∧ (∀ m, b.max = some m → k ≤ m) ∧ (0 < k → c ∈ s) := by
  have hright := power_oneIn_replicate (i := 0) hc (Nat.le_of_eq (Nat.zero_add k))
  obtain ⟨n, hbmin, hbmax, hleft⟩ := h _ 0 _ ⟨k, hmin, hmax, hright⟩
  obtain ⟨hn, hall⟩ := power_oneIn hleft
  have hnk : n = k := by omega
  subst hnk
  refine ⟨hbmin, hbmax, fun hk => ?_⟩
  obtain ⟨c', hc', hletter⟩ := hall 0 (Nat.le_refl 0) (by omega)
  have htext : (List.replicate n c)[0]? = some c' := hletter
  rw [List.getElem?_replicate, if_pos hk] at htext
  rw [Option.some.inj htext]
  exact hc'

end Span

/-- If everything that one repeated set matches is matched by another one, then so are its members
and its numbers of repetitions. -/
theorem subset_of_repeated {s t : CharSet} {b d : Bounds} (hne : ∃ c, c ∈ t) (hd : d.max ≠ some 0)
    (h : ∀ (x : Input) i j, Span.repeated d.min d.max (x.oneIn t) i j →
      Span.repeated b.min b.max (x.oneIn s) i j) :
    (∀ c, c ∈ t → c ∈ s) ∧ b.min ≤ d.min ∧
      ∀ m, b.max = some m → ∃ n, d.max = some n ∧ n ≤ m := by
  obtain ⟨c, hc⟩ := hne
  refine ⟨fun c hc => ?_, ?_, ?_⟩
  · -- a text of one repetition more than none
    refine (Span.bounds_of_repeated (k := max d.min 1) hc (Nat.le_max_left ..) ?_ h).2.2 (by omega)
    intro m hm
    have hle := d.ordered m hm
    have hpos : m ≠ 0 := fun h0 => hd (h0 ▸ hm)
    omega
  · exact (Span.bounds_of_repeated hc (Nat.le_refl _) d.ordered h).1
  · intro m hb
    cases hdmax : d.max with
    | none =>
      -- no greatest number on the right: one repetition more than the left side can take
      have hlarge := (Span.bounds_of_repeated (k := max d.min (m + 1)) hc (Nat.le_max_left ..)
        (fun _ hm => by rw [hdmax] at hm; cases hm) h).2.1 m hb
      omega
    | some n =>
      have hle := (Span.bounds_of_repeated (k := n) hc (d.ordered n hdmax)
        (fun m hm => by rw [hdmax] at hm; cases hm; exact Nat.le_refl _) h).2.1 m hb
      exact ⟨n, rfl, hle⟩

/-! ## Steps of the search -/

namespace Cover

variable {equal : Node → Node → Bool} {forms : List Node → List Form} {s t : CharSet}
  {left right : List Form} {depth rounds fuel : Nat}

/-- A part in front of a row stays as it is. -/
theorem exposedRow_cons {f : Form} (hf : f.PartOf s) : exposedRow (f :: left) = f :: left := by
  cases hf <;> simp [exposedRow, exposed]

theorem consOptional_eq {m : Option Nat} (hm : m ≠ some 0) :
    consOptional (.chars s) m left = .optional (.chars s) m :: left := by
  rw [consOptional, beq_false_of_ne hm]
  rfl

theorem consOptional_zero : consOptional (.chars s) (some 0) left = left := rfl

theorem loop_succ {inner : Inner} (h : 1 < fuel) : loop inner false (rounds + 1) left right fuel
    = byHeads inner (loop inner false rounds) false (exposedRow left) (exposedRow right)
      (fuel - 1) := by
  rw [loop, tick, if_pos h]
  rfl

theorem node_chars (hsub : t.isSubset s = true) {loose : Bool} (h : 1 < fuel) :
    (within equal forms (depth + 1)).node (.chars s) (.chars t) loose fuel = (true, fuel - 1) := by
  show tick (byForm equal forms (within equal forms depth) (.chars s) (.chars t) loose) fuel = _
  rw [tick, if_pos h, ← hsub]
  rfl

/-- Characters in front of both rows. -/
theorem loop_plain (hsub : t.isSubset s = true) (h : 2 < fuel) :
    loop (within equal forms (depth + 1)) false (rounds + 1) (.chars s :: left) (.chars t :: right)
        fuel
      = loop (within equal forms (depth + 1)) false rounds left right (fuel - 2) := by
  rw [loop_succ (by omega), exposedRow_cons .chars, exposedRow_cons .chars]
  show andThen ((within equal forms (depth + 1)).node (.chars s) (.chars t) false) _ (fuel - 1) = _
  rw [andThen, node_chars hsub (by omega)]
  rfl

theorem loop_replicate (hsub : t.isSubset s = true) (count : Nat) (h : 2 * count < fuel) :
    loop (within equal forms (depth + 1)) false (rounds + count)
        (List.replicate count (.chars s) ++ left) (List.replicate count (.chars t) ++ right) fuel
      = loop (within equal forms (depth + 1)) false rounds left right (fuel - 2 * count) := by
  induction count generalizing fuel with
  | zero => rfl
  | succ count ih =>
    rw [List.replicate_succ, List.replicate_succ, List.cons_append, List.cons_append,
      ← Nat.add_assoc, loop_plain hsub (by omega), ih (by omega)]
    congr 1
    omega

/-- Nothing is left on the left side, and something that cannot be left out on the right side. -/
theorem rows_nil (h : 1 < fuel) :
    (within equal forms (depth + 1)).rows [] (.chars t :: right) false fuel = (false, fuel - 1) := by
  show loop (within equal forms depth) false fuel [] (.chars t :: right) fuel = _
  obtain ⟨rounds, hrounds⟩ : ∃ rounds, fuel = rounds + 1 := ⟨fuel - 1, by omega⟩
  conv_lhs => arg 3; rw [hrounds]
  rw [loop_succ h, exposedRow_cons .chars]
  rfl

/-- Where an optional character cannot be left out, it is taken. -/
theorem byHeads_optional {inner : Inner} {next : List Form → List Form → Search} {m : Option Nat}
    {loose : Bool} {spent : Nat}
    (hskip : inner.rows left (.chars t :: right) loose fuel = (false, spent)) :
    byHeads inner next loose (.optional (.chars s) m :: left) (.chars t :: right) fuel
      = next (.chars s :: consOptional (.chars s) (m.map (· - 1)) left) (.chars t :: right)
        spent := by
  unfold byHeads
  simp only [hskip, Form.canBeEmpty, Bool.false_eq_true, if_false]

/-- A character on the right side is covered by an optional one, which cannot be left out. -/
theorem loop_optional (hsub : t.isSubset s = true) {m : Option Nat} (hm : m ≠ some 0)
    (h : 4 < fuel) :
    loop (within equal forms (depth + 1)) false (rounds + 2) (consOptional (.chars s) m [])
        (.chars t :: right) fuel
      = loop (within equal forms (depth + 1)) false rounds
          (consOptional (.chars s) (m.map (· - 1)) []) right (fuel - 4) := by
  rw [consOptional_eq hm, loop_succ (by omega), exposedRow_cons (.optional m),
    exposedRow_cons .chars, byHeads_optional (rows_nil (by omega)), loop_plain hsub (by omega)]
  rfl

theorem loop_optionals (hsub : t.isSubset s = true) (count : Nat) {m : Option Nat}
    (hm : ∀ n, m = some n → count ≤ n) (h : 4 * count < fuel) :
    loop (within equal forms (depth + 1)) false (rounds + 2 * count) (consOptional (.chars s) m [])
        (List.replicate count (.chars t) ++ right) fuel
      = loop (within equal forms (depth + 1)) false rounds
          (consOptional (.chars s) (m.map (· - count)) []) right (fuel - 4 * count) := by
  induction count generalizing m fuel with
  | zero =>
    cases m <;> rfl
  | succ count ih =>
    have hpos : m ≠ some 0 := fun h0 => by
      have := hm 0 h0
      omega
    have hrest : ∀ n, m.map (· - 1) = some n → count ≤ n := by
      intro n hn
      obtain ⟨n', hn', rfl⟩ := Option.map_eq_some_iff.1 hn
      have := hm n' hn'
      omega
    have hmap : (m.map (· - 1)).map (· - count) = m.map (· - (count + 1)) := by
      cases m with
      | none => rfl
      | some n => simp only [Option.map_some, Option.some.injEq]; omega
    rw [List.replicate_succ, List.cons_append, Nat.mul_succ, ← Nat.add_assoc,
      loop_optional hsub hpos (by omega), ih hrest (by omega), hmap]
    congr 1
    omega

/-- What is optional covers nothing at all. -/
theorem loop_nil {inner : Inner} (m : Option Nat) (h : 1 < fuel) :
    (loop inner false (rounds + 1) (consOptional (.chars s) m []) [] fuel) = (true, fuel - 1) := by
  rw [loop_succ h]
  by_cases hm : m = some 0
  · rw [hm]
    rfl
  · rw [consOptional_eq hm, exposedRow_cons (.optional m)]
    rfl

/-- An optional end covers another one with no more repetitions. -/
theorem loop_end (hsub : t.isSubset s = true) {m n : Option Nat} (hmn : atLeast m n = true)
    (h : 3 < fuel) :
    (loop (within equal forms (depth + 1)) false (rounds + 1) (consOptional (.chars s) m [])
      (consOptional (.chars t) n []) fuel).1 = true := by
  by_cases hn : n = some 0
  · rw [hn, consOptional_zero, loop_nil m (by omega)]
  · have hm : m ≠ some 0 := by
      rintro rfl
      cases n with
      | none => cases hmn
      | some n => exact hn (congrArg some (Nat.le_zero.1 (of_decide_eq_true hmn)))
    have hnil : (within equal forms (depth + 1)).rows (consOptional (.chars s) (less m n) []) []
        false (fuel - 1 - 1) = (true, fuel - 1 - 1 - 1) := by
      show loop (within equal forms depth) false (fuel - 1 - 1) _ _ _ = _
      obtain ⟨rounds, hrounds⟩ : ∃ rounds, fuel - 1 - 1 = rounds + 1 := ⟨fuel - 3, by omega⟩
      conv_lhs => arg 3; rw [hrounds]
      exact loop_nil _ (by omega)
    rw [consOptional_eq hm, consOptional_eq hn, loop_succ (by omega),
      exposedRow_cons (.optional m), exposedRow_cons (.optional n)]
    show (optionalHeads (within equal forms (depth + 1)) (.chars s) m [] (.chars t) n [] false
      (fuel - 1)).1 = true
    rw [optionalHeads, orElse, andThen, node_chars hsub (by omega), if_pos hmn]
    simp only [hnil]

/-- A number of repetitions is at least another one if it is none, or both are and in order. -/
theorem atLeast_iff {m n : Option Nat} :
    atLeast m n = true ↔ ∀ k, m = some k → ∃ l, n = some l ∧ l ≤ k := by
  cases m with
  | none =>
    refine iff_of_true rfl fun k hk => ?_
    cases hk
  | some k =>
    cases n with
    | none =>
      refine iff_of_false Bool.false_ne_true fun h => ?_
      obtain ⟨l, hl, -⟩ := h k rfl
      cases hl
    | some l => simp [atLeast]

theorem loop_copies (hsub : t.isSubset s = true) {b d : Bounds} (hmin : b.min ≤ d.min)
    (hmax : atLeast b.max d.max = true) (h : 4 * d.min + 3 < fuel) :
    (loop (within equal forms (depth + 1)) false fuel (Form.copies s b) (Form.copies t d) fuel).1
      = true := by
  obtain ⟨e, he⟩ := Nat.exists_eq_add_of_le hmin
  obtain ⟨rounds, hrounds⟩ : ∃ rounds, fuel = rounds + 1 + 2 * e + b.min :=
    ⟨fuel - 1 - 2 * e - b.min, by omega⟩
  have hcopies : Form.copies t d = List.replicate b.min (.chars t) ++
      (List.replicate e (.chars t) ++
        consOptional (.chars t) (d.max.map (· - d.min)) []) := by
    rw [Form.copies, ← List.append_assoc, List.replicate_append_replicate, ← he]
  have hroom : ∀ n, b.max.map (· - b.min) = some n → e ≤ n := by
    intro n hn
    obtain ⟨m, hm, rfl⟩ := Option.map_eq_some_iff.1 hn
    obtain ⟨k, hk, hkm⟩ := atLeast_iff.1 hmax m hm
    have := d.ordered k hk
    omega
  conv_lhs => arg 1; arg 3; rw [hrounds]
  rw [hcopies, Form.copies, loop_replicate hsub b.min (by omega),
    loop_optionals hsub e hroom (by omega)]
  refine loop_end hsub ?_ (by omega)
  cases hb : b.max with
  | none => rfl
  | some m =>
    obtain ⟨k, hk, hkm⟩ := atLeast_iff.1 hmax m hb
    have hle : k - d.min ≤ m - b.min - e := by omega
    rw [hk]
    exact decide_eq_true hle

/-- Rows are compared as such, unless both are single characters. -/
theorem byForm_row {inner : Inner} {loose : Bool} (hleft : ∀ f ∈ left, f.PartOf s)
    (hright : ∀ f ∈ right, f.PartOf t) :
    byForm equal forms inner (.row left) (.row right) loose fuel = (t.isSubset s, fuel) ∨
      byForm equal forms inner (.row left) (.row right) loose fuel
        = inner.rows left right loose fuel := by
  rcases Form.row_cases hright with hr | rfl | ⟨n, rfl⟩
  · rcases Form.row_cases hleft with hl | rfl | ⟨m, rfl⟩
    · rw [hl, hr]
      exact .inr rfl
    · rw [hr]
      exact .inr rfl
    · rw [hr]
      exact .inr rfl
  · rcases Form.row_cases hleft with hl | rfl | ⟨m, rfl⟩
    · rw [hl]
      exact .inr rfl
    · exact .inl rfl
    · exact .inr rfl
  · rcases Form.row_cases hleft with hl | rfl | ⟨m, rfl⟩
    · rw [hl]
      exact .inr rfl
    · exact .inr rfl
    · exact .inr rfl

/-- Where the bounds allow it, the search says so before its steps run out. -/
theorem node_copies (hsub : t.isSubset s = true) {b d : Bounds} (hmin : b.min ≤ d.min)
    (hmax : atLeast b.max d.max = true) (h : 4 * d.min + 4 < fuel) :
    ((within equal forms (depth + 3)).node (.row (Form.copies s b)) (.row (Form.copies t d)) false
      fuel).1 = true := by
  show (tick (byForm equal forms (within equal forms (depth + 2)) _ _ false) fuel).1 = true
  rw [tick, if_pos (by omega)]
  have hrow := @byForm_row equal forms s t _ _ (fuel - 1) (within equal forms (depth + 2)) false
    (Form.partOf_copies s b) (Form.partOf_copies t d)
  rcases hrow with hsets | hrows
  · rw [hsets]
    exact hsub
  · rw [hrows]
    show (loop (within equal forms (depth + 1)) false (fuel - 1) _ _ (fuel - 1)).1 = true
    exact loop_copies hsub hmin hmax (by omega)

end Cover

/-! ## The check -/

namespace Coverage

section
variable [Properties]
variable {source₁ source₂ : List Char} {written flags : Flags} {r₁ r₂ : Regex} {X Y : Node}
  {b d : Bounds} {s t : CharSet}

/-- Where letters that are told equal by upper case have the same set, equal parts of two repeated
characters match the same. -/
theorem spans_of_equal (h₁ : Regex.parse source₁ written = .ok r₁)
    (h₂ : Regex.parse source₂ written = .ok r₂) {left right : Node}
    (hpart₁ : r₁.root.HasPart left) (hpart₂ : r₂.root.HasPart right)
    (hleft : X.Repeats b left) (hright : Y.Repeats d right) (hX : X.isCharacter = true)
    (hY : Y.isCharacter = true) (hs : X.charSet? flags = some s) (ht : Y.charSet? flags = some t)
    (hcases : flags.ignoreCase = true → flags.unicodeMode = false → ∀ y z : Letter,
      X = .character y → Y = .character z →
      Unicode.upper (Char.ofNat y.value) = Unicode.upper (Char.ofNat z.value) →
      ∀ c, c ∈ s ↔ c ∈ t)
    (resolve? : Option (GroupRef → Option Nat)) (x : Input) :
    ∀ n m, left.HasTerm n → right.HasTerm m → Comparison.equal { flags, resolve? } n m = true →
      n.spans flags x = m.spans flags x := by
  have hfaithful : Comparison.Faithful { flags, resolve? } x left.HasTerm right.HasTerm := {
    hook := fun _ _ => rfl
    left := Node.hereditary_hasTerm left
    right := Node.hereditary_hasTerm right
    texts := by
      rintro n m hn hm (hbyText | ⟨hcharacter, hnone⟩) htext
      · cases hbyText
      · simp only [Comparison.sameText, Bool.and_eq_true, beq_iff_eq] at htext
        have hm' := Node.isCharacter_of_kind htext.1.1 hcharacter
        rw [hleft.eq_of_isCharacter hX hn hcharacter, hs,
          hright.eq_of_isCharacter hY hm hm', ht] at hnone
        rcases hnone with hnone | hnone <;> cases hnone
    letters := by
      intro y z hy hz hsame
      have hXy := hleft.eq_of_isCharacter hX hy rfl
      have hYz := hright.eq_of_isCharacter hY hz rfl
      rcases Node.sameLetters?_eq_some_true.1 hsame with hvalue | ⟨hcase, hmode, -, -, hupper⟩
      · exact Node.spans_of_value hvalue flags x
      · exact Node.spans_of_mem_iff rfl rfl (hXy ▸ hs) (hYz ▸ ht)
          (hcases hcase hmode y z hXy.symm hYz.symm hupper)
    references := by
      intro y _ hy
      rcases hleft.of_hasTerm hX hy with hy | hy
      · cases hy
      · rw [← hy] at hX
        cases hX }
  intro n m hn hm hequal
  have hparts₁ : left.Throughout r₁.root.HasPart := Node.throughout_of_hasPart (fun _ => id) hpart₁
  have hparts₂ : right.Throughout r₂.root.HasPart := Node.throughout_of_hasPart (fun _ => id) hpart₂
  rw [Comparison.equal_eq_same_of_hasPart h₁ h₂ (hparts₁ n hn.hasPart) (hparts₂ m hm.hasPart)
    (fun _ _ => ⟨rfl, rfl⟩)] at hequal
  exact Comparison.spans_of_same hfaithful n m hn hm hequal

/-- For two patterns, or parts of them, that repeat one character each, up to 1024 times by force:
the left one is found to cover the right one exactly if the characters of the right one are among
those of the left one and so are the numbers of repetitions. -/
theorem covers_repeated_iff (h₁ : Regex.parse source₁ written = .ok r₁)
    (h₂ : Regex.parse source₂ written = .ok r₂) {p₁ p₂ : Place} (hp₁ : p₁ ∈ r₁.walk)
    (hp₂ : p₂ ∈ r₂.walk) (hleft : X.Repeats b p₁.node) (hright : Y.Repeats d p₂.node)
    (hX : X.isCharacter = true) (hY : Y.isCharacter = true) (hs : X.charSet? flags = some s)
    (ht : Y.charSet? flags = some t) (hsorted : s.Sorted) (htsorted : t.Sorted)
    (hcases : flags.ignoreCase = true → flags.unicodeMode = false → ∀ y z : Letter,
      X = .character y → Y = .character z →
      Unicode.upper (Char.ofNat y.value) = Unicode.upper (Char.ofNat z.value) →
      ∀ c, c ∈ s ↔ c ∈ t)
    (hne : ∃ c, c ∈ t) (hbmin : b.min ≤ 1024) (hdmin : d.min ≤ 1024) (hbmax : b.max ≠ some 0)
    (hdmax : d.max ≠ some 0) (resolve? : Option (GroupRef → Option Nat)) :
    covers { flags, resolve? } p₁.node p₂.node = true ↔
      (∀ c, c ∈ t → c ∈ s) ∧ b.min ≤ d.min ∧
        ∀ m, b.max = some m → ∃ n, d.max = some n ∧ n ≤ m := by
  constructor
  · intro hcovers
    refine subset_of_repeated hne hdmax fun x i j hij => ?_
    have hequal := spans_of_equal h₁ h₂ (Node.hasPart_of_mem_walk hp₁)
      (Node.hasPart_of_mem_walk hp₂) hleft hright hX hY hs ht hcases resolve? x
    have hcovered := Span.covered_iff.1
      (covered_of_covers (c := { flags, resolve? }) hequal hcovers) i j
    rw [hleft.spans_eq, hright.spans_eq, Node.spans_of_isCharacter hX,
      Node.spans_of_isCharacter hY, Input.character, Input.character, hs, ht] at hcovered
    exact hcovered hij
  · rintro ⟨hsubset, hmin, hmax⟩
    have hsub : t.isSubset s = true := (CharSet.isSubset_iff htsorted hsorted).2 hsubset
    unfold covers
    rw [hleft.ofNode_eq hX hs hbmax hbmin, hright.ofNode_eq hY ht hdmax hdmin, Bool.or_eq_true]
    right
    have hbudget : 4 * d.min + 4 < Cover.stepBudget :=
      calc 4 * d.min + 4 ≤ 4 * 1024 + 4 := by omega
        _ < Cover.stepBudget := by decide
    have hdepth : Cover.depthLimit = 125 + 3 := rfl
    rw [hdepth]
    exact Cover.node_copies hsub hmin (Cover.atLeast_iff.2 hmax) hbudget

end

open Node in
/-- `[ab]+` covers `a{2,3}`. -/
theorem covers_repeated_class :
    let letter : Node := character ⟨97, ['a']⟩
    let letters : Node := charClass false false [letter, character ⟨98, ['b']⟩]
    let left : Node := choice .whole [alternative [quantifier ⟨1, none, nofun⟩ true ['+'] letters]]
    let right : Node := choice .whole [alternative [quantifier
      ⟨2, some 3, fun _ h => by cases h; decide⟩ true ['\x7b', '2', ',', '3', '\x7d'] letter]]
    Regex.parse left.text {} = .ok ⟨left.text, {}, left⟩ ∧
      Regex.parse right.text {} = .ok ⟨right.text, {}, right⟩ ∧
      covers { flags := {} } left right = true := by
  intro letter letters left right
  have h₁ : Regex.parse left.text {} = .ok ⟨left.text, {}, left⟩ := rfl
  have h₂ : Regex.parse right.text {} = .ok ⟨right.text, {}, right⟩ := rfl
  refine ⟨h₁, h₂, ?_⟩
  have hroot (n : Node) : (⟨n, 0, 0, []⟩ : Place) ∈ n.walk := Place.mem_below_iff.2 (.inl rfl)
  let s : CharSet := ⟨[⟨'a', 'b', by decide⟩], false⟩
  let t : CharSet := ⟨[⟨'a', 'a', by decide⟩], false⟩
  have hs : letters.charSet? {} = some s := rfl
  have ht : letter.charSet? {} = some t := rfl
  have hsub : t.isSubset s = true := by decide +kernel
  have ha : 'a' ∈ t := ⟨_, List.mem_singleton_self _, Range.lo_mem _⟩
  refine (covers_repeated_iff h₁ h₂ (hroot left) (hroot right)
    (.choice _ (.alternative (.quantifier true _))) (.choice _ (.alternative (.quantifier true _)))
    rfl rfl hs ht (List.pairwise_singleton ..) (List.pairwise_singleton ..) nofun ⟨'a', ha⟩
    (by decide) (by decide) nofun nofun none).2 ?_
  exact ⟨fun _ => CharSet.mem_of_isSubset hsub, by decide, nofun⟩

end Coverage

end RegexAudit
