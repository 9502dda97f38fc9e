import RegexAudit.CharSet.KnownProperties
import RegexAudit.Proofs.ExactFirst
import RegexAudit.Proofs.Forms

/-!
# The shape of canonical forms

In the canonical form of a node of a parsed pattern no row stands directly in a row, no row has
exactly one part, and a choice has at least two (`Form.Regular`). The row of a form is not much longer
than the node has parts, however its repetition counts multiply:

    (Form.ofNode flags n).items.length ≤ (Form.unrollLimit + 1) * n.size       (length_items_ofNode)

And what cannot be empty never matches the empty text (`moves_spans`).

A row is flat because it is put together from the items of forms, and the items of a form are no rows
themselves. Once that is known, a quantifier is at most `unrollLimit` items and one optional part,
whatever it repeats, so that only rows of different nodes add up.
-/

namespace RegexAudit

namespace Form

/-! ## Parts -/

/-- The forms that a form is made of. The alternatives of a lookaround are nodes. -/
def parts : Form → List Form
  | seq items => items
  | choice alternatives => alternatives
  | optional element _ => [element]
  | other _ | chars _ | look .. => []

/-- The forms in a form, itself included. -/
inductive HasPart (f : Form) : Form → Prop
  | self : HasPart f f
  | part {g h : Form} : HasPart f g → h ∈ g.parts → HasPart f h

theorem hasPart_iff {f g : Form} : f.HasPart g ↔ g = f ∨ ∃ h ∈ f.parts, h.HasPart g := by
  constructor
  · intro h
    induction h with
    | self => exact .inl rfl
    | part hg hh ih =>
      rcases ih with rfl | ⟨e, he, heg⟩
      · exact .inr ⟨_, hh, .self⟩
      · exact .inr ⟨e, he, heg.part hh⟩
  · rintro (rfl | ⟨h, hh, hg⟩)
    · exact .self
    · induction hg with
      | self => exact .part .self hh
      | part _ hc ih => exact ih.part hc

/-- A row holds no rows and not just one part, and a choice has at least two alternatives. -/
structure Regular (f : Form) : Prop where
  flat : ∀ items, f = seq items → ∀ g ∈ items, g.isSeq = false
  row : ∀ items, f = seq items → items.length ≠ 1
  choice : ∀ alternatives, f = choice alternatives → 2 ≤ alternatives.length

/-- All forms in the form are regular. -/
def AllRegular (f : Form) : Prop := ∀ g, f.HasPart g → g.Regular

theorem allRegular_iff {f : Form} : f.AllRegular ↔ f.Regular ∧ ∀ g ∈ f.parts, g.AllRegular := by
  constructor
  · exact fun h => ⟨h f .self, fun g hg e he => h e (hasPart_iff.2 (.inr ⟨g, hg, he⟩))⟩
  · rintro ⟨hself, hparts⟩ g hg
    rcases hasPart_iff.1 hg with rfl | ⟨e, he, heg⟩
    · exact hself
    · exact hparts e he g heg

theorem allRegular_other (n : Node) : (other n).AllRegular :=
  allRegular_iff.2 ⟨⟨nofun, nofun, nofun⟩, nofun⟩

theorem allRegular_chars (set : CharSet) : (chars set).AllRegular :=
  allRegular_iff.2 ⟨⟨nofun, nofun, nofun⟩, nofun⟩

theorem allRegular_look (direction : Direction) (negate : Bool) (alternatives : List Node) :
    (look direction negate alternatives).AllRegular :=
  allRegular_iff.2 ⟨⟨nofun, nofun, nofun⟩, nofun⟩

theorem allRegular_optional {f : Form} (h : f.AllRegular) (max : Option Nat) :
    (optional f max).AllRegular :=
  allRegular_iff.2 ⟨⟨nofun, nofun, nofun⟩, List.forall_mem_singleton.2 h⟩

/-! ## Rows -/

/-- The items of a form are no rows. -/
theorem AllRegular.items {f : Form} (h : f.AllRegular) :
    ∀ g ∈ f.items, g.isSeq = false ∧ g.AllRegular := by
  cases hseq : f.isSeq with
  | false =>
    rw [items_of_not_isSeq hseq, List.forall_mem_singleton]
    exact ⟨hseq, h⟩
  | true =>
    cases f with
    | seq items =>
      obtain ⟨hself, hparts⟩ := allRegular_iff.1 h
      exact fun g hg => ⟨hself.flat items rfl g hg, hparts g hg⟩
    | _ => cases hseq

theorem allRegular_row {fs : List Form} (h : ∀ f ∈ fs, f.isSeq = false ∧ f.AllRegular) :
    (row fs).AllRegular := by
  have hseq (hlength : fs.length ≠ 1) : (seq fs).AllRegular := by
    refine allRegular_iff.2 ⟨⟨?_, ?_, nofun⟩, fun f hf => (h f hf).2⟩
    · rintro _ ⟨⟩ f hf
      exact (h f hf).1
    · rintro _ ⟨⟩
      exact hlength
  match fs with
  | [] => exact hseq nofun
  | [f] => exact (h f (List.mem_singleton_self f)).2
  | _ :: _ :: _ => exact hseq (by simp)

theorem allRegular_oneOf {fs : List Form} (hne : fs ≠ []) (h : ∀ f ∈ fs, f.AllRegular) :
    (oneOf fs).AllRegular := by
  match fs with
  | [f] => exact h f (List.mem_singleton_self f)
  | f :: g :: fs =>
    refine allRegular_iff.2 ⟨⟨nofun, nofun, ?_⟩, h⟩
    rintro _ ⟨⟩
    simp

theorem allRegular_repeated {f : Form} (h : f.AllRegular) (bounds : Bounds) :
    (repeated bounds.min (rest bounds f) f).AllRegular := by
  refine allRegular_row fun g hg => ?_
  rcases mem_repeated hg with hg | ⟨max, -, rfl⟩
  · exact h.items g hg
  · exact ⟨rfl, allRegular_optional h max⟩

section
variable (flags : Flags)

mutual

/-- Canonical forms are regular if no choice is empty. -/
theorem allRegular_ofNode [Properties] : (n : Node) → Pattern.Filled n → (ofNode flags n).AllRegular
  | .alternative elements, h => by
    rw [ofNode]
    exact allRegular_row (allRegular_itemsOf elements ((Pattern.filled_iff.1 h).2 rfl))
  | .choice _ alternatives, h => by
    obtain ⟨hne, hchildren⟩ := Pattern.filled_iff.1 h
    rw [ofNode]
    refine allRegular_oneOf (fun hnil => hne rfl ?_) (allRegular_ofNodes alternatives (hchildren rfl))
    cases alternatives with
    | nil => rfl
    | cons _ _ => cases hnil
  | .look .., _ => by
    rw [ofNode]
    exact allRegular_look _ _ _
  | .quantifier bounds greedy lexeme element, h => by
    rw [ofNode]
    simp only
    split
    · exact allRegular_other _
    · split
      · exact allRegular_other _
      · have helement := (Pattern.filled_iff.1 h).2 rfl element (List.mem_singleton_self element)
        exact allRegular_repeated (allRegular_ofNode element helement) bounds
  | .edge _, _ | .backreference _, _ | .strings _, _ | .string _, _ => allRegular_other _
  | .character _, _ | .range .., _ | .shorthand _, _ | .charClass .., _ | .classExpression .., _
  | .classOperation .., _ => by
    simp only [ofNode, Node.isCharacter, Node.category, beq_self_eq_true, if_true]
    split
    · exact allRegular_chars _
    · exact allRegular_other _

theorem allRegular_ofNodes [Properties] : (ns : List Node) → (∀ n ∈ ns, Pattern.Filled n) →
    ∀ f ∈ ofNodes flags ns, f.AllRegular
  | [], _ => nofun
  | n :: ns, h => by
    rw [List.forall_mem_cons] at h
    rw [ofNodes, List.forall_mem_cons]
    exact ⟨allRegular_ofNode n h.1, allRegular_ofNodes ns h.2⟩

theorem allRegular_itemsOf [Properties] : (ns : List Node) → (∀ n ∈ ns, Pattern.Filled n) →
    ∀ f ∈ itemsOf flags ns, f.isSeq = false ∧ f.AllRegular
  | [], _ => nofun
  | n :: ns, h => by
    rw [List.forall_mem_cons] at h
    intro f hf
    rw [itemsOf] at hf
    rcases List.mem_append.1 hf with hf | hf
    · exact (allRegular_ofNode n h.1).items f hf
    · exact allRegular_itemsOf ns h.2 f hf

end

/-! ## Lengths -/

/-- A quantifier that is written out is not much longer than the limit. -/
theorem length_items_repeated {f : Form} (h : f.AllRegular) {bounds : Bounds}
    (hlimit : bounds.min * f.items.length ≤ unrollLimit) :
    (repeated bounds.min (rest bounds f) f).items.length ≤ unrollLimit + 1 := by
  have hrest : (rest bounds f).length ≤ 1 := by
    unfold rest
    split <;> simp
  rw [repeated, items_row, List.length_append]
  · simp only [List.length_flatten, List.map_replicate, List.sum_replicate_nat]
    omega
  · intro g hg
    rcases mem_repeated hg with hg | ⟨max, -, rfl⟩
    · exact (h.items g hg).1
    · rfl

theorem length_items_le_of_not_isSeq {f : Form} (h : f.isSeq = false) (n : Node) :
    f.items.length ≤ (unrollLimit + 1) * n.size := by
  have hsize := n.size_eq
  rw [items_of_not_isSeq h, List.length_singleton, hsize]
  exact Nat.mul_pos (Nat.succ_pos _) (Nat.succ_pos _)

variable [Properties]

mutual

/-- The row of a node is as long as those of its elements together; a quantifier that is written out
starts anew. -/
theorem length_items_ofNode : (n : Node) → Pattern.Filled n →
    (ofNode flags n).items.length ≤ (unrollLimit + 1) * n.size
  | .alternative elements, h => by
    have hchildren := (Pattern.filled_iff.1 h).2 rfl
    rw [ofNode, items_row fun f hf => (allRegular_itemsOf flags elements hchildren f hf).1, Node.size]
    exact Nat.le_trans (length_itemsOf elements hchildren) (Nat.mul_le_mul_left _ (Nat.le_succ _))
  | .choice frame alternatives, h => by
    rw [ofNode]
    match alternatives, h with
    | [n], h =>
      have hn := (Pattern.filled_iff.1 h).2 rfl n (List.mem_singleton_self n)
      have hsize : n.size ≤ (Node.choice frame [n]).size :=
        Nat.le_of_lt (Node.size_lt_of_child (List.mem_singleton_self n))
      exact Nat.le_trans (length_items_ofNode n hn) (Nat.mul_le_mul_left _ hsize)
    | [], _ => exact length_items_le_of_not_isSeq rfl _
    | _ :: _ :: _, _ => exact length_items_le_of_not_isSeq rfl _
  | .look .., _ => by
    rw [ofNode]
    exact length_items_le_of_not_isSeq rfl _
  | .quantifier bounds greedy lexeme element, h => by
    rw [ofNode]
    simp only
    split
    · exact length_items_le_of_not_isSeq rfl _
    · split
      · exact length_items_le_of_not_isSeq rfl _
      · rename_i hlimit
        have helement := (Pattern.filled_iff.1 h).2 rfl element (List.mem_singleton_self element)
        rw [Node.size]
        exact Nat.le_trans
          (length_items_repeated (allRegular_ofNode flags element helement) (Nat.le_of_not_lt hlimit))
          (Nat.le_mul_of_pos_right _ (Nat.succ_pos _))
  | .edge _, _ | .backreference _, _ | .strings _, _ | .string _, _ =>
    length_items_le_of_not_isSeq rfl _
  | .character _, _ | .range .., _ | .shorthand _, _ | .charClass .., _ | .classExpression .., _
  | .classOperation .., _ => by
    simp only [ofNode, Node.isCharacter, Node.category, beq_self_eq_true, if_true]
    split <;> exact length_items_le_of_not_isSeq rfl _

theorem length_itemsOf : (ns : List Node) → (∀ n ∈ ns, Pattern.Filled n) →
    (itemsOf flags ns).length ≤ (unrollLimit + 1) * Node.sizeAll ns
  | [], _ => Nat.zero_le _
  | n :: ns, h => by
    rw [List.forall_mem_cons] at h
    rw [itemsOf, List.length_append, Node.sizeAll, Nat.mul_add]
    exact Nat.add_le_add (length_items_ofNode n h.1) (length_itemsOf ns h.2)

end

end

/-! ## Forms that cannot be empty -/

/-- Nothing empty is matched. -/
def Moves (P : Span) : Prop := ∀ i j, P i j → i < j

variable [Properties]

mutual

/-- What cannot be empty never matches the empty text, whatever its references match. -/
theorem moves_spans (flags : Flags) (x : Input) :
    (f : Form) → f.canBeEmpty = false → Moves (f.spans flags x)
  | chars set, _ => by
    intro i j hij
    rw [spans] at hij
    exact hij.1 ▸ Nat.lt_succ_self i
  | seq items, h => by
    rw [spans]
    exact moves_rowSpans flags x items h
  | choice alternatives, h => by
    rw [spans]
    intro i j hij
    obtain ⟨f, hf, hij⟩ := mem_oneOf.1 hij
    exact forall_moves_spans flags x alternatives h f hf i j hij
  | other _, h | look .., h | optional .., h => nomatch h

theorem moves_rowSpans (flags : Flags) (x : Input) :
    (fs : List Form) → allCanBeEmpty fs = false → Moves (rowSpans flags x fs)
  | [], h => nomatch h
  | f :: fs, h => by
    rintro i j ⟨k, hik, hkj⟩
    have hfirst : i ≤ k := (within_spans flags x f i k hik).1
    have hmore : k ≤ j := (within_rowSpans flags x fs k j hkj).1
    rw [allCanBeEmpty, Bool.and_eq_false_iff] at h
    rcases h with h | h
    · exact Nat.lt_of_lt_of_le (moves_spans flags x f h i k hik) hmore
    · exact Nat.lt_of_le_of_lt hfirst (moves_rowSpans flags x fs h k j hkj)

theorem forall_moves_spans (flags : Flags) (x : Input) :
    (fs : List Form) → anyCanBeEmpty fs = false → ∀ f ∈ fs, Moves (f.spans flags x)
  | [], _ => nofun
  | f :: fs, h => by
    rw [anyCanBeEmpty, Bool.or_eq_false_iff] at h
    rw [List.forall_mem_cons]
    exact ⟨moves_spans flags x f h.1, forall_moves_spans flags x fs h.2⟩

end

end Form

namespace Regex

open Pattern

variable {source : List Char} {letters : Flags} {r : Regex}

theorem filled_of_mem_walk (h : Regex.parse source letters = .ok r) {p : Place} (hp : p ∈ r.walk) :
    Filled p.node := fun _ hm hcategory =>
  children_ne_nil_of_choice h ((Node.hasPart_of_mem_walk hp).trans hm.hasPart) hcategory

/-- The canonical form of a node of a parsed pattern, under any flags. Nowhere in it a row stands
directly in a row, a row has exactly one part or a choice less than two, and nothing in it that cannot
be empty matches the empty text; its row has at most 1025 items for each node of the tree. -/
theorem canonical_form_regular [Properties] (h : Regex.parse source letters = .ok r) {p : Place}
    (hp : p ∈ r.walk) (flags : Flags) :
    (∀ f, (Form.ofNode flags p.node).HasPart f → f.Regular ∧
      (f.canBeEmpty = false → ∀ x i j, f.spans flags x i j → i < j)) ∧
    (Form.ofNode flags p.node).items.length ≤ 1025 * p.node.size := by
  have hfilled := filled_of_mem_walk h hp
  refine ⟨fun f hf => ⟨Form.allRegular_ofNode flags p.node hfilled f hf, fun hempty x => ?_⟩,
    Form.length_items_ofNode flags p.node hfilled⟩
  exact Form.moves_spans flags x f hempty

open Node in
/-- `(?:a|){2}b{1,3}` is a row of four items, two of them choices, and it cannot be empty. -/
theorem canonical_form_regular_row :
    let source := ['(', '?', ':', 'a', '|', ')', '{', '2', '}', 'b', '{', '1', ',', '3', '}']
    let group : Node :=
      choice .plain [alternative [character ⟨97, ['a']⟩], alternative []]
    let first : Node := quantifier ⟨2, some 2, by simp⟩ true ['{', '2', '}'] group
    let second : Node :=
      quantifier ⟨1, some 3, by simp⟩ true ['{', '1', ',', '3', '}'] (character ⟨98, ['b']⟩)
    let r : Regex := ⟨source, .empty, choice .whole [alternative [first, second]]⟩
    let f := Form.ofNode .empty r.root
    Regex.parse source .empty = .ok r ∧ f.items.length = 4 ∧ f.canBeEmpty = false ∧
      (∀ g, f.HasPart g → g.Regular) ∧ (∀ x i j, f.spans .empty x i j → i < j) ∧
      f.items.length ≤ 1025 * r.root.size := by
  intro source group first second r f
  have hparse : Regex.parse source .empty = .ok r := rfl
  have hp : ⟨r.root, 0, 0, []⟩ ∈ r.walk := List.mem_cons_self ..
  have hlength : f.items.length = 4 := by decide +kernel
  have hempty : f.canBeEmpty = false := by decide +kernel
  have hregular := canonical_form_regular hparse hp .empty
  exact ⟨hparse, hlength, hempty, fun g hg => (hregular.1 g hg).1, (hregular.1 f .self).2 hempty,
    hregular.2⟩

end Regex

end RegexAudit
