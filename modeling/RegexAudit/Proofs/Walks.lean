import Mathlib.Data.List.Sort
import RegexAudit.Proofs.Parsed

/-!
# Walks and the source

The walk over a tree lists every node once, parents before children. Two facts about the places
below a place are used of it. They are numbered in the order of the walk (`map_position_below`), so
that a number tells a place from all others; and if the text of a node stands in the source where
its place says, so do the texts of its children (`sits_children`). So every place of a tree that was
read stands in its source:

    Regex.parse source flags = .ok r → ∀ p ∈ r.walk, p.Sits source           (Regex.sits_of_mem_walk)
-/

namespace RegexAudit

namespace Place

/-! ## Parents and children -/

section
variable {trail : Nat → List Step} {gap slot position start : Nat} {ns : List Node} {p q : Place}

theorem map_node_inRow : (inRow trail gap slot position start ns).map node = ns := by
  induction ns generalizing slot position start with
  | nil => rfl
  | cons n ns ih => rw [inRow, List.map_cons, ih]

theorem map_node_children (p : Place) : p.children.map node = p.node.children := map_node_inRow

theorem exists_getElem?_inRow {i : Nat} {n : Node} (h : ns[i]? = some n) :
    ∃ q, (inRow trail gap slot position start ns)[i]? = some q ∧ q.node = n ∧
      q.trail = trail (slot + i) := by
  induction ns generalizing slot position start i with
  | nil => cases h
  | cons m ns ih =>
    cases i with
    | zero =>
      cases h
      exact ⟨_, rfl, rfl, rfl⟩
    | succ i =>
      obtain ⟨q, hq, hnode, htrail⟩ := ih h
      exact ⟨q, hq, hnode, by rw [htrail, Nat.add_right_comm, Nat.add_assoc]⟩

theorem trail_inRow {i : Nat} (h : (inRow trail gap slot position start ns)[i]? = some q) :
    q.trail = trail (slot + i) := by
  induction ns generalizing slot position start i with
  | nil => cases h
  | cons n ns ih =>
    cases i with
    | zero =>
      cases h
      rfl
    | succ i => rw [ih h, Nat.add_right_comm, Nat.add_assoc]

theorem trail_children {i : Nat} (h : p.children[i]? = some q) :
    q.trail = ⟨p.node, p.position, p.start, i⟩ :: p.trail := by
  rw [trail_inRow h, Nat.zero_add]

theorem position_le_inRow (h : q ∈ inRow trail gap slot position start ns) :
    position ≤ q.position := by
  induction ns generalizing slot position start with
  | nil => cases h
  | cons n ns ih =>
    rcases List.mem_cons.1 h with rfl | h
    · exact Nat.le_refl _
    · exact Nat.le_trans (Nat.le_add_right _ _) (ih h)

/-- A number tells a place in a row from the others. -/
theorem findIdx?_inRow {i : Nat} (h : (inRow trail gap slot position start ns)[i]? = some q) :
    (inRow trail gap slot position start ns).findIdx? (·.position == q.position) = some i := by
  induction ns generalizing slot position start i with
  | nil => cases h
  | cons n ns ih =>
    rw [inRow] at h ⊢
    cases i with
    | zero =>
      cases h
      rw [List.findIdx?_cons, if_pos (beq_self_eq_true _)]
    | succ i =>
      have hle := position_le_inRow (List.mem_of_getElem? h)
      have hsize := n.size_eq
      have hother : ¬ (position == q.position) = true := by
        rw [beq_iff_eq]
        omega
      rw [List.findIdx?_cons, if_neg hother, ih h]
      rfl

/-- The next place in a row comes after the gap. -/
theorem start_next_inRow {i : Nat} (hp : (inRow trail gap slot position start ns)[i]? = some p)
    (hq : (inRow trail gap slot position start ns)[i + 1]? = some q) : q.start = p.stop + gap := by
  induction ns generalizing slot position start i with
  | nil => cases hp
  | cons n ns ih =>
    cases i with
    | zero =>
      cases hp
      cases ns with
      | nil => cases hq
      | cons m ns =>
        cases hq
        rfl
    | succ i => exact ih hp hq

/-- Every child has a place. -/
theorem exists_child {i : Nat} {n : Node} (h : p.node.children[i]? = some n) :
    ∃ q, p.children[i]? = some q ∧ q.node = n ∧
      q.trail = ⟨p.node, p.position, p.start, i⟩ :: p.trail := by
  obtain ⟨q, hq, hnode, htrail⟩ := exists_getElem?_inRow h
  rw [Nat.zero_add] at htrail
  exact ⟨q, hq, hnode, htrail⟩

end

theorem mem_below_self (p : Place) : p ∈ p.below := by
  rw [below_eq]
  exact List.mem_cons_self

theorem mem_below_of_mem_children {p q c : Place} (hq : q ∈ p.below) (hc : c ∈ q.children) :
    c ∈ p.below := by
  induction p using induction_on_children with
  | h p ih =>
    rcases mem_below_iff.1 hq with rfl | ⟨d, hd, hq⟩
    · exact mem_below_iff.2 (.inr ⟨c, hc, mem_below_self c⟩)
    · exact mem_below_iff.2 (.inr ⟨d, hd, ih d hd hq⟩)

/-- Any place below but the first is the child of one. -/
theorem exists_parent_below {p q : Place} (hq : q ∈ p.below) :
    q = p ∨ ∃ r ∈ p.below, q ∈ r.children := by
  refine (forall_below (P := fun q => q ∈ p.below ∧ (q = p ∨ ∃ r ∈ p.below, q ∈ r.children))
    ?_ ⟨mem_below_self p, .inl rfl⟩ q hq).2
  rintro r ⟨hr, -⟩ c hc
  exact ⟨mem_below_of_mem_children hr hc, .inr ⟨r, hr, hc⟩⟩

/-! ## Numbers of places -/

theorem map_position_inRow {trail : Nat → List Step} {gap slot position start : Nat}
    {ns : List Node} (h : ∀ q ∈ inRow trail gap slot position start ns,
      q.below.map Place.position = List.range' q.position q.node.size) :
    ((inRow trail gap slot position start ns).flatMap below).map Place.position
      = List.range' position (Node.sizeAll ns) := by
  induction ns generalizing slot position start with
  | nil => rfl
  | cons n ns ih =>
    rw [inRow, List.forall_mem_cons] at h
    rw [inRow, List.flatMap_cons, List.map_append, h.1, ih h.2, Node.sizeAll, List.range'_append_1]

/-- The places below are numbered in the order of the walk. -/
theorem map_position_below (p : Place) :
    p.below.map position = List.range' p.position p.node.size := by
  induction p using induction_on_children with
  | h p ih =>
    rw [below_eq, List.map_cons, children, map_position_inRow ih, Node.size_eq, List.range'_succ]

theorem eq_of_position {p q r : Place} (hq : q ∈ p.below) (hr : r ∈ p.below)
    (h : q.position = r.position) : q = r := by
  have hnodup : (p.below.map position).Nodup := by
    rw [map_position_below]
    exact List.nodup_range'
  exact List.inj_on_of_nodup_map hnodup hq hr h

/-! ## Places in a source -/

/-- The stretch of a source that a place covers. -/
def raw? (source : List Char) (p : Place) : Option (List Char) :=
  Text.slice? p.start p.stop source

/-- The text of the node stands in the source where the place says. -/
def Sits (source : List Char) (p : Place) : Prop :=
  ∃ front back, source = front ++ p.node.text ++ back ∧ Text.width front = p.start

variable {source : List Char}

theorem raw?_of_sits {p : Place} (h : p.Sits source) : p.raw? source = some p.node.text := by
  obtain ⟨front, back, rfl, hstart⟩ := h
  rw [raw?, stop, ← hstart, Node.width_eq]
  exact Text.slice?_width front p.node.text back

theorem sits_inRow {trail : Nat → List Step} {slot position start : Nat} {ns : List Node}
    {separator : List Char} (front back : List Char)
    (h : source = front ++ Text.join separator (ns.map Node.text) ++ back)
    (hstart : Text.width front = start) :
    ∀ q ∈ inRow trail (Text.width separator) slot position start ns, q.Sits source := by
  induction ns generalizing slot position start front with
  | nil => simp [inRow]
  | cons n ns ih =>
    cases ns with
    | nil =>
      rw [inRow, inRow, List.forall_mem_singleton]
      exact ⟨front, back, h, hstart⟩
    | cons m ns =>
      have hjoin : Text.join separator ((n :: m :: ns).map Node.text)
          = n.text ++ separator ++ Text.join separator ((m :: ns).map Node.text) := rfl
      rw [hjoin] at h
      rw [inRow, List.forall_mem_cons]
      refine ⟨⟨front, separator ++ Text.join separator ((m :: ns).map Node.text) ++ back, ?_,
        hstart⟩, ih (front ++ n.text ++ separator) ?_ ?_⟩
      · simpa using h
      · simpa using h
      · rw [Text.width_append, Text.width_append, hstart, Node.width_eq]

/-- Two texts in a row have the separator between them. -/
theorem sits_next_inRow {trail : Nat → List Step} {slot position start i : Nat} {ns : List Node}
    {separator : List Char} {p q : Place} (front back : List Char)
    (h : source = front ++ Text.join separator (ns.map Node.text) ++ back)
    (hstart : Text.width front = start)
    (hp : (inRow trail (Text.width separator) slot position start ns)[i]? = some p)
    (hq : (inRow trail (Text.width separator) slot position start ns)[i + 1]? = some q) :
    ∃ before after, source = before ++ p.node.text ++ separator ++ q.node.text ++ after ∧
      Text.width before = p.start := by
  induction ns generalizing slot position start i front with
  | nil => cases hp
  | cons n ns ih =>
    cases ns with
    | nil => cases hq
    | cons m ns =>
      have hjoin : Text.join separator ((n :: m :: ns).map Node.text)
          = n.text ++ separator ++ Text.join separator ((m :: ns).map Node.text) := rfl
      rw [hjoin] at h
      cases i with
      | zero =>
        cases hp
        cases hq
        obtain ⟨rest, hrest⟩ : ∃ rest, Text.join separator ((m :: ns).map Node.text)
            = m.text ++ rest := by
          cases ns with
          | nil => exact ⟨[], (List.append_nil _).symm⟩
          | cons k ns => exact ⟨_, List.append_assoc _ _ _⟩
        refine ⟨front, rest ++ back, ?_, hstart⟩
        rw [h, hrest]
        simp
      | succ i =>
        refine ih (front ++ n.text ++ separator) ?_ ?_ hp hq
        · simpa using h
        · rw [Text.width_append, Text.width_append, hstart, Node.width_eq]

/-- If a text stands in the source at its place, so do the texts of the children. -/
theorem sits_children {p : Place} (h : p.Sits source) : ∀ q ∈ p.children, q.Sits source := by
  obtain ⟨front, back, hsource, hstart⟩ := h
  refine sits_inRow (front ++ p.node.opening) (p.node.closing ++ back) ?_ ?_
  · rw [hsource, Node.text_eq]
    simp
  · rw [Text.width_append, hstart]

/-- What is between two children next to each other is the separator of their parent. -/
theorem sits_next_children {p a b : Place} {i : Nat} (h : p.Sits source)
    (ha : p.children[i]? = some a) (hb : p.children[i + 1]? = some b) :
    ∃ before after,
      source = before ++ a.node.text ++ p.node.separator ++ b.node.text ++ after ∧
        Text.width before = a.start := by
  obtain ⟨front, back, hsource, hstart⟩ := h
  refine sits_next_inRow (front ++ p.node.opening) (p.node.closing ++ back) ?_ ?_ ha hb
  · rw [hsource, Node.text_eq]
    simp
  · rw [Text.width_append, hstart]

end Place

/-! ## Parsed trees -/

/-- Every place of a parsed tree stands in the source. -/
theorem Regex.sits_of_mem_walk {source : List Char} {flags : Flags} {r : Regex}
    (h : Regex.parse source flags = .ok r) : ∀ p ∈ r.walk, p.Sits source := by
  obtain ⟨-, -, -, htext⟩ := Regex.parse_source h
  have htop : Place.Sits source ⟨r.root, 0, 0, []⟩ :=
    ⟨[], [], by rw [List.nil_append, List.append_nil, htext], rfl⟩
  exact Place.forall_below (fun p => Place.sits_children) htop

end RegexAudit
