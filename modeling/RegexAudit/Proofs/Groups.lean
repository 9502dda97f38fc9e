import RegexAudit.Proofs.Captures
import RegexAudit.Proofs.Walks

/-!
# Groups of a tree

The nodes of a tree in the order of a walk, and the capturing groups among them.

    n.nodes = n :: n.children.flatMap nodes                                            (nodes_eq)
    n.captures = n.capture?.toList ++ n.children.flatMap captures                   (captures_eq)

The group that a reference names is the first in that order which fits (`group?_walk`), and a group
starts before everything that comes after it (`starts_below`).
-/

namespace RegexAudit

namespace Node

/-- The nodes of the tree, parents before children. -/
def nodes (n : Node) : List Node := n.walk.map Place.node

/-- The number and the name of a capturing group. -/
def capture? : Node → Option (Nat × Option (List Char))
  | choice (.capture index name) _ => some (index, name)
  | _ => none

/-- The capturing groups in the tree: their numbers and names. -/
def captures (n : Node) : List (Nat × Option (List Char)) := n.nodes.filterMap capture?

/-- Whether the node is a group that a reference names. -/
def isNamedBy (ref : GroupRef) : Node → Bool
  | choice frame _ => frame.isNamedBy ref
  | _ => false

/-- Below a node that stands in a class there are only such nodes. -/
def Layered : Node → Prop := Throughout fun m =>
  m.isClassLevel = true → ∀ c ∈ m.children, c.isClassLevel = true

/-! ## Nodes -/

theorem map_node_below_eq (p : Place) :
    p.below.map Place.node = p.node :: p.node.children.flatMap nodes := by
  obtain ⟨n, hn⟩ : ∃ n, p.node = n := ⟨_, rfl⟩
  induction n using induction_on_children generalizing p with
  | h n ih =>
    have hchildren : ∀ c ∈ p.children, c.below.map Place.node = c.node.nodes := by
      intro c hc
      have hmem : c.node ∈ n.children := by
        rw [← hn, ← Place.map_node_children]
        exact List.mem_map_of_mem hc
      rw [ih c.node hmem c rfl]
      exact (ih c.node hmem ⟨c.node, 0, 0, []⟩ rfl).symm
    rw [Place.below_eq, List.map_cons, List.map_flatMap, List.flatMap_congr hchildren,
      ← Place.map_node_children, List.flatMap_map]

theorem nodes_eq (n : Node) : n.nodes = n :: n.children.flatMap nodes :=
  map_node_below_eq ⟨n, 0, 0, []⟩

theorem map_node_below (p : Place) : p.below.map Place.node = p.node.nodes := by
  rw [map_node_below_eq, nodes_eq]

theorem mem_nodes {n m : Node} : m ∈ n.nodes ↔ n.HasPart m := by
  induction n using induction_on_children with
  | h n ih =>
    rw [nodes_eq, List.mem_cons, List.mem_flatMap, hasPart_iff]
    constructor
    · rintro (rfl | ⟨c, hc, hm⟩)
      · exact .inl rfl
      · exact .inr ⟨c, hc, (ih c hc).1 hm⟩
    · rintro (rfl | ⟨c, hc, hm⟩)
      · exact .inl rfl
      · exact .inr ⟨c, hc, (ih c hc).2 hm⟩

theorem mem_walk_of_hasPart {n m : Node} (h : n.HasPart m) : ∃ p ∈ n.walk, p.node = m :=
  List.mem_map.1 (mem_nodes.2 h)

theorem hasPart_of_mem_walk {n : Node} {p : Place} (h : p ∈ n.walk) : n.HasPart p.node :=
  mem_nodes.1 (List.mem_map_of_mem h)

/-! ## Captures -/

/-- The groups of a tree are its root, if that is one, and those of the trees below. -/
theorem captures_eq (n : Node) : n.captures = n.capture?.toList ++ n.children.flatMap captures := by
  rw [captures, nodes_eq, List.filterMap_cons, List.filterMap_flatMap]
  cases n.capture? <;> rfl

theorem captures_of_capture?_eq_none {n : Node} (h : n.capture? = none) :
    n.captures = n.children.flatMap captures := by
  rw [captures_eq, h]
  rfl

theorem capture?_of_isClassLevel {n : Node} (h : n.isClassLevel = true) : n.capture? = none := by
  cases n <;> first | rfl | cases h

theorem captures_of_classPart {n : Node} (h : n.ClassPart) : n.captures = [] :=
  List.filterMap_eq_nil_iff.2 fun m hm => capture?_of_isClassLevel (h m (mem_nodes.1 hm))

theorem groupNumbers_eq (n : Node) : n.groupNumbers = n.captures.map Prod.fst := by
  rw [groupNumbers, captures, nodes, List.filterMap_map, List.map_filterMap]
  refine List.filterMap_congr fun p _ => ?_
  obtain ⟨m, _, _, _⟩ := p
  cases m with
  | choice frame ns => cases frame <;> rfl
  | _ => rfl

theorem capture?_eq_some {n : Node} {index : Nat} {name : Option (List Char)} :
    n.capture? = some (index, name) ↔ ∃ ns, n = choice (.capture index name) ns := by
  constructor
  · intro h
    unfold capture? at h
    split at h
    · cases h
      exact ⟨_, rfl⟩
    · cases h
  · rintro ⟨ns, rfl⟩
    rfl

theorem mem_captures {n : Node} {index : Nat} {name : Option (List Char)} :
    (index, name) ∈ n.captures ↔ ∃ ns, n.HasPart (choice (.capture index name) ns) := by
  rw [captures, List.mem_filterMap]
  constructor
  · rintro ⟨m, hm, hcapture⟩
    obtain ⟨ns, rfl⟩ := capture?_eq_some.1 hcapture
    exact ⟨ns, mem_nodes.1 hm⟩
  · rintro ⟨ns, hpart⟩
    exact ⟨_, mem_nodes.2 hpart, rfl⟩

/-! ## Names of groups -/

theorem isNamedBy_iff {n : Node} {ref : GroupRef} : n.isNamedBy ref = true ↔
    ∃ index name ns, n = choice (.capture index name) ns ∧
      Frame.isNamedBy (.capture index name) ref = true := by
  constructor
  · intro h
    cases n with
    | choice frame ns =>
      cases frame with
      | capture index name => exact ⟨index, name, ns, rfl, h⟩
      | whole => cases h
      | plain => cases h
    | _ => cases h
  · rintro ⟨index, name, ns, rfl, h⟩
    exact h

theorem not_isNamedBy_of_isClassLevel {n : Node} (h : n.isClassLevel = true) (ref : GroupRef) :
    n.isNamedBy ref = false := by
  cases n <;> first | rfl | cases h

theorem group?_of_isClassLevel {n : Node} (h : n.isClassLevel = true) (ref : GroupRef) :
    n.group? ref = none := by
  cases n <;> first | rfl | cases h

/-- Outside of classes the group is the node itself, or it is looked for among the children. -/
theorem group?_eq {n : Node} (h : n.isClassLevel = false) (ref : GroupRef) :
    n.group? ref = if n.isNamedBy ref then some ([], n) else groupAmong? ref 0 n.children := by
  cases n with
  | choice frame ns => rw [group?]; rfl
  | look direction negate ns => rw [group?]; rfl
  | alternative ns => rw [group?]; rfl
  | quantifier bounds greedy lexeme element =>
    rw [group?]
    simp only [isNamedBy, Bool.false_eq_true, if_false, children, groupAmong?]
    cases element.group? ref <;> rfl
  | edge e => rfl
  | backreference ref' => rfl
  | _ => cases h

theorem Layered.child {n c : Node} (h : n.Layered) (hc : c ∈ n.children) : c.Layered :=
  (throughout_iff.1 h).2 c hc

theorem Layered.classPart {n : Node} (h : n.Layered) (hclass : n.isClassLevel = true) :
    n.ClassPart := by
  induction n using induction_on_children with
  | h n ih =>
    exact classPart_iff.2
      ⟨hclass, fun c hc => ih c hc (h.child hc) (h n .self hclass c hc)⟩

theorem Inner.layered {n : Node} (h : n.Inner) : n.Layered := fun m hm => (h m hm).2

theorem IsPattern.layered {root : Node} (h : root.IsPattern) : root.Layered :=
  fun _ hm hclass _ hc => h.classLevel_child hm hclass hc

end Node

namespace Place

open Node

theorem path_of_trail {p q : Place} {i : Nat}
    (h : q.trail = ⟨p.node, p.position, p.start, i⟩ :: p.trail) : q.path = p.path ++ [i] := by
  rw [path, h]
  simp [path]

theorem path_of_mem_children {p q : Place} (h : q ∈ p.children) :
    ∃ i, p.node.children[i]? = some q.node ∧ q.path = p.path ++ [i] := by
  obtain ⟨i, hnode, htrail⟩ := slot_of_mem_children h
  exact ⟨i, hnode, path_of_trail htrail⟩

/-- Looking for a group among nodes in a row finds the first place below them that holds one. -/
theorem groupAmong?_inRow {ref : GroupRef} {trail : List Step} {parent : Node}
    {above start' gap slot position start : Nat} {ns : List Node}
    (h : ∀ q ∈ inRow (fun slot => ⟨parent, above, start', slot⟩ :: trail) gap slot position start ns,
      (q.node.group? ref).map (fun (path, n) => (q.path ++ path, n)) =
        (q.below.find? fun q => q.node.isNamedBy ref).map fun q => (q.path, q.node)) :
    (groupAmong? ref slot ns).map (fun (path, n) => ((trail.map (·.slot)).reverse ++ path, n)) =
      ((inRow (fun slot => ⟨parent, above, start', slot⟩ :: trail) gap slot position start ns).findSome?
        fun q => q.below.find? fun q => q.node.isNamedBy ref).map fun q => (q.path, q.node) := by
  induction ns generalizing slot position start with
  | nil => rfl
  | cons n ns ih =>
    have hfirst := h _ (List.mem_cons_self ..)
    have hmore := ih fun q hq => h q (List.mem_cons_of_mem _ hq)
    rw [groupAmong?, inRow, List.findSome?_cons]
    simp only [path, List.map_cons, List.reverse_cons] at hfirst
    cases hgroup : n.group? ref with
    | none =>
      rw [hgroup, Option.map_none] at hfirst
      rw [Option.map_eq_none_iff.1 hfirst.symm]
      exact hmore
    | some found =>
      obtain ⟨way, m⟩ := found
      rw [hgroup, Option.map_some] at hfirst
      obtain ⟨q, hq, heq⟩ := Option.map_eq_some_iff.1 hfirst.symm
      simp only [hq, Option.map_some]
      rw [path, heq, List.append_assoc]
      rfl

/-- The group that a reference names is the first in the walk that fits. -/
theorem group?_below {p : Place} (h : p.node.Layered) (ref : GroupRef) :
    (p.node.group? ref).map (fun (path, n) => (p.path ++ path, n)) =
      (p.below.find? fun q => q.node.isNamedBy ref).map fun q => (q.path, q.node) := by
  induction p using Place.induction_on_children with
  | h p ih =>
    by_cases hclass : p.node.isClassLevel = true
    · rw [group?_of_isClassLevel hclass, List.find?_eq_none.2]
      · rfl
      · intro q hq
        have hpart : p.node.HasPart q.node :=
          mem_nodes.1 (map_node_below p ▸ List.mem_map_of_mem hq)
        simp [not_isNamedBy_of_isClassLevel (h.classPart hclass _ hpart)]
    · rw [group?_eq (by simpa using hclass), below_eq, List.find?_cons]
      cases hnamed : p.node.isNamedBy ref with
      | true => simp
      | false =>
        rw [if_neg (by simp), List.find?_flatMap]
        refine groupAmong?_inRow fun q hq => ih q hq (h.child ?_)
        rw [← map_node_children]
        exact List.mem_map_of_mem hq

end Place

theorem Node.group?_walk {root : Node} (h : root.Layered) (ref : GroupRef) :
    root.group? ref =
      (root.walk.find? fun p => p.node.isNamedBy ref).map fun p => (p.path, p.node) := by
  have hbelow := Place.group?_below (p := ⟨root, 0, 0, []⟩) h ref
  rw [Place.walk_eq_below, ← hbelow]
  simp [Place.path]

namespace Place

/-! ## Where groups start -/

section
variable {trail : Nat → List Step} {gap slot position start : Nat} {ns : List Node} {p q : Place}

theorem widthAll_cons_le (n : Node) (ns : List Node) :
    n.width ≤ Node.widthAll gap (n :: ns) := by
  cases ns with
  | nil => exact Nat.le_refl _
  | cons m ns => rw [Node.widthAll]; omega

/-- Places in a row start after one another and end before the row does. -/
theorem within_inRow (h : q ∈ inRow trail gap slot position start ns) :
    start ≤ q.start ∧ q.stop ≤ start + Node.widthAll gap ns := by
  induction ns generalizing slot position start with
  | nil => cases h
  | cons n ns ih =>
    rcases List.mem_cons.1 h with rfl | h
    · exact ⟨Nat.le_refl _, Nat.add_le_add_left (widthAll_cons_le n ns) _⟩
    · obtain ⟨hstart, hstop⟩ := ih h
      cases ns with
      | nil => cases h
      | cons m ns =>
        rw [Node.widthAll]
        omega

theorem pairwise_stop_inRow :
    (inRow trail gap slot position start ns).Pairwise fun p q => p.stop ≤ q.start := by
  induction ns generalizing slot position start with
  | nil => exact .nil
  | cons n ns ih =>
    refine .cons (fun q hq => ?_) ih
    have hstart := (within_inRow hq).1
    exact Nat.le_trans (Nat.le_add_right _ gap) hstart

theorem width_node_eq (n : Node) : n.width = Text.width n.opening +
    Node.widthAll (Text.width n.separator) n.children + Text.width n.closing := by
  rw [Node.width_eq, Node.text_eq, Text.width_append, Text.width_append,
    ← Node.textAll_eq_join, Node.widthAll_eq n.separator _ rfl]

/-- A child starts after the opening of its parent and ends before the closing. -/
theorem within_children (h : q ∈ p.children) :
    p.start + Text.width p.node.opening ≤ q.start ∧ q.stop ≤ p.stop := by
  obtain ⟨hstart, hstop⟩ := within_inRow h
  have hwidth := width_node_eq p.node
  have hpstop : p.stop = p.start + p.node.width := rfl
  omega

theorem within_below (h : q ∈ p.below) : p.start ≤ q.start ∧ q.stop ≤ p.stop := by
  refine forall_below (P := fun q => p.start ≤ q.start ∧ q.stop ≤ p.stop) ?_
    ⟨Nat.le_refl _, Nat.le_refl _⟩ q h
  intro q hq c hc
  have hchild := within_children hc
  omega

end

/-- The opening of a capturing group takes a byte at least. -/
theorem width_opening_pos {n : Node} (h : n.capture?.isSome = true) :
    0 < Text.width n.opening := by
  obtain ⟨⟨index, name⟩, hcapture⟩ := Option.isSome_iff_exists.1 h
  obtain ⟨ns, rfl⟩ := Node.capture?_eq_some.1 hcapture
  have hparenthesis : 0 < '('.utf8Size := by decide
  cases name with
  | none => simpa [Node.opening, Frame.opening] using hparenthesis
  | some name =>
    simp only [Node.opening, Frame.opening, List.cons_append, Text.width_cons]
    omega

/-- A capturing group starts before all places that come after it in the walk. -/
theorem starts_below (p : Place) :
    p.below.Pairwise fun q r => q.node.capture?.isSome = true → q.start < r.start := by
  induction p using Place.induction_on_children with
  | h p ih =>
    rw [below_eq, List.pairwise_cons, List.pairwise_flatMap]
    refine ⟨?_, ih, ?_⟩
    · intro r hr hcapture
      obtain ⟨c, hc, hr⟩ := List.mem_flatMap.1 hr
      have hopening := width_opening_pos hcapture
      have hchild := within_children hc
      have hbelow := within_below hr
      omega
    · refine pairwise_stop_inRow.imp fun {c d} hstop q hq r hr hcapture => ?_
      have hopening := width_opening_pos hcapture
      have hwidth := width_node_eq q.node
      have hq := within_below hq
      have hr := within_below hr
      have hqstop : q.stop = q.start + q.node.width := rfl
      omega

end Place

end RegexAudit
