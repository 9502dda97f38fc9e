import RegexAudit.Proofs.Arenas
import RegexAudit.Proofs.Walks

/-!
# Stored trees

What an arena says that stores a tree. The walk over its entries takes the numbers of the tree in
their order, and each number goes with a place of the walk over the tree:

    Stands t.nodes … n id ids → List.Forall₂ t.Holds ids (Place.below ⟨n, …⟩)       (Stands.holds)

Each entry but the first is the child of one entry, once, and has that entry stored as its parent
(`Stands.perm_children`, `Stands.parents`).
-/

namespace RegexAudit

open Arena (Content Entry)

namespace Ast

/-- An entry covers the stretch of the source that a place does. -/
def Covers (t : Ast) (id : NodeId) (p : Place) : Prop :=
  ∃ e, t.nodes[id]? = some e ∧ e.start = p.start ∧ e.stop = p.stop

/-- An entry stores the node at a place, and its children cover what those of the place do. -/
def Holds (t : Ast) (id : NodeId) (p : Place) : Prop :=
  ∃ e children, t.nodes[id]? = some e ∧ e.start = p.start ∧ e.stop = p.stop ∧
    e.content.Stores p.node children ∧ List.Forall₂ t.Covers children p.children

variable {t : Ast} {e : Entry} {id : NodeId}

theorem children_of_entry (h : t.nodes[id]? = some e) : t.children id = e.content.children := by
  rw [children, h]

theorem parent?_of_entry (h : t.nodes[id]? = some e) : t.parent? id = e.parent := by
  rw [parent?, h]
  rfl

end Ast

namespace Arena

variable {t : Ast}

/-! ## Children and parents -/

mutual

/-- The first entry and the children of all are the entries of the tree. -/
theorem Stands.perm_children {parent : Option NodeId} {start : Nat} {n : Node} {id : NodeId}
    {ids : List NodeId} :
    Stands t.nodes parent start n id ids → (id :: ids.flatMap t.children).Perm ids
  | .node hentry hstores hbelow => by
    rw [List.flatMap_cons, Ast.children_of_entry hentry, hstores.children]
    exact hbelow.perm_children.cons id

theorem StandAll.perm_children {p : NodeId} {gap start : Nat} {ns : List Node}
    {children ids : List NodeId} :
    StandAll t.nodes p gap start ns children ids → (children ++ ids.flatMap t.children).Perm ids
  | .nil => .nil
  | .cons hfirst hrest => by
    refine List.Perm.trans ?_ (hfirst.perm_children.append hrest.perm_children)
    rw [List.flatMap_append, List.cons_append, List.cons_append]
    refine .cons _ ?_
    rw [← List.append_assoc, ← List.append_assoc]
    exact List.perm_append_comm.append_right _

end

theorem StandAll.parent?_child {p : NodeId} {gap start : Nat} {ns : List Node}
    {children ids : List NodeId} (h : StandAll t.nodes p gap start ns children ids) :
    ∀ c ∈ children, t.parent? c = some p := by
  induction ns generalizing start children ids with
  | nil =>
    cases h
    simp
  | cons n ns ih =>
    obtain _ | ⟨⟨hentry, -, -⟩, hrest⟩ := h
    rw [List.forall_mem_cons]
    exact ⟨Ast.parent?_of_entry hentry, ih hrest⟩

mutual

/-- A child has its parent stored, and comes after it. -/
theorem Stands.parents {parent : Option NodeId} {start : Nat} {n : Node} {id : NodeId}
    {ids : List NodeId} :
    Stands t.nodes parent start n id ids →
      ∀ i ∈ ids, ∀ c ∈ t.children i, t.parent? c = some i ∧ [i, c].Sublist ids
  | .node hentry hstores hbelow => by
    intro i hi c hc
    rcases List.mem_cons.1 hi with rfl | hi
    · rw [Ast.children_of_entry hentry, hstores.children] at hc
      have hmem := hbelow.children_subset c hc
      exact ⟨hbelow.parent?_child c hc, (List.singleton_sublist.2 hmem).cons_cons i⟩
    · obtain ⟨hparent, hafter⟩ := hbelow.parents i hi c hc
      exact ⟨hparent, hafter.cons _⟩

theorem StandAll.parents {p : NodeId} {gap start : Nat} {ns : List Node}
    {children ids : List NodeId} :
    StandAll t.nodes p gap start ns children ids →
      ∀ i ∈ ids, ∀ c ∈ t.children i, t.parent? c = some i ∧ [i, c].Sublist ids
  | .nil => by simp
  | .cons hfirst hrest => by
    intro i hi c hc
    rcases List.mem_append.1 hi with hi | hi
    · obtain ⟨hparent, hafter⟩ := hfirst.parents i hi c hc
      exact ⟨hparent, hafter.trans (List.sublist_append_left _ _)⟩
    · obtain ⟨hparent, hafter⟩ := hrest.parents i hi c hc
      exact ⟨hparent, hafter.trans (List.sublist_append_right _ _)⟩

end

section
variable {parent : Option NodeId} {start : Nat} {n : Node} {id c : NodeId} {ids : List NodeId}

theorem mem_of_child (hids : ids.Perm (List.range t.nodes.length)) {q : NodeId}
    (hc : c ∈ t.children q) : q ∈ ids := by
  rw [hids.mem_iff, List.mem_range]
  unfold Ast.children at hc
  split at hc
  · rename_i hentry
    exact (List.getElem?_eq_some_iff.1 hentry).1
  · cases hc

/-- The first entry is no child. -/
theorem Stands.not_child (h : Stands t.nodes parent start n id ids)
    (hids : ids.Perm (List.range t.nodes.length)) (q : NodeId) : id ∉ t.children q := by
  intro hid
  have hnodup := h.perm_children.nodup_iff.2 (hids.nodup_iff.2 List.nodup_range)
  exact (List.nodup_cons.1 hnodup).1 (List.mem_flatMap.2 ⟨q, mem_of_child hids hid, hid⟩)

/-- Any other is the child of one entry, once. -/
theorem Stands.count_child (h : Stands t.nodes parent start n id ids)
    (hids : ids.Perm (List.range t.nodes.length)) (hc : c ∈ ids) (hother : c ≠ id) :
    ∃ p ∈ ids, t.parent? c = some p ∧ ∀ q, (t.children q).count c = if q = p then 1 else 0 := by
  have hnodup := h.perm_children.nodup_iff.2 (hids.nodup_iff.2 List.nodup_range)
  have hbelow := (List.mem_cons.1 (h.perm_children.mem_iff.2 hc)).resolve_left hother
  obtain ⟨p, hp, hchild⟩ := List.mem_flatMap.1 hbelow
  have hparent := (h.parents p hp c hchild).1
  refine ⟨p, hp, hparent, fun q => ?_⟩
  split
  · rename_i hq
    subst hq
    have honce := (List.nodup_flatMap.1 (List.nodup_cons.1 hnodup).2).1 q hp
    exact List.count_eq_one_of_mem honce hchild
  · rename_i hq
    refine List.count_eq_zero_of_not_mem fun hmem => hq ?_
    have hstored := (h.parents q (mem_of_child hids hmem) c hmem).1
    rw [hparent] at hstored
    exact (Option.some.inj hstored).symm

end

/-! ## The walk -/

mutual

theorem Stands.walkFrom {parent : Option NodeId} {start : Nat} {n : Node} {id : NodeId}
    {ids : List NodeId} {fuel : Nat} {stack rest : List NodeId} :
    Stands t.nodes parent start n id ids → t.walkFrom fuel stack = some rest →
      t.walkFrom (ids.length + fuel) (id :: stack) = some (ids ++ rest)
  | .node hentry hstores hbelow, hrest => by
    rw [List.length_cons, Nat.add_right_comm, Ast.walkFrom, hentry]
    simp only [hstores.children, hbelow.walkFrom hrest]
    rfl

theorem StandAll.walkFrom {p : NodeId} {gap start : Nat} {ns : List Node}
    {children ids : List NodeId} {fuel : Nat} {stack rest : List NodeId} :
    StandAll t.nodes p gap start ns children ids → t.walkFrom fuel stack = some rest →
      t.walkFrom (ids.length + fuel) (children ++ stack) = some (ids ++ rest)
  | .nil, hrest => by simpa using hrest
  | .cons hfirst hmore, hrest => by
    rw [List.length_append, Nat.add_assoc, List.append_assoc]
    exact hfirst.walkFrom (hmore.walkFrom hrest)

end

/-! ## Places -/

mutual

/-- The entries of a tree store the nodes of its walk, in that order. -/
theorem Stands.holds {parent : Option NodeId} {start : Nat} {n : Node} {id : NodeId}
    {ids : List NodeId} (position : Nat) (trail : List Step) :
    Stands t.nodes parent start n id ids →
      List.Forall₂ t.Holds ids (Place.below ⟨n, position, start, trail⟩)
  | .node hentry hstores hbelow => by
    obtain ⟨hcovers, hholds⟩ :=
      hbelow.holds (position + 1) 0 fun slot => ⟨n, position, start, slot⟩ :: trail
    rw [Place.below_eq]
    exact .cons ⟨_, _, hentry, rfl, rfl, hstores, hcovers⟩ hholds

theorem StandAll.holds {p : NodeId} {gap start : Nat} {ns : List Node} {children ids : List NodeId}
    (position slot : Nat) (trail : Nat → List Step) :
    StandAll t.nodes p gap start ns children ids →
      List.Forall₂ t.Covers children (Place.inRow trail gap slot position start ns) ∧
        List.Forall₂ t.Holds ids
          ((Place.inRow trail gap slot position start ns).flatMap Place.below)
  | .nil => ⟨.nil, .nil⟩
  | .cons (n := n) hfirst hrest => by
    obtain ⟨hcovers, hholds⟩ := hrest.holds (position + n.size) (slot + 1) trail
    have hplaces := hfirst.holds position (trail slot)
    obtain ⟨hentry, -, -⟩ := hfirst
    rw [Place.inRow, List.flatMap_cons]
    exact ⟨.cons ⟨_, hentry, rfl, rfl⟩ hcovers, List.rel_append hplaces hholds⟩

end

end Arena

end RegexAudit
