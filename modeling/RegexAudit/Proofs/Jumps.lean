import Mathlib.Data.List.Flatten
import Mathlib.Data.List.Perm.Basic
import Mathlib.Logic.Relation
import RegexAudit.CharSet.KnownProperties
import RegexAudit.Proofs.Visits

/-!
# References do not lead in circles

What a node consumes first is asked of its children, and of the group of a reference, unless the
reference always matches nothing. The groups may hold references again, to groups before and after
them, and in lookbehinds all is read the other way round. Still there is an order that every question
follows down: the order in which the nodes are left when the elements of an alternative are met in the
direction it is matched in.

    root.Follows p q → root.turn q < root.turn p                                 (turn_lt_of_follows)

A child is left before its parent; and where the ways to a reference and to its group part, there is an
alternative that is matched through the group first, or else the reference always matches nothing. So
the number of jumps that the analysis may make never runs out: `Regex.references` is the one solution
of the equation that `Node.followed` puts down (`references_eq_followed`).
-/

namespace RegexAudit

namespace Place

/-! ## The order in which nodes are left -/

/-- The children in the order in which they are met. -/
def inTurn (p : Place) : List Place :=
  match p.node with
  | .alternative _ => p.direction.arrange p.children
  | _ => p.children

theorem inTurn_perm (p : Place) : p.inTurn.Perm p.children := by
  unfold inTurn
  split
  · cases p.direction with
    | forward => exact .refl _
    | backward => exact List.reverse_perm _
  · exact .refl _

theorem size_lt_of_mem_children {p q : Place} (h : q ∈ p.children) : q.node.size < p.node.size := by
  obtain ⟨i, hnode, -⟩ := slot_of_mem_children h
  exact Node.size_lt_of_child (List.mem_of_getElem? hnode)

/-- The place and those below it, children before their parent. -/
def postorder (p : Place) : List Place := (p.inTurn.attach.flatMap fun q => postorder q.1) ++ [p]
termination_by p.node.size
decreasing_by exact size_lt_of_mem_children (p.inTurn_perm.subset q.2)

theorem postorder_eq (p : Place) : p.postorder = p.inTurn.flatMap postorder ++ [p] := by
  rw [postorder, List.flatMap_subtype, List.unattach_attach]
  exact fun _ _ => rfl

/-- The order has all places below, each of them once. -/
theorem postorder_perm (p : Place) : p.postorder.Perm p.below := by
  induction p using induction_on_children with
  | h p ih =>
    rw [postorder_eq, below_eq]
    refine (List.perm_append_singleton _ _).trans (.cons p ?_)
    exact (p.inTurn_perm.flatMap_right _).trans (List.Perm.flatMap_left _ ih)

theorem mem_postorder_self (p : Place) : p ∈ p.postorder :=
  p.postorder_perm.mem_iff.2 p.mem_below_self

theorem postorder_sublist_of_mem_children {p c : Place} (h : c ∈ p.children) :
    c.postorder.Sublist p.postorder := by
  rw [p.postorder_eq]
  have hc : c ∈ p.inTurn := p.inTurn_perm.mem_iff.2 h
  have hflat : c.postorder.Sublist (p.inTurn.flatMap postorder) := by
    simpa using (List.singleton_sublist.2 hc).flatMap postorder
  exact hflat.trans (List.sublist_append_left _ _)

theorem postorder_sublist {p q : Place} (h : q ∈ p.below) : q.postorder.Sublist p.postorder := by
  induction p using induction_on_children with
  | h p ih =>
    rcases mem_below_iff.1 h with rfl | ⟨c, hc, hq⟩
    · exact .refl _
    · exact (ih c hc hq).trans (postorder_sublist_of_mem_children hc)

/-- A child is left before its parent. -/
theorem child_sublist_postorder {p c : Place} (h : c ∈ p.children) :
    [c, p].Sublist p.postorder := by
  have hc : c ∈ p.inTurn.flatMap postorder :=
    List.mem_flatMap.2 ⟨c, p.inTurn_perm.mem_iff.2 h, c.mem_postorder_self⟩
  rw [p.postorder_eq]
  exact (List.singleton_sublist.2 hc).append (.refl [p])

/-- What stands in the child that is met first is left before what stands in the other one. -/
theorem sublist_postorder_of_inTurn {p c e q t : Place} (h : [c, e].Sublist p.inTurn)
    (hq : q ∈ c.below) (ht : t ∈ e.below) : [q, t].Sublist p.postorder := by
  have hcq : [q].Sublist c.postorder := List.singleton_sublist.2 (c.postorder_perm.mem_iff.2 hq)
  have het : [t].Sublist e.postorder := List.singleton_sublist.2 (e.postorder_perm.mem_iff.2 ht)
  have hflat : (c.postorder ++ e.postorder).Sublist (p.inTurn.flatMap postorder) := by
    simpa using h.flatMap postorder
  rw [p.postorder_eq]
  exact ((hcq.append het).trans hflat).trans (List.sublist_append_left _ _)

/-! ## Ways down -/

/-- The place at the end of a way down. -/
theorem exists_below_of_at? {p : Place} {way : Path} {n : Node} (h : p.node.at? way = some n) :
    ∃ q ∈ p.below, q.node = n ∧ q.path = p.path ++ way := by
  induction way generalizing p with
  | nil =>
    cases h
    exact ⟨p, p.mem_below_self, rfl, (List.append_nil _).symm⟩
  | cons i way ih =>
    obtain ⟨m, hm, hn⟩ := Option.bind_eq_some_iff.1 h
    obtain ⟨c, hc, rfl, htrail⟩ := exists_child hm
    obtain ⟨q, hq, hnode, hpath⟩ := ih hn
    refine ⟨q, mem_below_iff.2 (.inr ⟨c, List.mem_of_getElem? hc, hq⟩), hnode, ?_⟩
    rw [hpath, path_of_trail htrail, List.append_assoc]
    rfl

/-- Places below stand at the end of ways down. -/
theorem exists_way {p q : Place} (h : q ∈ p.below) :
    ∃ way, q.path = p.path ++ way ∧ p.node.at? way = some q.node := by
  refine forall_below (P := fun q => ∃ way, q.path = p.path ++ way ∧ p.node.at? way = some q.node)
    ?_ ⟨[], (List.append_nil _).symm, rfl⟩ q h
  rintro q ⟨way, hpath, hat⟩ c hc
  obtain ⟨i, hnode, hslot⟩ := path_of_mem_children hc
  refine ⟨way ++ [i], ?_, ?_⟩
  · rw [hslot, hpath, List.append_assoc]
  · rw [Node.at?_append hat, hnode]

/-- A way down with steps goes through a child. -/
theorem below_child_of_path {p q : Place} {i : Nat} {way : Path} (h : q ∈ p.below)
    (hpath : q.path = p.path ++ i :: way) :
    ∃ c, p.children[i]? = some c ∧ c.trail = ⟨p.node, p.position, p.start, i⟩ :: p.trail ∧
      p.node.children[i]? = some c.node ∧ q ∈ c.below ∧ q.path = c.path ++ way := by
  rcases mem_below_iff.1 h with rfl | ⟨e, he, hq⟩
  · exact absurd (List.self_eq_append_right.1 hpath) nofun
  · obtain ⟨j, hj⟩ := List.getElem?_of_mem he
    have hnode : p.node.children[j]? = some e.node := by
      rw [← map_node_children, List.getElem?_map, hj, Option.map_some]
    obtain ⟨c, hc, -, htrail⟩ := exists_child hnode
    obtain rfl : c = e := Option.some.inj (hc.symm.trans hj)
    obtain ⟨way', hway, -⟩ := exists_way hq
    have hsteps : i :: way = j :: way' := by
      rw [hway, path_of_trail htrail, List.append_assoc] at hpath
      exact (List.append_cancel_left hpath).symm
    cases hsteps
    exact ⟨c, hc, htrail, hnode, hq, hway⟩

/-! ## Jumps -/

theorem directionOf_child (p : Place) (position start slot : Nat) :
    directionOf (⟨p.node, position, start, slot⟩ :: p.trail) =
      Parting.directionBelow (directionOf p.trail) p.node := by
  rw [directionOf]
  cases p.node <;> rfl

theorem pair_sublist {α : Type} {l : List α} {a b : α} {i j : Nat} (ha : l[i]? = some a)
    (hb : l[j]? = some b) (h : i < j) : [a, b].Sublist l := by
  obtain ⟨hi, rfl⟩ := List.getElem?_eq_some_iff.1 ha
  obtain ⟨hj, rfl⟩ := List.getElem?_eq_some_iff.1 hb
  have hpair : ([⟨i, hi⟩, ⟨j, hj⟩] : List (Fin l.length)).Pairwise (· < ·) := List.pairwise_pair.2 h
  exact List.map_getElem_sublist hpair

/-- Where the ways to a reference and to its group part, the group is met first, unless the reference
is early: nothing else than an alternative has two children that hold groups and references and is no
choice between them. -/
theorem sublist_inTurn_of_not_early {p c e q : Place} {r g : Nat} {between : List Node}
    (hlayered : p.node.Layered) (hc : p.children[g]? = some c) (he : p.children[r]? = some e)
    (hq : q ∈ c.below) (hlevel : q.node.isClassLevel = false) (hne : r ≠ g)
    (hlate : Parting.isEarly ⟨p.node, Parting.directionBelow (directionOf p.trail) p.node, r, g,
      between⟩ = false) : [c, e].Sublist p.inTurn := by
  have hbelow : q ∈ p.below := mem_below_iff.2 (.inr ⟨c, List.mem_of_getElem? hc, hq⟩)
  have hpart : p.node.HasPart q.node :=
    Node.mem_nodes.1 (Node.map_node_below p ▸ List.mem_map_of_mem hbelow)
  have hopen : p.node.isClassLevel = false := by
    rw [Bool.eq_false_iff]
    intro hclass
    rw [hlayered.classPart hclass _ hpart] at hlevel
    cases hlevel
  have hlength : p.children.length = p.node.children.length := by
    rw [← map_node_children, List.length_map]
  have hcg := (List.getElem?_eq_some_iff.1 hc).1
  have her := (List.getElem?_eq_some_iff.1 he).1
  rw [hlength] at hcg her
  simp only [Parting.isEarly, Bool.or_eq_false_iff] at hlate
  unfold inTurn
  cases hnode : p.node with
  | alternative ns =>
    have hdirection : p.direction = directionOf p.trail := by
      rw [direction, hnode]
    rw [hnode] at hlate
    have hlate := hlate.2
    simp only [hdirection]
    cases hd : directionOf p.trail with
    | forward =>
      simp only [hd, Parting.directionBelow, decide_eq_false_iff_not, Nat.not_lt] at hlate
      exact pair_sublist hc he (Nat.lt_of_le_of_ne hlate (Ne.symm hne))
    | backward =>
      simp only [hd, Parting.directionBelow, decide_eq_false_iff_not, Nat.not_lt] at hlate
      exact (pair_sublist he hc (Nat.lt_of_le_of_ne hlate hne)).reverse
  | choice _ _ | look _ _ _ =>
    rw [hnode] at hlate
    cases hlate.1.1
  | quantifier _ _ _ _ =>
    rw [hnode] at hcg her
    simp only [Node.children, List.length_singleton, Nat.lt_one_iff] at hcg her
    exact absurd (her.trans hcg.symm) hne
  | edge _ | backreference _ =>
    rw [hnode] at hcg
    cases hcg
  | character _ | range _ _ | shorthand _ | charClass _ _ _ | classExpression _ _
  | classOperation _ _ _ | strings _ | string _ =>
    rw [hnode] at hopen
    cases hopen

/-- A group is left before a reference to it that can match something. -/
theorem sublist_postorder_of_find? {p q t : Place} {ref group : Path} {parting : Parting}
    (hlayered : p.node.Layered) (hq : q ∈ p.below) (hqpath : q.path = p.path ++ group)
    (hlevel : q.node.isClassLevel = false) (ht : t ∈ p.below) (htpath : t.path = p.path ++ ref)
    (h : Parting.find? (directionOf p.trail) p.node ref group = some parting)
    (hlate : parting.isEarly = false) : [q, t].Sublist p.postorder := by
  -- The ways are followed down as long as both take the same child.
  induction ref generalizing p group with
  | nil => cases h
  | cons r ref ih =>
    cases group with
    | nil => cases h
    | cons g group =>
      obtain ⟨c, hc, hctrail, hcnode, hqc, hcpath⟩ := below_child_of_path hq hqpath
      obtain ⟨e, he, -, -, hte, hepath⟩ := below_child_of_path ht htpath
      simp only [Parting.find?, hcnode] at h
      split at h
      · rename_i hslot
        subst hslot
        obtain rfl : c = e := Option.some.inj (hc.symm.trans he)
        have hmem := List.mem_of_getElem? hc
        rw [← directionOf_child p p.position p.start r, ← hctrail] at h
        have hchild : c.node.Layered := hlayered.child (List.mem_of_getElem? hcnode)
        exact (ih hchild hqc hcpath hte hepath h).trans (postorder_sublist_of_mem_children hmem)
      · rename_i hslot
        cases h
        exact sublist_postorder_of_inTurn
          (sublist_inTurn_of_not_early hlayered hc he hqc hlevel hslot hlate) hqc hte

end Place

namespace Node

variable {root : Node} {p q : Place}

/-- What the first characters of a node are asked of: its children, and of a reference that does not
always match nothing its group. -/
inductive Follows (root : Node) : Place → Place → Prop
  | child {p q : Place} : p ∈ root.walk → q ∈ p.children → Follows root p q
  | jump {p q : Place} {ref : GroupRef} : p ∈ root.walk → p.node = .backreference ref →
    root.isEmptyReference p.path ref = false → q ∈ root.walk →
    root.group? ref = some (q.path, q.node) → Follows root p q

/-- When a node of the tree is left, counted from 0 on. -/
def turn (root : Node) (p : Place) : Nat :=
  ((Place.postorder ⟨root, 0, 0, []⟩).map Place.position).idxOf p.position

theorem nodup_turns (root : Node) :
    ((Place.postorder ⟨root, 0, 0, []⟩).map Place.position).Nodup := by
  rw [((Place.postorder_perm _).map Place.position).nodup_iff, Place.map_position_below]
  exact List.nodup_range'

theorem turn_lt_size (hp : p ∈ root.walk) : root.turn p < root.size := by
  have hperm := Place.postorder_perm ⟨root, 0, 0, []⟩
  have hlength : ((Place.postorder ⟨root, 0, 0, []⟩).map Place.position).length = root.size := by
    rw [(hperm.map Place.position).length_eq, Place.map_position_below, List.length_range']
  rw [← hlength, turn, List.idxOf_lt_length_iff]
  exact List.mem_map_of_mem (hperm.mem_iff.2 hp)

theorem turn_lt_of_sublist (h : [q, p].Sublist (Place.postorder ⟨root, 0, 0, []⟩)) :
    root.turn q < root.turn p := by
  obtain ⟨before, after, horder, hq, hp⟩ := List.cons_sublist_iff.1 (h.map Place.position)
  have hp : p.position ∈ after := List.singleton_sublist.1 hp
  have hnodup := nodup_turns root
  rw [horder, List.nodup_append] at hnodup
  have hlater : p.position ∉ before := fun hmem => hnodup.2.2 _ hmem _ hp rfl
  rw [turn, turn, horder, List.idxOf_append_of_mem hq, List.idxOf_append_of_notMem hlater]
  exact Nat.lt_of_lt_of_le (List.idxOf_lt_length_iff.2 hq) (Nat.le_add_right _ _)

/-- A child is left before its parent, and a group before a reference to it. -/
theorem turn_lt_of_follows (hroot : root.IsPattern) (h : root.Follows p q) :
    root.turn q < root.turn p := by
  refine turn_lt_of_sublist ?_
  cases h with
  | child hp hq => exact (Place.child_sublist_postorder hq).trans (Place.postorder_sublist hp)
  | jump hp hnode hempty hq hgroup =>
    unfold isEmptyReference parting? at hempty
    rw [hgroup, Option.bind_eq_bind, Option.bind_some] at hempty
    cases hparting : Parting.find? .forward root p.path q.path with
    | none =>
      simp only [hparting] at hempty
      cases hempty
    | some parting =>
      simp only [hparting] at hempty
      obtain ⟨index, name, ns, -, hchoice⟩ := Regex.at?_of_group? hroot hgroup
      have hlevel : q.node.isClassLevel = false := by rw [hchoice]; rfl
      exact Place.sublist_postorder_of_find? (p := ⟨root, 0, 0, []⟩) hroot.layered hq rfl hlevel hp
        rfl hparting hempty

/-- The same along any number of questions. -/
theorem turn_lt_of_transGen (hroot : root.IsPattern) (h : Relation.TransGen root.Follows p q) :
    root.turn q < root.turn p := by
  induction h with
  | single hstep => exact turn_lt_of_follows hroot hstep
  | tail _ hstep ih => exact Nat.lt_trans (turn_lt_of_follows hroot hstep) ih

/-! ## The analysis of references -/

/-- What a reference consumes first, if that is known of the references in its group. -/
def followed [Properties]
    (root : Node) (flags : Flags) (direction : Direction) (refs : Path → GroupRef → First)
    (path : Path) (ref : GroupRef) : First :=
  match root.group? ref with
  | none => .nothing .anything
  | some (groupPath, group) =>
    if root.isEmptyReference path ref then .nothing .anything
    else
      let x := (first refs flags direction groupPath group).asReference
      if root.isStrictReference path ref then x else x.orNothing

theorem referenced_succ [Properties]
    (root : Node) (flags : Flags) (direction : Direction) (hops : Nat) :
    root.referenced flags direction (hops + 1) =
      root.followed flags direction (root.referenced flags direction hops) := rfl

section
variable {refs refs' : Path → GroupRef → First} {flags : Flags} {direction : Direction}

/-- Two analyses of references agree on those below the end of a way down. -/
def AgreeBelow (refs refs' : Path → GroupRef → First) (path : Path) (n : Node) : Prop :=
  ∀ way ref, n.at? way = some (backreference ref) → refs (path ++ way) ref = refs' (path ++ way) ref

theorem AgreeBelow.child {path : Path} {n c : Node} {i : Nat} (h : AgreeBelow refs refs' path n)
    (hc : n.children[i]? = some c) : AgreeBelow refs refs' (path ++ [i]) c := by
  intro way ref hway
  rw [List.append_assoc]
  exact h (i :: way) ref (by rw [at?, hc]; exact hway)

/-- The children from a slot on. -/
def AgreeFrom (refs refs' : Path → GroupRef → First) (path : Path) (slot : Nat) (ns : List Node) :
    Prop :=
  ∀ i n, ns[i]? = some n → AgreeBelow refs refs' (path ++ [slot + i]) n

theorem AgreeBelow.children {path : Path} {n : Node} (h : AgreeBelow refs refs' path n) :
    AgreeFrom refs refs' path 0 n.children := by
  intro i c hc
  rw [Nat.zero_add]
  exact h.child hc

theorem AgreeFrom.cons {path : Path} {slot : Nat} {n : Node} {ns : List Node}
    (h : AgreeFrom refs refs' path slot (n :: ns)) :
    AgreeBelow refs refs' (path ++ [slot]) n ∧ AgreeFrom refs refs' path (slot + 1) ns := by
  refine ⟨h 0 n rfl, fun i m hm => ?_⟩
  rw [Nat.add_right_comm]
  exact h (i + 1) m hm

mutual

/-- The first characters of a node depend on those of the references in it only. -/
theorem first_congr [Properties] (path : Path) : (n : Node) → AgreeBelow refs refs' path n →
    first refs flags direction path n = first refs' flags direction path n
  | alternative elements, h => by
    rw [first, first, firstRow_congr path 0 elements h.children]
  | choice _ alternatives, h => by
    rw [first, first, firsts_congr path 0 alternatives h.children]
  | quantifier _ _ _ element, h => by
    rw [first, first, first_congr (path ++ [0]) element (h.child rfl)]
  | look _ _ alternatives, h => by
    rw [first, first, firsts_congr path 0 alternatives h.children]
  | backreference ref, h => by
    have hhere := h [] ref rfl
    rw [List.append_nil] at hhere
    rw [first, first, hhere]
  | edge _, _ | strings _, _ | string _, _ | character _, _ | range .., _ | shorthand _, _
  | charClass .., _ | classExpression .., _ | classOperation .., _ => by
    rw [first, first]

theorem firsts_congr [Properties] (path : Path) (slot : Nat) : (ns : List Node) →
    AgreeFrom refs refs' path slot ns →
    firsts refs flags direction path slot ns = firsts refs' flags direction path slot ns
  | [], _ => rfl
  | n :: ns, h => by
    rw [firsts, firsts, first_congr (path ++ [slot]) n h.cons.1,
      firsts_congr path (slot + 1) ns h.cons.2]

theorem firstRow_congr [Properties] (path : Path) (slot : Nat) : (ns : List Node) →
    AgreeFrom refs refs' path slot ns → ∀ before,
    firstRow refs flags direction path slot ns before =
      firstRow refs' flags direction path slot ns before
  | [], _, _ => rfl
  | n :: ns, h, before => by
    have hfirst := first_congr (path ++ [slot]) n h.cons.1
    have hmore := firstRow_congr path (slot + 1) ns h.cons.2
    cases direction with
    | forward => rw [firstRow, firstRow, hfirst, hmore]
    | backward => rw [firstRow, firstRow, hfirst, hmore]

end

theorem turn_le_of_mem_below (hq : q ∈ root.walk) (hp : p ∈ q.below) : root.turn p ≤ root.turn q := by
  have hmem : p ∈ q.inTurn.flatMap Place.postorder ++ [q] :=
    q.postorder_eq ▸ q.postorder_perm.mem_iff.2 hp
  rcases List.mem_append.1 hmem with hmem | hmem
  · have hpair : [p, q].Sublist q.postorder := by
      rw [q.postorder_eq]
      exact (List.singleton_sublist.2 hmem).append (.refl [q])
    exact Nat.le_of_lt (turn_lt_of_sublist (hpair.trans (Place.postorder_sublist hq)))
  · rw [List.mem_singleton.1 hmem]

theorem mem_walk_of_mem_below (hq : q ∈ root.walk) (hp : p ∈ q.below) : p ∈ root.walk :=
  Place.forall_below (P := (· ∈ root.walk))
    (fun _ ht _ hc => Place.mem_below_of_mem_children (p := ⟨root, 0, 0, []⟩) ht hc) hq p hp

variable [Properties]

/-- What a reference consumes first depends on references that are left before it only. -/
theorem followed_congr (hroot : root.IsPattern) {ref : GroupRef} (hp : p ∈ root.walk)
    (hnode : p.node = .backreference ref)
    (h : ∀ q ∈ root.walk, ∀ ref', q.node = .backreference ref' → root.turn q < root.turn p →
      refs q.path ref' = refs' q.path ref') :
    root.followed flags direction refs p.path ref = root.followed flags direction refs' p.path ref := by
  unfold followed
  cases hgroup : root.group? ref with
  | none => rfl
  | some found =>
    obtain ⟨groupPath, group⟩ := found
    cases hempty : root.isEmptyReference p.path ref with
    | true => rfl
    | false =>
      have hwalk := hgroup
      rw [group?_walk hroot.layered] at hwalk
      obtain ⟨q, hfind, hq⟩ := Option.map_eq_some_iff.1 hwalk
      cases hq
      have hq := List.mem_of_find?_eq_some hfind
      have hturn := turn_lt_of_follows hroot (.jump hp hnode hempty hq hgroup)
      have hagree : AgreeBelow refs refs' q.path q.node := by
        intro way ref' hway
        obtain ⟨t, ht, htnode, hpath⟩ := Place.exists_below_of_at? hway
        rw [← hpath]
        exact h t (mem_walk_of_mem_below hq ht) ref' htnode
          (Nat.lt_of_le_of_lt (turn_le_of_mem_below hq ht) hturn)
      simp only [first_congr q.path q.node hagree]

/-- One jump more changes nothing if there are more jumps than nodes that are left before. -/
theorem referenced_succ_eq (hroot : root.IsPattern) {hops : Nat} {ref : GroupRef}
    (hp : p ∈ root.walk) (hnode : p.node = .backreference ref) (hhops : root.turn p < hops) :
    root.referenced flags direction (hops + 1) p.path ref =
      root.referenced flags direction hops p.path ref := by
  -- A jump leads to references that are left earlier, for which one jump less is enough.
  induction hops generalizing p ref with
  | zero => cases hhops
  | succ hops ih =>
    rw [referenced_succ, referenced_succ]
    refine followed_congr hroot hp hnode fun q hq ref' hqnode hlt => ih hq hqnode ?_
    exact Nat.lt_of_lt_of_le hlt (Nat.le_of_lt_succ hhops)

/-- Whatever solves the equation is what is found with enough jumps. -/
theorem referenced_eq (hroot : root.IsPattern) {hops : Nat}
    (hrefs : ∀ p ∈ root.walk, ∀ ref, p.node = .backreference ref →
      refs p.path ref = root.followed flags direction refs p.path ref)
    {ref : GroupRef} (hp : p ∈ root.walk) (hnode : p.node = .backreference ref)
    (hhops : root.turn p < hops) :
    root.referenced flags direction hops p.path ref = refs p.path ref := by
  induction hops generalizing p ref with
  | zero => cases hhops
  | succ hops ih =>
    rw [referenced_succ, hrefs p hp ref hnode]
    refine followed_congr hroot hp hnode fun q hq ref' hqnode hlt => ih hq hqnode ?_
    exact Nat.lt_of_lt_of_le hlt (Nat.le_of_lt_succ hhops)

end

end Node

namespace Regex

open Node

variable {source : List Char} {letters flags : Flags} {r : Regex} {direction : Direction}

/-- The number of jumps does not run out. -/
theorem references_eq_followed [Properties]
    (h : Regex.parse source letters = .ok r) {p : Place} {ref : GroupRef}
    (hp : p ∈ r.walk) (hnode : p.node = .backreference ref) :
    r.references flags direction p.path ref =
      r.root.followed flags direction (r.references flags direction) p.path ref :=
  (referenced_succ_eq (parse_source h).2.2.1 hp hnode (turn_lt_size hp)).symm

/-- What the first characters of a node are asked of comes before it in the order in which nodes are
left, elements of an alternative in the direction it is matched in. So no question leads back to where
it was asked, and none leads on for ever: the analysis of references solves its equation, and what else
solves it gives the same first characters to all nodes, in both directions. -/
theorem follows_ends [Properties] (h : Regex.parse source letters = .ok r) :
    (Place.postorder ⟨r.root, 0, 0, []⟩).Perm r.walk ∧
    (∀ p q, r.root.Follows p q → r.root.turn q < r.root.turn p) ∧
    (∀ p, ¬Relation.TransGen r.root.Follows p p) ∧
    (WellFounded fun q p => r.root.Follows p q) ∧
    ∀ flags direction,
      (∀ p ∈ r.walk, ∀ ref, p.node = .backreference ref →
        r.references flags direction p.path ref =
          r.root.followed flags direction (r.references flags direction) p.path ref) ∧
      ∀ refs, (∀ p ∈ r.walk, ∀ ref, p.node = .backreference ref →
          refs p.path ref = r.root.followed flags direction refs p.path ref) →
        ∀ p ∈ r.walk, p.node.first refs flags direction p.path = r.first flags direction p := by
  have hroot := (parse_source h).2.2.1
  have hturn {p q : Place} (hpq : r.root.Follows p q) : r.root.turn q < r.root.turn p :=
    turn_lt_of_follows hroot hpq
  refine ⟨Place.postorder_perm _, fun p q => hturn, fun p hcircle => ?_, ?_, fun flags direction =>
    ⟨fun p hp ref hnode => references_eq_followed h hp hnode, fun refs hrefs p hp => ?_⟩⟩
  · exact Nat.lt_irrefl _ (turn_lt_of_transGen hroot hcircle)
  · exact Subrelation.wf hturn (measure r.root.turn).wf
  · refine first_congr p.path p.node fun way ref hway => ?_
    obtain ⟨q, hq, hnode, hpath⟩ := Place.exists_below_of_at? hway
    have hmem := mem_walk_of_mem_below hp hq
    rw [← hpath]
    exact (referenced_eq hroot hrefs hmem hnode (turn_lt_size hmem)).symm

/-- In `(?<=\1(a))` the reference stands before its group and is matched after it: it follows the
group, which is left first, and consumes what the group does. -/
theorem follows_ends_lookbehind :
    let source := ['(', '?', '<', '=', '\\', '1', '(', 'a', ')', ')']
    let group : Node := .choice (.capture 1 none) [.alternative [.character ⟨97, ['a']⟩]]
    let inside : Node := .alternative [.backreference (.index 1), group]
    let r : Regex :=
      ⟨source, .empty, .choice .whole [.alternative [.look .backward false [inside]]]⟩
    Regex.parse source .empty = .ok r ∧
      ∃ p ∈ r.walk, ∃ q ∈ r.walk, p.node = .backreference (.index 1) ∧ q.node = group ∧
        r.root.Follows p q ∧ r.root.turn q < r.root.turn p ∧
        r.references .empty .backward p.path (.index 1) =
          r.root.followed .empty .backward (r.references .empty .backward) p.path (.index 1) := by
  intro source group inside r
  have hparse : Regex.parse source .empty = .ok r := rfl
  have hends := follows_ends hparse
  obtain ⟨p, hp, hnode, hpath⟩ : ∃ p ∈ r.walk, p.node = .backreference (.index 1) ∧
      p.path = [0, 0, 0, 0] := ⟨_, List.mem_of_getElem? (i := 4) rfl, rfl, rfl⟩
  obtain ⟨q, hq, hgroup, hqpath⟩ : ∃ q ∈ r.walk, q.node = group ∧ q.path = [0, 0, 0, 1] :=
    ⟨_, List.mem_of_getElem? (i := 5) rfl, rfl, rfl⟩
  have hfollows : r.root.Follows p q :=
    .jump hp hnode (by rw [hpath]; rfl) hq (by rw [hqpath, hgroup]; rfl)
  exact ⟨hparse, p, hp, q, hq, hnode, hgroup, hfollows, hends.2.1 p q hfollows,
    (hends.2.2.2.2 .empty .backward).1 p hp _ hnode⟩

end Regex

end RegexAudit
