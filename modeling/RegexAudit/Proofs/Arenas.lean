import RegexAudit.Proofs.Lexemes
import RegexAudit.Proofs.Trees
import RegexAudit.Syntax.Arena
import RegexAudit.Syntax.Class

/-!
# Trees in an arena

Entries spell out a tree if they hold its nodes, with their children and parents by number and with
the stretches of the source that follow from the widths of the texts (`Stands`). A parser adds such
entries at the end of those it has (`Adds`), and this is what each way of adding them comes to.
-/

namespace RegexAudit.Arena

/-- An entry holds a node, with its children by number. -/
inductive Content.Stores : Content → Node → List NodeId → Prop
  | choice (frame : Frame) (ns : List Node) (ids : List NodeId) :
    Stores (.choice frame ids) (.choice frame ns) ids
  | look (direction : Direction) (negate : Bool) (ns : List Node) (ids : List NodeId) :
    Stores (.look direction negate ids) (.look direction negate ns) ids
  | alternative (ns : List Node) (ids : List NodeId) :
    Stores (.alternative ids) (.alternative ns) ids
  | quantifier {bounds : Bounds} {greedy : Bool} {lexeme : List Char} (n : Node) (id : NodeId) :
    Lexeme.Quantifies lexeme (bounds, greedy) [] →
      Stores (.quantifier bounds.min bounds.max greedy id) (.quantifier bounds greedy lexeme n) [id]
  | edge (e : Edge) : Stores (.edge e) (.edge e) []
  | backreference (ref : GroupRef) (resolved : Option NodeId) :
    Stores (.backreference ref resolved) (.backreference ref) []
  | character (value : Nat) (lexeme : List Char) :
    Stores (.character value) (.character ⟨value, lexeme⟩) []
  | range (a b : Letter) (i j : NodeId) : Stores (.range i j) (.range a b) [i, j]
  | shorthand (set : Shorthand) : Stores (.shorthand set) (.shorthand set) []
  | charClass (negate unicodeSets : Bool) (ns : List Node) (ids : List NodeId) :
    Stores (.charClass negate unicodeSets ids) (.charClass negate unicodeSets ns) ids
  | classExpression (negate : Bool) (n : Node) (id : NodeId) :
    Stores (.classExpression negate id) (.classExpression negate n) [id]
  | classOperation (operator : SetOperator) (left right : Node) (i j : NodeId) :
    Stores (.classOperation operator i j) (.classOperation operator left right) [i, j]
  | strings (alternatives : List (List Letter)) (ids : List NodeId) :
    Stores (.strings ids) (.strings alternatives) ids
  | string (letters : List Letter) (ids : List NodeId) : Stores (.string ids) (.string letters) ids

theorem Content.Stores.children {content : Content} {n : Node} {ids : List NodeId}
    (h : content.Stores n ids) : content.children = ids := by
  cases h <;> rfl

theorem Content.Stores.value?_character {content : Content} {letter : Letter} {ids : List NodeId}
    (h : content.Stores (.character letter) ids) : content.value? = some letter.value := by
  cases h
  rfl

theorem Content.Stores.value?_eq_none {content : Content} {n : Node} {ids : List NodeId}
    (h : content.Stores n ids) (hn : ∀ letter, n ≠ .character letter) : content.value? = none := by
  cases h with
  | character value lexeme => exact absurd rfl (hn ⟨value, lexeme⟩)
  | _ => rfl

theorem Content.Stores.isRange {content : Content} {n : Node} {ids : List NodeId}
    (h : content.Stores n ids) : content.isRange = Class.isRange n := by
  cases h <;> rfl

mutual

/-- Entry `id` holds a node whose text starts at byte `start`, and other entries hold the nodes
below it; `ids` are their numbers, parents before children. -/
inductive Stands (nodes : List Entry) :
    (parent : Option NodeId) → (start : Nat) → Node → NodeId → (ids : List NodeId) → Prop
  | node {parent : Option NodeId} {start : Nat} {n : Node} {id : NodeId} {content : Content}
      {children ids : List NodeId} :
    nodes[id]? = some ⟨content, parent, start, start + n.width⟩ → content.Stores n children →
    StandAll nodes id (Text.width n.separator) (start + Text.width n.opening) n.children
      children ids →
    Stands nodes parent start n id (id :: ids)

/-- Entries hold nodes with the same parent whose texts stand in a row, `gap` bytes apart. -/
inductive StandAll (nodes : List Entry) : (parent : NodeId) → (gap start : Nat) → List Node →
    (children ids : List NodeId) → Prop
  | nil {parent : NodeId} {gap start : Nat} : StandAll nodes parent gap start [] [] []
  | cons {parent : NodeId} {gap start : Nat} {n : Node} {ns : List Node} {id : NodeId}
      {children front back : List NodeId} :
    Stands nodes (some parent) start n id front →
    StandAll nodes parent gap (start + n.width + gap) ns children back →
    StandAll nodes parent gap start (n :: ns) (id :: children) (front ++ back)

end

section
variable {nodes nodes' : List Entry} {parent : Option NodeId} {p q : NodeId} {gap start : Nat}
  {n : Node} {ns ms : List Node} {id : NodeId} {children ids : List NodeId}

theorem Stands.mem_self (h : Stands nodes parent start n id ids) : id ∈ ids := by
  cases h
  exact List.mem_cons_self

theorem StandAll.children_subset (h : StandAll nodes p gap start ns children ids) :
    ∀ i ∈ children, i ∈ ids := by
  induction ns generalizing start children ids with
  | nil =>
    cases h
    simp
  | cons n ns ih =>
    obtain _ | ⟨hfirst, hrest⟩ := h
    rw [List.forall_mem_cons]
    exact ⟨List.mem_append_left _ hfirst.mem_self, fun i hi =>
      List.mem_append_right _ (ih hrest i hi)⟩

mutual

/-- Only the entries of the tree matter. -/
theorem Stands.congr {parent : Option NodeId} {start : Nat} {n : Node} {id : NodeId}
    {ids : List NodeId} : Stands nodes parent start n id ids →
      (∀ i ∈ ids, nodes'[i]? = nodes[i]?) → Stands nodes' parent start n id ids
  | .node hentry hstores hbelow, hsame =>
    .node ((hsame _ List.mem_cons_self).trans hentry) hstores
      (hbelow.congr fun i hi => hsame i (List.mem_cons_of_mem _ hi))

theorem StandAll.congr {p : NodeId} {gap start : Nat} {ns : List Node}
    {children ids : List NodeId} :
    StandAll nodes p gap start ns children ids →
      (∀ i ∈ ids, nodes'[i]? = nodes[i]?) → StandAll nodes' p gap start ns children ids
  | .nil, _ => .nil
  | .cons hfirst hrest, hsame =>
    .cons (hfirst.congr fun i hi => hsame i (List.mem_append_left _ hi))
      (hrest.congr fun i hi => hsame i (List.mem_append_right _ hi))

end

/-- Nodes in a row that are handed to another parent. -/
theorem StandAll.reparent (h : StandAll nodes p gap start ns children ids) (hnodup : ids.Nodup)
    (hchildren : ∀ i ∈ children, nodes'[i]? = nodes[i]?.map fun e => { e with parent := some q })
    (hbelow : ∀ i ∈ ids, i ∉ children → nodes'[i]? = nodes[i]?) :
    StandAll nodes' q gap start ns children ids := by
  induction ns generalizing start children ids with
  | nil =>
    cases h
    exact .nil
  | cons n ns ih =>
    obtain _ | ⟨hfirst, hrest⟩ := h
    rename_i id children front back
    obtain ⟨-, hback, hdisjoint⟩ := List.nodup_append.1 hnodup
    have hnot {i : NodeId} (hi : i ∈ front) : i ∉ children := fun hchild =>
      hdisjoint i hi i (hrest.children_subset i hchild) rfl
    rw [List.forall_mem_cons] at hchildren
    refine .cons ?_ (ih hrest hback hchildren.2 fun i hi hchild =>
      hbelow i (List.mem_append_right _ hi) fun hmem => ?_)
    · obtain ⟨hentry, hstores, hstand⟩ := hfirst
      rename_i content grandchildren ids
      refine .node ?_ hstores (hstand.congr fun i hi => ?_)
      · rw [hchildren.1, hentry]
        rfl
      · have hfront : i ∈ id :: ids := List.mem_cons_of_mem _ hi
        refine hbelow i (List.mem_append_left _ hfront) fun hmem => ?_
        rcases List.mem_cons.1 hmem with rfl | hchild
        · exact (List.nodup_cons.1 (List.nodup_append.1 hnodup).1).1 hi
        · exact hnot hfront hchild
    · rcases List.mem_cons.1 hmem with rfl | hmem
      · exact hdisjoint i hfirst.mem_self i hi rfl
      · exact hchild hmem

end

/-! ## Numbers of entries -/

/-- The node is a reference to a group. -/
def Content.isReference : Content → Bool
  | backreference .. => true
  | _ => false

/-- Entry `i` holds a reference. -/
def refers (entries : List Entry) (i : NodeId) : Bool :=
  entries[i]?.any fun e => e.content.isReference

/-- These are the numbers of the `m` entries from `k` on. Those of references are in order: a
reference is never handed to another entry before what is left of it. -/
structure Lists (entries : List Entry) (k m : Nat) (ids : List NodeId) : Prop where
  perm : ids.Perm (List.range' k m)
  ordered : (ids.filter (refers entries)).Pairwise (· < ·)

section
variable {entries entries' : List Entry} {k m m' : Nat} {ids ids' : List NodeId}

theorem Lists.mem_iff (h : Lists entries k m ids) {i : NodeId} : i ∈ ids ↔ k ≤ i ∧ i < k + m :=
  h.perm.mem_iff.trans List.mem_range'_1

theorem lists_nil (entries : List Entry) (k : Nat) : Lists entries k 0 [] := ⟨.refl _, .nil⟩

/-- An entry that comes before all others. -/
theorem Lists.cons (h : Lists entries (k + 1) m ids) : Lists entries k (m + 1) (k :: ids) := by
  constructor
  · rw [List.range'_succ]
    exact h.perm.cons k
  · rw [List.filter_cons]
    split
    · refine List.pairwise_cons.2 ⟨fun i hi => ?_, h.ordered⟩
      exact (h.mem_iff.1 (List.mem_filter.1 hi).1).1
    · exact h.ordered

/-- An entry that is no reference may come after those below it. -/
theorem Lists.cons_last (h : Lists entries k m ids) (hplain : refers entries (k + m) = false) :
    Lists entries k (m + 1) ((k + m) :: ids) := by
  constructor
  · rw [List.range'_1_concat]
    exact (h.perm.cons _).trans (List.perm_append_singleton _ _).symm
  · rw [List.filter_cons, hplain]
    exact h.ordered

theorem Lists.append (h : Lists entries k m ids) (h' : Lists entries (k + m) m' ids') :
    Lists entries k (m + m') (ids ++ ids') := by
  constructor
  · rw [← List.range'_append_1]
    exact h.perm.append h'.perm
  · rw [List.filter_append, List.pairwise_append]
    refine ⟨h.ordered, h'.ordered, fun i hi j hj => ?_⟩
    exact Nat.lt_of_lt_of_le (h.mem_iff.1 (List.mem_filter.1 hi).1).2
      (h'.mem_iff.1 (List.mem_filter.1 hj).1).1

/-- Only what the entries hold matters, and of that whether it is a reference. -/
theorem Lists.congr (h : Lists entries k m ids)
    (hsame : ∀ i ∈ ids, refers entries' i = refers entries i) :
    Lists entries' k m ids :=
  ⟨h.perm, by rw [List.filter_congr hsame]; exact h.ordered⟩

end

/-! ## Adding entries -/

/-- A node was added: the entries before are as they were, and behind them are those of its tree. -/
structure Adds (before after : List Entry) (parent : Option NodeId) (start : Nat) (n : Node)
    (id : NodeId) : Prop where
  kept : ∀ i < before.length, after[i]? = before[i]?
  length : after.length = before.length + n.size
  stands : ∃ ids, Stands after parent start n id ids ∧ Lists after before.length n.size ids

/-- Nodes in a row were added. -/
structure AddsAll (before after : List Entry) (parent : NodeId) (gap start : Nat) (ns : List Node)
    (children : List NodeId) : Prop where
  kept : ∀ i < before.length, after[i]? = before[i]?
  length : after.length = before.length + Node.sizeAll ns
  stands : ∃ ids, StandAll after parent gap start ns children ids ∧
    Lists after before.length (Node.sizeAll ns) ids

section
variable {before middle after : List Entry} {parent : Option NodeId} {p : NodeId} {gap start : Nat}
  {n : Node} {ns ms : List Node} {id : NodeId} {children children' ids : List NodeId}
  {content : Content}

/-- Adding more does not touch what was added. -/
theorem StandAll.kept {k m : Nat} (h : StandAll middle p gap start ns children ids)
    (hids : Lists middle k m ids) (hlength : k + m ≤ middle.length)
    (hkept : ∀ i < middle.length, after[i]? = middle[i]?) :
    StandAll after p gap start ns children ids :=
  h.congr fun i hi => hkept i (Nat.lt_of_lt_of_le (hids.mem_iff.1 hi).2 hlength)

theorem Stands.kept {k m : Nat} (h : Stands middle parent start n id ids)
    (hids : Lists middle k m ids) (hlength : k + m ≤ middle.length)
    (hkept : ∀ i < middle.length, after[i]? = middle[i]?) : Stands after parent start n id ids :=
  h.congr fun i hi => hkept i (Nat.lt_of_lt_of_le (hids.mem_iff.1 hi).2 hlength)

theorem Lists.kept {k m : Nat} (h : Lists middle k m ids) (hlength : k + m ≤ middle.length)
    (hkept : ∀ i < middle.length, after[i]? = middle[i]?) : Lists after k m ids :=
  h.congr fun i hi => by
    rw [refers, refers, hkept i (Nat.lt_of_lt_of_le (h.mem_iff.1 hi).2 hlength)]

theorem addsAll_nil (entries : List Entry) (p : NodeId) (gap start : Nat) :
    AddsAll entries entries p gap start [] [] :=
  ⟨fun _ _ => rfl, rfl, [], .nil, lists_nil entries _⟩

theorem Adds.cons (h : Adds before middle (some p) start n id)
    (h' : AddsAll middle after p gap (start + n.width + gap) ns children) :
    AddsAll before after p gap start (n :: ns) (id :: children) := by
  obtain ⟨front, hfirst, hfront⟩ := h.stands
  obtain ⟨back, hrest, hback⟩ := h'.stands
  have hlength := Nat.le_of_eq h.length.symm
  refine ⟨fun i hi => ?_, ?_, front ++ back, .cons (hfirst.kept hfront hlength h'.kept) hrest, ?_⟩
  · rw [h'.kept i (by omega), h.kept i hi]
  · rw [h'.length, h.length, Node.sizeAll, Nat.add_assoc]
  · rw [h.length] at hback
    exact (hfront.kept hlength h'.kept).append hback

theorem Adds.single (h : Adds before after (some p) start n id) :
    AddsAll before after p gap start [n] [id] := h.cons (addsAll_nil after p gap _)

theorem widthAll_cons (n : Node) (ns : List Node) :
    Node.widthAll 0 (n :: ns) = n.width + Node.widthAll 0 ns := by
  cases ns with
  | nil => rw [Node.widthAll, Node.widthAll, Nat.add_zero]
  | cons m ns => rw [Node.widthAll, Nat.add_zero]

theorem StandAll.append {nodes : List Entry} {ids' : List NodeId}
    (h : StandAll nodes p 0 start ns children ids)
    (h' : StandAll nodes p 0 (start + Node.widthAll 0 ns) ms children' ids') :
    StandAll nodes p 0 start (ns ++ ms) (children ++ children') (ids ++ ids') := by
  induction ns generalizing start children ids with
  | nil =>
    cases h
    exact h'
  | cons n ns ih =>
    obtain _ | ⟨hfirst, hrest⟩ := h
    rw [widthAll_cons, ← Nat.add_assoc] at h'
    rw [List.append_assoc]
    exact .cons hfirst (ih hrest h')

theorem sizeAll_append (ns ms : List Node) :
    Node.sizeAll (ns ++ ms) = Node.sizeAll ns + Node.sizeAll ms := by
  induction ns with
  | nil => rw [List.nil_append, Node.sizeAll, Nat.zero_add]
  | cons n ns ih => rw [List.cons_append, Node.sizeAll, Node.sizeAll, ih, Nat.add_assoc]

theorem widthAll_append (ns ms : List Node) :
    Node.widthAll 0 (ns ++ ms) = Node.widthAll 0 ns + Node.widthAll 0 ms := by
  induction ns with
  | nil => rw [List.nil_append, Node.widthAll, Nat.zero_add]
  | cons n ns ih => rw [List.cons_append, widthAll_cons, widthAll_cons, ih, Nat.add_assoc]

theorem AddsAll.append (h : AddsAll before middle p 0 start ns children)
    (h' : AddsAll middle after p 0 (start + Node.widthAll 0 ns) ms children') :
    AddsAll before after p 0 start (ns ++ ms) (children ++ children') := by
  obtain ⟨front, hfirst, hfront⟩ := h.stands
  obtain ⟨back, hrest, hback⟩ := h'.stands
  have hlength := Nat.le_of_eq h.length.symm
  refine ⟨fun i hi => ?_, ?_, front ++ back, (hfirst.kept hfront hlength h'.kept).append hrest, ?_⟩
  · rw [h'.kept i (by omega), h.kept i hi]
  · rw [h'.length, h.length, sizeAll_append, Nat.add_assoc]
  · rw [h.length] at hback
    rw [sizeAll_append]
    exact (hfront.kept hlength h'.kept).append hback

theorem Adds.entry (h : Adds before after parent start n id) : ∃ content children,
    after[id]? = some ⟨content, parent, start, start + n.width⟩ ∧ content.Stores n children := by
  obtain ⟨ids, hstand, -⟩ := h.stands
  obtain ⟨hentry, hstores, -⟩ := hstand
  exact ⟨_, _, hentry, hstores⟩

theorem Adds.lt_length (h : Adds before after parent start n id) : id < after.length := by
  obtain ⟨content, children, hentry, -⟩ := h.entry
  exact (List.getElem?_eq_some_iff.1 hentry).1

theorem stands_leaf (entries : List Entry) (parent : Option NodeId) (start : Nat)
    (hstores : content.Stores n []) (hn : n.children = []) :
    Stands (entries ++ [⟨content, parent, start, start + n.width⟩]) parent start n entries.length
      [entries.length] := by
  refine .node (by simp) hstores ?_
  rw [hn]
  exact .nil

/-- A node without children is one entry. -/
theorem adds_leaf (entries : List Entry) (parent : Option NodeId) (start : Nat)
    (hstores : content.Stores n []) (hn : n.children = []) :
    Adds entries (entries ++ [⟨content, parent, start, start + n.width⟩]) parent start n
      entries.length := by
  have hsize : n.size = 1 := by rw [Node.size_eq, hn, Node.sizeAll]
  refine ⟨fun i hi => List.getElem?_append_left hi, by simp [hsize], [entries.length],
    stands_leaf entries parent start hstores hn, ?_⟩
  rw [hsize]
  exact (lists_nil _ _).cons

/-- A node that is completed when its children have been added after it. -/
theorem AddsAll.complete {e : Entry} {f : Entry → Entry}
    (h : AddsAll (before ++ [e]) after before.length (Text.width n.separator)
      (start + Text.width n.opening) n.children children) (hstores : content.Stores n children)
    (he : f e = ⟨content, parent, start, start + n.width⟩) :
    Adds before (after.modify before.length f) parent start n before.length := by
  obtain ⟨ids, hstand, hids⟩ := h.stands
  have hlength := h.length
  have hsize := n.size_eq
  rw [List.length_append, List.length_singleton] at hids hlength
  have hself : after[before.length]? = some e := by
    rw [h.kept _ (by simp)]
    simp
  have hother {i : NodeId} (hi : i ∈ ids) : (after.modify before.length f)[i]? = after[i]? :=
    List.getElem?_modify_ne _ _ (Nat.ne_of_lt (hids.mem_iff.1 hi).1)
  refine ⟨fun i hi => ?_, ?_, before.length :: ids,
    .node ?_ hstores (hstand.congr fun i => hother), ?_⟩
  · rw [List.getElem?_modify_ne _ _ (Nat.ne_of_gt hi), h.kept i (by simp; omega),
      List.getElem?_append_left hi]
  · rw [List.length_modify, hlength]
    omega
  · rw [List.getElem?_modify_eq, hself, ← he]
    rfl
  · rw [hsize]
    exact (hids.congr fun i hi => by rw [refers, refers, hother hi]).cons

theorem AddsAll.child_mem (h : AddsAll before after p gap start ns children) {i : NodeId}
    (hi : i ∈ children) : before.length ≤ i ∧ i < after.length := by
  obtain ⟨ids, hstand, hids⟩ := h.stands
  rw [h.length]
  exact hids.mem_iff.1 (hstand.children_subset i hi)

/-- Entries handed to another parent. -/
def adopted (q : NodeId) (children : List NodeId) (entries : List Entry) : List Entry :=
  children.foldl (fun entries i => entries.modify i fun e => { e with parent := some q }) entries

theorem getElem?_adopted (q : NodeId) (children : List NodeId) (entries : List Entry) (i : NodeId) :
    (adopted q children entries)[i]?
      = if i ∈ children then entries[i]?.map fun e => { e with parent := some q }
        else entries[i]? := by
  induction children generalizing entries with
  | nil => simp [adopted]
  | cons c children ih =>
    rw [adopted, List.foldl_cons, ← adopted, ih, List.getElem?_modify]
    by_cases hc : c = i
    · subst hc
      cases entries[c]? <;> simp
    · simp [hc, Ne.symm hc]

theorem length_adopted (q : NodeId) (children : List NodeId) (entries : List Entry) :
    (adopted q children entries).length = entries.length := by
  induction children generalizing entries with
  | nil => rfl
  | cons c children ih => rw [adopted, List.foldl_cons, ← adopted, ih, List.length_modify]

/-- A node with children is no reference. -/
theorem Content.Stores.isReference_eq_false (h : content.Stores n children) (hn : n.children ≠ []) :
    content.isReference = false := by
  cases h with
  | backreference ref resolved => exact absurd rfl hn
  | _ => rfl

/-- A node that is added after its children, which are handed to it. -/
theorem AddsAll.adopt
    (h : AddsAll before after p (Text.width n.separator) (start + Text.width n.opening) n.children
      children) (hstores : content.Stores n children) (hn : n.children ≠ []) :
    Adds before
      (adopted after.length children (after ++ [⟨content, parent, start, start + n.width⟩])) parent
      start n after.length := by
  obtain ⟨ids, hstand, hids⟩ := h.stands
  have hlength := h.length
  have hsize := n.size_eq
  have hchildren {i : Nat} (hi : i ∈ children) := h.child_mem hi
  generalize hentry : (⟨content, parent, start, start + n.width⟩ : Entry) = e
  have hother {i : Nat} (hi : i < after.length) (hchild : i ∉ children) :
      (adopted after.length children (after ++ [e]))[i]? = after[i]? := by
    rw [getElem?_adopted, if_neg hchild, List.getElem?_append_left hi]
  have hchild {i : Nat} (hi : i ∈ children) : (adopted after.length children (after ++ [e]))[i]?
      = after[i]?.map fun e => { e with parent := some after.length } := by
    rw [getElem?_adopted, if_pos hi, List.getElem?_append_left (hchildren hi).2]
  have hself : (adopted after.length children (after ++ [e]))[after.length]? = some e := by
    rw [getElem?_adopted, if_neg fun hchild => Nat.lt_irrefl _ (hchildren hchild).2]
    simp
  have hbelow {i : Nat} (hi : i ∈ ids) : i < after.length := by
    rw [hlength]
    exact (hids.mem_iff.1 hi).2
  refine ⟨fun i hi => ?_, ?_, after.length :: ids, .node ?_ hstores ?_, ?_⟩
  · rw [hother (by omega) fun hchild => Nat.not_lt.2 (hchildren hchild).1 hi, h.kept i hi]
  · rw [length_adopted, List.length_append, List.length_singleton]
    omega
  · rw [hself, hentry]
  · exact hstand.reparent (hids.perm.nodup_iff.2 List.nodup_range') (fun i hi => hchild hi)
      fun i hi => hother (hbelow hi)
  · rw [hsize, hlength]
    rw [hlength] at hself
    refine (hids.congr fun i hi => ?_).cons_last ?_
    · rw [refers, refers]
      by_cases hi' : i ∈ children
      · rw [← hlength, hchild hi', Option.any_map]
      · rw [← hlength, hother (hbelow hi) hi']
    · rw [refers, hself, ← hentry]
      exact hstores.isReference_eq_false hn

/-- Two nodes, and one that stands between them but is added after them. -/
theorem Adds.between {m : Node} {left right : NodeId} (h : Adds before middle (some p) start n left)
    {between : Node} (hstores : content.Stores between []) (hbetween : between.children = [])
    (hplain : content.isReference = false)
    (h' : Adds middle after (some p) (start + n.width + between.width) m right) :
    AddsAll before
      (after ++ [⟨content, some p, start + n.width, start + n.width + between.width⟩]) p 0 start
      [n, between, m] [left, after.length, right] := by
  obtain ⟨front, hfirst, hfront⟩ := h.stands
  obtain ⟨back, hlast, hback⟩ := h'.stands
  have hlength := h.length
  have hlength' := h'.length
  have hleaf := stands_leaf after (some p) (start + n.width) hstores hbetween
  have hsize : Node.sizeAll [n, between, m] = n.size + (m.size + 1) := by
    simp only [Node.sizeAll, Node.size_eq between, hbetween]
    omega
  generalize hentry :
    (⟨content, some p, start + n.width, start + n.width + between.width⟩ : Entry) = e
    at hleaf ⊢
  have hkept (i : Nat) (hi : i < after.length) : (after ++ [e])[i]? = after[i]? :=
    List.getElem?_append_left hi
  have hself : refers (after ++ [e]) after.length = false := by
    rw [refers, List.getElem?_concat_length, ← hentry]
    exact hplain
  refine ⟨fun i hi => ?_, ?_, front ++ ([after.length] ++ (back ++ [])),
    .cons ?_ (.cons hleaf (.cons ?_ .nil)), ?_⟩
  · rw [hkept i (by omega), h'.kept i (by omega), h.kept i hi]
  · rw [List.length_append, List.length_singleton, hsize]
    omega
  · exact (hfirst.kept hfront (by omega) h'.kept).kept (hfront.kept (by omega) h'.kept) (by omega)
      hkept
  · exact hlast.kept hback (by omega) hkept
  · have hfront := (hfront.kept (by omega) h'.kept).kept (by omega) hkept
    have hback := hback.kept (by omega) hkept
    rw [hlength'] at hself
    have hboth := hback.cons_last hself
    rw [hlength] at hboth
    rw [hsize, List.append_nil, List.singleton_append, hlength', hlength]
    exact hfront.append hboth

end

end RegexAudit.Arena
