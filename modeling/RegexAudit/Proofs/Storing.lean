import RegexAudit.Proofs.Arenas
import RegexAudit.Proofs.Cursors
import RegexAudit.Proofs.ParsedClasses
import RegexAudit.Syntax.Parser

/-!
# Storing nodes

The parser of `Syntax.Parser` against the readers of trees. What an action comes to refines what a
reader gives if it stops with the same fault, or else leaves a state that goes with what was read:

    Refines source R (reader r) (action.run (s.goTo source r))

Refinements compose as readers and actions do (`Refines.bind`). For a node that was read, the state
has its entries behind those from before, and the parser stands where the text of the node ends
(`Added`).
-/

namespace RegexAudit

open Arena (Content Entry Adds AddsAll)

namespace Parser

/-! ## Refinement -/

section
variable {α α' β β' ρ ρ' : Type} {source : List Char}

/-- What an action comes to refines what a reader gives, which has something read and what is
left. -/
def Refines (source : List Char) (R : β → ρ → α → Parser → Prop) :
    Except Fault (β × ρ) → Except Stop (α × Parser) → Prop
  | .error f, done => done = .error (.fault ⟨f.cause, Text.position source f.rest⟩)
  | .ok (b, r), done => ∃ a s, done = .ok (a, s) ∧ R b r a s

variable {R : β → ρ → α → Parser → Prop} {R' : β' → ρ' → α' → Parser → Prop}
  {x : Except Fault (β × ρ)} {y : Except Fault (β' × ρ')} {g : β × ρ → Except Fault (β' × ρ')}
  {action : Action α} {f : α → Action α'} {s s' : Parser}

/-- One step after another, where the second may use that the reader has come to it. -/
theorem Refines.bind (h : Refines source R x (action.run s))
    (hnext : ∀ b r a s', x = .ok (b, r) → R b r a s' →
      Refines source R' (g (b, r)) ((f a).run s')) :
    Refines source R' (x >>= g) ((action >>= f).run s) := by
  rw [StateT.run_bind]
  cases x with
  | error fault =>
    rw [show action.run s = _ from h]
    rfl
  | ok read =>
    obtain ⟨a, s', hrun, hR⟩ := h
    rw [hrun]
    exact hnext read.1 read.2 a s' rfl hR

/-- A step whose result is known. -/
theorem Refines.step {a : α} (h : action.run s = .ok (a, s'))
    (hnext : Refines source R' y ((f a).run s')) : Refines source R' y ((action >>= f).run s) := by
  rw [StateT.run_bind, h]
  exact hnext

/-- A step that reads as a reader does and adds no entry. -/
theorem Refines.read {z : Except Fault (α × List Char)} {g : α × List Char → Except Fault (β' × ρ')}
    (h : action.run s = outcome s' source z)
    (hnext : ∀ a r, z = .ok (a, r) → Refines source R' (g (a, r)) ((f a).run (s'.goTo source r))) :
    Refines source R' (z >>= g) ((action >>= f).run s) := by
  rw [StateT.run_bind, h]
  cases z with
  | error fault => rfl
  | ok read => exact hnext read.1 read.2 rfl

theorem Refines.mono {S : β → ρ → α → Parser → Prop} {done : Except Stop (α × Parser)}
    (h : Refines source R x done) (hRS : ∀ b r a s', x = .ok (b, r) → R b r a s' → S b r a s') :
    Refines source S x done := by
  cases x with
  | error fault => exact h
  | ok read =>
    obtain ⟨a, s', hrun, hR⟩ := h
    exact ⟨a, s', hrun, hRS read.1 read.2 a s' rfl hR⟩

theorem refines_ok {b : β} {r : ρ} {a : α} (h : R b r a s) :
    Refines source R (.ok (b, r)) (.ok (a, s)) := ⟨a, s, rfl, h⟩

theorem refines_error {cause : Cause} {r : List Char} : Refines source R (.error ⟨cause, r⟩)
    (.error (.fault ⟨cause, Text.position source r⟩)) := rfl

end

/-! ## Entries -/

/-- The state with other entries. -/
def holding (s : Parser) (nodes : List Entry) : Parser := { s with nodes }

section
variable {source r text : List Char} {s : Parser} {nodes : List Entry} {content : Content}
  {parent : Option NodeId} {p id start : Nat}

@[simp] theorem goTo_nodes : (s.goTo source r).nodes = s.nodes := rfl

@[simp] theorem holding_nodes : (s.holding nodes).nodes = nodes := rfl

@[simp] theorem holding_holding {nodes' : List Entry} :
    (s.holding nodes).holding nodes' = s.holding nodes' := rfl

theorem run_alloc : (alloc content parent start).run (s.goTo source r)
    = .ok (s.nodes.length,
        (s.holding (s.nodes ++ [⟨content, parent, start, start⟩])).goTo source r) :=
  rfl

theorem run_update (h : id < s.nodes.length) (f : Entry → Entry) :
    (update id f).run (s.goTo source r)
      = .ok ((), (s.holding (s.nodes.modify id f)).goTo source r) := by
  simp [update, h, holding, goTo]

theorem run_finish (h : id < s.nodes.length) : (finish id content).run (s.goTo source r)
    = .ok (id, (s.holding (s.nodes.modify id fun e =>
        { e with content, stop := Text.position source r })).goTo source r) := by
  simp only [finish, StateT.run_bind, run_position, ok_bind, run_update h]
  rfl

theorem modify_concat {α : Type} (l : List α) (a : α) (f : α → α) :
    (l ++ [a]).modify l.length f = l ++ [f a] := by
  simp [List.modify_eq_take_cons_drop]

/-- The entry that was added last. -/
theorem run_update_last {e : Entry} (f : Entry → Entry) :
    (update s.nodes.length f).run ((s.holding (s.nodes ++ [e])).goTo source r)
      = .ok ((), (s.holding (s.nodes ++ [f e])).goTo source r) := by
  rw [run_update (by simp), holding_nodes, modify_concat]
  rfl

theorem run_leaf : (leaf content p start).run (s.goTo source r)
    = .ok (s.nodes.length, (s.holding (s.nodes ++
        [⟨content, some p, start, Text.position source r⟩])).goTo source r) := by
  simp only [leaf, StateT.run_bind, run_alloc, ok_bind, run_position, run_update_last]
  rfl

theorem run_reparent (h : id < s.nodes.length) (q : NodeId) :
    (reparent id q).run (s.goTo source r)
      = .ok ((), (s.holding (Arena.adopted q [id] s.nodes)).goTo source r) :=
  run_update h _

theorem run_reparents (q : NodeId) {ids : List NodeId} (h : ∀ i ∈ ids, i < s.nodes.length) :
    (ids.forM fun i => reparent i q).run (s.goTo source r)
      = .ok ((), (s.holding (Arena.adopted q ids s.nodes)).goTo source r) := by
  induction ids generalizing s with
  | nil => rfl
  | cons i ids ih =>
    rw [List.forall_mem_cons] at h
    rw [List.forM_eq_forM, List.forM_cons, StateT.run_bind, run_reparent h.1, ok_bind]
    refine ih fun j hj => ?_
    rw [holding_nodes, Arena.length_adopted]
    exact h.2 j hj

theorem run_content {stop : Nat} (h : s.nodes[id]? = some ⟨content, parent, start, stop⟩) :
    (Parser.content id).run (s.goTo source r) = .ok (content, s.goTo source r) := by
  simp [Parser.content, h]

end

/-! ## Nodes -/

/-- What the parser counts: groups, their names, and how deep it is. -/
def tally (s : Parser) : Nat × List (List Char × NodeId) × Nat := (s.groups, s.names, s.depth)

/-- A relation of results that also keeps what was counted before. -/
def Keeping {α β ρ : Type} (s : Parser) (R : β → ρ → α → Parser → Prop) (b : β) (r : ρ) (a : α)
    (done : Parser) : Prop :=
  done.tally = s.tally ∧ R b r a done

/-- A node was added behind some entries, and the parser stands where its text ends. -/
structure Added (before : List Entry) (source : List Char) (parent : Option NodeId) (start : Nat)
    (n : Node) (r : List Char) (id : NodeId) (done : Parser) : Prop where
  suffix : r <:+ source
  pos : done.pos = Text.position source r
  stop : Text.position source r = start + n.width
  adds : Adds before done.nodes parent start n id

/-- Nodes in a row were added, and the parser stands `closing` bytes behind their texts. -/
structure AddedAll (before : List Entry) (source : List Char) (p : NodeId) (gap start closing : Nat)
    (ns : List Node) (r : List Char) (ids : List NodeId) (done : Parser) : Prop where
  suffix : r <:+ source
  pos : done.pos = Text.position source r
  stop : Text.position source r = start + Node.widthAll gap ns + closing
  adds : AddsAll before done.nodes p gap start ns ids

section
variable {source r rest text : List Char} {s mid done : Parser} {before : List Entry}
  {content : Content} {parent : Option NodeId} {p id start gap closing : Nat} {n m : Node}
  {ns ms : List Node} {ids ids' : List NodeId}

theorem goTo_of_pos (h : s.pos = Text.position source r) : s.goTo source r = s := by
  rw [goTo, ← h]

theorem depth_of_tally (h : done.tally = s.tally) : done.depth = s.depth := congrArg (·.2.2) h

theorem Added.goTo (h : Added before source parent start n r id done) :
    Added before source parent start n r id (done.goTo source r) := by rwa [goTo_of_pos h.pos]

theorem AddedAll.goTo (h : AddedAll before source p gap start closing ns r ids done) :
    AddedAll before source p gap start closing ns r ids (done.goTo source r) := by
  rwa [goTo_of_pos h.pos]

section
variable {α β ρ : Type} {R : β → ρ → α → Parser → Prop} {action : Action NodeId}
  {rows : Action (List NodeId)} {x : Except Fault (Node × List Char)}
  {y : Except Fault (List Node × List Char)}

/-- A step that adds a node. -/
theorem Refines.node {g : Node × List Char → Except Fault (β × ρ)} {f : NodeId → Action α}
    (h : Refines source (Keeping s (Added before source parent start)) x (action.run done))
    (hnext : ∀ n r id (mid : Parser), x = .ok (n, r) → mid.tally = s.tally →
      Added before source parent start n r id mid →
      Refines source R (g (n, r)) ((f id).run (mid.goTo source r))) :
    Refines source R (x >>= g) ((action >>= f).run done) := by
  refine h.bind fun n r id mid hread ⟨htally, hadded⟩ => ?_
  have hnext := hnext n r id mid hread htally hadded
  rwa [goTo_of_pos hadded.pos] at hnext

/-- A step that adds a node that was read before. -/
theorem Refines.stored {z : Except Fault (β × ρ)} {f : NodeId → Action α}
    (h : Refines source (Keeping s (Added before source parent start)) (.ok (n, r))
      (action.run done))
    (hnext : ∀ id (mid : Parser), mid.tally = s.tally →
      Added before source parent start n r id mid →
      Refines source R z ((f id).run (mid.goTo source r))) :
    Refines source R z ((action >>= f).run done) := by
  obtain ⟨id, mid, hrun, htally, hadded⟩ := h
  have hnext := hnext id mid htally hadded
  rw [goTo_of_pos hadded.pos] at hnext
  exact .step hrun hnext

/-- A step that adds nodes in a row. -/
theorem Refines.row {g : List Node × List Char → Except Fault (β × ρ)} {f : List NodeId → Action α}
    (h : Refines source (Keeping s (AddedAll before source p gap start closing)) y (rows.run done))
    (hnext : ∀ ns r ids (mid : Parser), y = .ok (ns, r) → mid.tally = s.tally →
      AddedAll before source p gap start closing ns r ids mid →
      Refines source R (g (ns, r)) ((f ids).run (mid.goTo source r))) :
    Refines source R (y >>= g) ((rows >>= f).run done) := by
  refine h.bind fun ns r ids mid hread ⟨htally, hadded⟩ => ?_
  have hnext := hnext ns r ids mid hread htally hadded
  rwa [goTo_of_pos hadded.pos] at hnext

end

theorem position_cons {c : Char} (h : c :: r <:+ source) :
    Text.position source r = Text.position source (c :: r) + c.utf8Size :=
  (Text.position_add (show [c] ++ r <:+ source from h)).symm

theorem position_node (h : n.text ++ r <:+ source) :
    Text.position source r = Text.position source (n.text ++ r) + n.width := by
  rw [Node.width_eq, Text.position_add h]

/-- A node without children is one entry. -/
theorem refines_leaf (h : text <:+ source) (htext : text = n.text ++ r)
    (hstores : content.Stores n []) (hn : n.children = []) :
    Refines source (Keeping s (Added s.nodes source (some p) (Text.position source text)))
      (.ok (n, r)) ((leaf content p (Text.position source text)).run (s.goTo source r)) := by
  subst htext
  have hstop := position_node h
  rw [run_leaf, hstop]
  exact refines_ok ⟨rfl, (List.suffix_append _ _).trans h, rfl, hstop,
    Arena.adds_leaf s.nodes (some p) _ hstores hn⟩

theorem AddedAll.stop_eq (h : AddedAll before source p (Text.width n.separator)
    (start + Text.width n.opening) (Text.width n.closing) n.children r ids done) :
    Text.position source r = start + n.width := by
  rw [h.stop, Node.width_children, Nat.add_assoc, Nat.add_assoc, Nat.add_assoc]

/-- A node is completed after its children. -/
theorem refines_finish {c : Content} (htally : mid.tally = s.tally)
    (hstores : content.Stores n ids)
    (h : AddedAll (before ++ [⟨c, parent, start, start⟩]) source before.length
      (Text.width n.separator) (start + Text.width n.opening) (Text.width n.closing) n.children
      r ids mid) :
    Refines source (Keeping s (Added before source parent start)) (.ok (n, r))
      ((finish before.length content).run mid) := by
  have hstop := h.stop_eq
  have hid : before.length < mid.nodes.length := by
    rw [h.adds.length, List.length_append, List.length_singleton]
    omega
  rw [← goTo_of_pos h.pos, run_finish hid]
  refine refines_ok ⟨htally, h.suffix, rfl, hstop, h.adds.complete hstores ?_⟩
  rw [hstop]

/-- A node is added after its children, which are handed to it. -/
theorem refines_adopt (htally : mid.tally = s.tally) (hstores : content.Stores n ids)
    (hn : n.children ≠ [])
    (h : AddedAll before source p (Text.width n.separator) (start + Text.width n.opening)
      (Text.width n.closing) n.children r ids mid) :
    Refines source (Keeping s (Added before source (some p) start)) (.ok (n, r))
      ((adopt content p start).run mid) := by
  have hstop := h.stop_eq
  rw [← goTo_of_pos h.pos]
  refine .step run_leaf ?_
  rw [hstores.children]
  refine .step (run_reparents _ fun i hi => ?_) (refines_ok ⟨htally, h.suffix, rfl, hstop, ?_⟩)
  · rw [holding_nodes, List.length_append]
    exact Nat.lt_add_right _ (h.adds.child_mem hi).2
  · rw [hstop]
    exact h.adds.adopt hstores hn

theorem addedAll_nil (h : r <:+ source) (s : Parser) (p : NodeId) (gap : Nat) :
    AddedAll s.nodes source p gap (Text.position source r) 0 [] r [] (s.goTo source r) :=
  ⟨h, rfl, rfl, Arena.addsAll_nil s.nodes p gap _⟩

theorem Added.single (h : Added before source (some p) start n r id done) :
    AddedAll before source p gap start 0 [n] r [id] done :=
  ⟨h.suffix, h.pos, h.stop, h.adds.single⟩

/-- The text behind the nodes was taken too. -/
theorem AddedAll.closeText (text : List Char)
    (h : AddedAll before source p gap start 0 ns (text ++ r) ids done) :
    AddedAll before source p gap start (Text.width text) ns r ids (done.goTo source r) := by
  refine ⟨(List.suffix_append _ _).trans h.suffix, rfl, ?_, h.adds⟩
  rw [← Text.position_add h.suffix, h.stop, Nat.add_zero]

theorem AddedAll.close {c : Char} (h : AddedAll before source p gap start 0 ns (c :: r) ids done) :
    AddedAll before source p gap start c.utf8Size ns r ids (done.goTo source r) :=
  AddedAll.closeText [c] h

theorem AddedAll.append (h : AddedAll before source p 0 start 0 ns r ids mid)
    (h' : AddedAll mid.nodes source p 0 (Text.position source r) closing ms rest ids' done) :
    AddedAll before source p 0 start closing (ns ++ ms) rest (ids ++ ids') done := by
  have hstop := h.stop
  have hstop' := h'.stop
  have hadds := h'.adds
  rw [Nat.add_zero] at hstop
  rw [hstop] at hadds
  refine ⟨h'.suffix, h'.pos, ?_, h.adds.append hadds⟩
  rw [hstop', hstop, Arena.widthAll_append]
  omega

theorem Added.cons (h : Added before source (some p) start n r id mid)
    (h' : AddedAll mid.nodes source p 0 (Text.position source r) closing ns rest ids done) :
    AddedAll before source p 0 start closing (n :: ns) rest (id :: ids) done := h.single.append h'

/-- Nodes with something between them. -/
theorem Added.cons_gap (h : Added before source (some p) start n r id mid)
    (h' : AddedAll mid.nodes source p gap (Text.position source r + gap) closing (m :: ns) rest ids
      done) :
    AddedAll before source p gap start closing (n :: m :: ns) rest (id :: ids) done := by
  have hstop := h'.stop
  have hadds := h'.adds
  rw [h.stop] at hadds hstop
  refine ⟨h'.suffix, h'.pos, ?_, h.adds.cons hadds⟩
  rw [hstop, Node.widthAll]
  omega

end

end Parser

end RegexAudit
