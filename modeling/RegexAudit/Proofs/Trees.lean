import RegexAudit.Analysis.Category
import RegexAudit.Syntax.Place

/-!
# Parts of a tree

The nodes of a tree and the ways down to them. `Node.HasPart` is the relation between a tree and its
nodes, and `Node.HasTerm` leaves out those that stand in classes; `Node.Leads` reads a trail as a way
down from the root, and every place that a walk lists has such a trail.

The places of a walk are the places below its root. A place comes first there, and then what is below
its children (`Place.below_eq`), so that a property that goes from places to their children goes to
all places below (`Place.forall_below`).
-/

namespace RegexAudit

namespace Text

theorem join_nil (texts : List (List Char)) : join [] texts = texts.flatten := by
  induction texts with
  | nil => rfl
  | cons t texts ih =>
    cases texts with
    | nil => simp [join]
    | cons u texts => simp [join, ih]

end Text

namespace Node

/-- The nodes of a tree. -/
inductive HasPart (root : Node) : Node → Prop
  | self : HasPart root root
  | child {n c : Node} : HasPart root n → c ∈ n.children → HasPart root c

theorem hasPart_iff {root n : Node} :
    root.HasPart n ↔ n = root ∨ ∃ c ∈ root.children, c.HasPart n := by
  constructor
  · intro h
    induction h with
    | self => exact Or.inl rfl
    | child hn hc ih =>
      rcases ih with rfl | ⟨d, hd, hdn⟩
      · exact Or.inr ⟨_, hc, .self⟩
      · exact Or.inr ⟨d, hd, hdn.child hc⟩
  · rintro (rfl | ⟨c, hc, h⟩)
    · exact .self
    · induction h with
      | self => exact .child .self hc
      | child _ hc ih => exact .child ih hc

/-- A node without children is its only part. -/
theorem hasPart_leaf {root n : Node} (h : root.children = []) : root.HasPart n ↔ n = root := by
  rw [hasPart_iff, h]
  simp

theorem HasPart.of_child {root c n : Node} (hc : c ∈ root.children) (h : c.HasPart n) :
    root.HasPart n :=
  hasPart_iff.2 (Or.inr ⟨c, hc, h⟩)

theorem HasPart.trans {root n m : Node} (h : root.HasPart n) (h' : n.HasPart m) :
    root.HasPart m := by
  induction h' with
  | self => exact h
  | child _ hc ih => exact .child ih hc

/-- Every node of the tree has the property. -/
def Throughout (p : Node → Prop) (root : Node) : Prop := ∀ n, root.HasPart n → p n

theorem throughout_iff {p : Node → Prop} {root : Node} :
    Throughout p root ↔ p root ∧ ∀ c ∈ root.children, Throughout p c := by
  constructor
  · intro h
    exact ⟨h root .self, fun c hc m hm => h m (.of_child hc hm)⟩
  · rintro ⟨hroot, hchildren⟩ m hm
    rcases hasPart_iff.1 hm with rfl | ⟨c, hc, hcm⟩
    · exact hroot
    · exact hchildren c hc m hcm

theorem throughout_of_hasPart {p : Node → Prop} {root n : Node} (h : Throughout p root)
    (hn : root.HasPart n) : Throughout p n := by
  induction hn with
  | self => exact h
  | child _ hc ih => exact (throughout_iff.1 ih).2 _ hc

/-- The nodes of a tree outside of its classes. -/
inductive HasTerm (root : Node) : Node → Prop
  | self : HasTerm root root
  | child {n c : Node} : HasTerm root n → n.isCharacter = false → c ∈ n.children → HasTerm root c

theorem HasTerm.hasPart {root n : Node} (h : root.HasTerm n) : root.HasPart n := by
  induction h with
  | self => exact .self
  | child _ _ hc ih => exact ih.child hc

/-- A property of nodes that goes down to their children, classes aside. -/
def Hereditary (p : Node → Prop) : Prop :=
  ∀ n, p n → n.isCharacter = false → ∀ c ∈ n.children, p c

theorem hereditary_hasTerm (root : Node) : Hereditary root.HasTerm :=
  fun _ hn hclass _ hc => hn.child hclass hc

theorem hasTerm_iff {root n : Node} :
    root.HasTerm n ↔ n = root ∨ (root.isCharacter = false ∧ ∃ c ∈ root.children, c.HasTerm n) := by
  constructor
  · intro h
    induction h with
    | self => exact Or.inl rfl
    | child hn hclass hc ih =>
      rcases ih with rfl | ⟨hroot, d, hd, hdn⟩
      · exact Or.inr ⟨hclass, _, hc, .self⟩
      · exact Or.inr ⟨hroot, d, hd, hdn.child hclass hc⟩
  · rintro (rfl | ⟨hroot, c, hc, h⟩)
    · exact .self
    · induction h with
      | self => exact .child .self hroot hc
      | child _ hclass hc ih => exact .child ih hclass hc

theorem HasTerm.trans {root n m : Node} (h : root.HasTerm n) (h' : n.HasTerm m) :
    root.HasTerm m := by
  induction h' with
  | self => exact h
  | child _ hclass hc ih => exact .child ih hclass hc

/-! ## Sizes -/

theorem stringsSize_eq_sizeAll (strings : List (List Letter)) :
    stringsSize strings = sizeAll (strings.map string) := by
  induction strings with
  | nil => rfl
  | cons letters strings ih => rw [stringsSize, ih, List.map_cons, sizeAll, size]

theorem length_eq_sizeAll (letters : List Letter) :
    letters.length = sizeAll (letters.map character) := by
  induction letters with
  | nil => rfl
  | cons c letters ih => rw [List.length_cons, ih, List.map_cons, sizeAll, size, Nat.add_comm]

/-- A tree has its root and the nodes of the trees below. -/
theorem size_eq (n : Node) : n.size = sizeAll n.children + 1 := by
  cases n with
  | strings _ => rw [size, children, stringsSize_eq_sizeAll]
  | string _ => rw [size, children, length_eq_sizeAll]
  | _ => simp [size, children, sizeAll]

theorem size_le_sizeAll {ns : List Node} {n : Node} (h : n ∈ ns) : n.size ≤ sizeAll ns := by
  induction ns with
  | nil => cases h
  | cons m ns ih =>
    rw [sizeAll]
    rcases List.mem_cons.1 h with rfl | h
    · exact Nat.le_add_right _ _
    · exact Nat.le_trans (ih h) (Nat.le_add_left _ _)

theorem size_lt_of_child {n c : Node} (h : c ∈ n.children) : c.size < n.size := by
  rw [size_eq n]
  exact Nat.lt_succ_of_le (size_le_sizeAll h)

/-- Induction on trees by children: letters of ranges and of strings count. -/
theorem induction_on_children {p : Node → Prop} (h : ∀ n, (∀ c ∈ n.children, p c) → p n)
    (n : Node) : p n := by
  induction hsize : n.size using Nat.strongRecOn generalizing n with
  | ind size ih =>
    subst hsize
    exact h n fun c hc => ih c.size (size_lt_of_child hc) c rfl

/-! ## The text of a node -/

theorem textAll_eq_join (separator : List Char) (ns : List Node) :
    textAll separator ns = Text.join separator (ns.map text) := by
  induction ns with
  | nil => rfl
  | cons n ns ih =>
    cases ns with
    | nil => rw [textAll]; rfl
    | cons m ns => rw [textAll, ih]; rfl

theorem lettersText_eq_join (letters : List Letter) :
    lettersText letters = Text.join [] ((letters.map character).map text) := by
  rw [Text.join_nil, lettersText, List.map_map, List.flatMap_def]
  rfl

/-- The text of a node is its opening, the texts of its children with the separator between them, and
its closing. -/
theorem text_eq (n : Node) :
    n.text = n.opening ++ Text.join n.separator (n.children.map text) ++ n.closing := by
  cases n with
  | choice _ _ | look _ _ _ | alternative _ | charClass _ _ _ =>
    simp [text, opening, separator, closing, children, textAll_eq_join]
  | strings alternatives =>
    have htexts : alternatives.map lettersText = (alternatives.map string).map text := by
      rw [List.map_map]
      rfl
    rw [text, htexts]
    rfl
  | string letters =>
    rw [text, lettersText_eq_join]
    exact (List.append_nil _).symm
  | quantifier _ _ _ _ | classExpression _ _ | classOperation _ _ _ | range _ _ | edge _
  | backreference _ | character _ | shorthand _ =>
    simp [text, opening, separator, closing, children, Text.join]

theorem width_children (n : Node) : n.width
    = Text.width n.opening + widthAll (Text.width n.separator) n.children + Text.width n.closing := by
  rw [width_eq, text_eq, Text.width_append, Text.width_append, widthAll_eq n.separator _ rfl,
    textAll_eq_join]

/-! ## References -/

theorem anyBackreference_eq_false {ns : List Node} :
    anyBackreference ns = false ↔ ∀ n ∈ ns, n.hasBackreference = false := by
  induction ns with
  | nil => simp [anyBackreference]
  | cons n ns ih => rw [anyBackreference, Bool.or_eq_false_iff, ih, List.forall_mem_cons]

theorem hasBackreference_of_child {n c : Node} (h : n.hasBackreference = false)
    (hclass : n.isCharacter = false) (hc : c ∈ n.children) : c.hasBackreference = false := by
  cases n with
  | choice _ _ | look _ _ _ | alternative _ =>
    rw [hasBackreference] at h
    exact anyBackreference_eq_false.1 h c hc
  | quantifier _ _ _ element =>
    rw [hasBackreference] at h
    rwa [List.mem_singleton.1 hc]
  | strings _ | string _ =>
    obtain ⟨_, -, rfl⟩ := List.mem_map.1 hc
    rfl
  | edge _ | backreference _ => cases hc
  | character _ | range _ _ | shorthand _ | charClass _ _ _ | classExpression _ _
  | classOperation _ _ _ => cases hclass

theorem hasBackreference_of_hasTerm {root n : Node} (h : root.hasBackreference = false)
    (hn : root.HasTerm n) : n.hasBackreference = false := by
  induction hn with
  | self => exact h
  | child _ hclass hc ih => exact hasBackreference_of_child ih hclass hc

end Node

namespace Place

/-! ## Children of a place -/

/-- The place itself and those below it, in the order of a walk. -/
def below (p : Place) : List Place := p.node.walkFrom p.trail p.position p.start

theorem slot_of_mem_inRow {trail : Nat → List Step} {gap slot position start : Nat} {ns : List Node}
    {q : Place} (h : q ∈ inRow trail gap slot position start ns) :
    ∃ i, ns[i]? = some q.node ∧ q.trail = trail (slot + i) := by
  induction ns generalizing slot position start with
  | nil => cases h
  | cons n ns ih =>
    rcases List.mem_cons.1 h with rfl | h
    · exact ⟨0, rfl, rfl⟩
    · obtain ⟨i, hnode, htrail⟩ := ih h
      refine ⟨i + 1, hnode, ?_⟩
      rw [htrail, Nat.add_assoc, Nat.add_comm 1 i]

/-- A child remembers its parent and which child it is. -/
theorem slot_of_mem_children {p q : Place} (h : q ∈ p.children) :
    ∃ i, p.node.children[i]? = some q.node ∧
      q.trail = ⟨p.node, p.position, p.start, i⟩ :: p.trail := by
  obtain ⟨i, hnode, htrail⟩ := slot_of_mem_inRow h
  rw [Nat.zero_add] at htrail
  exact ⟨i, hnode, htrail⟩

/-- Induction on the tree below a place. -/
theorem induction_on_children {P : Place → Prop} (h : ∀ p, (∀ q ∈ p.children, P q) → P p)
    (p : Place) : P p := by
  obtain ⟨n, hn⟩ : ∃ n, p.node = n := ⟨_, rfl⟩
  induction n using Node.induction_on_children generalizing p with
  | h n ih =>
    subst hn
    refine h p fun q hq => ?_
    obtain ⟨i, hnode, -⟩ := slot_of_mem_children hq
    exact ih q.node (List.mem_of_getElem? hnode) q rfl

/-! ## Places below -/

open Node in
theorem walkAll_eq (trail : Nat → List Step) (gap slot position start : Nat) (ns : List Node) :
    walkAll trail gap slot position start ns
      = (inRow trail gap slot position start ns).flatMap below := by
  induction ns generalizing slot position start with
  | nil => rfl
  | cons n ns ih => rw [walkAll, ih, inRow, List.flatMap_cons]; rfl

open Node in
theorem letterPlaces_eq (trail : Nat → List Step) (slot position start : Nat)
    (letters : List Letter) :
    letterPlaces trail slot position start letters
      = (inRow trail 0 slot position start (letters.map character)).flatMap below := by
  induction letters generalizing slot position start with
  | nil => rfl
  | cons c letters ih => rw [letterPlaces, ih, List.map_cons, inRow, List.flatMap_cons]; rfl

open Node in
theorem stringsPlaces_eq (trail : Nat → List Step) (slot position start : Nat)
    (strings : List (List Letter)) :
    stringsPlaces trail slot position start strings
      = (inRow trail 1 slot position start (strings.map string)).flatMap below := by
  induction strings generalizing slot position start with
  | nil => rfl
  | cons letters strings ih => rw [stringsPlaces, ih, List.map_cons, inRow, List.flatMap_cons]; rfl

/-- A place comes first, then what is below its children. -/
theorem below_eq (p : Place) : p.below = p :: p.children.flatMap below := by
  obtain ⟨n, position, start, trail⟩ := p
  rw [below, Node.walkFrom.eq_def]
  congr 1
  cases n with
  | choice _ _ | look _ _ _ | alternative _ | charClass _ _ _ => exact walkAll_eq _ _ _ _ _ _
  | strings _ => exact stringsPlaces_eq _ _ _ _ _
  | string _ => exact letterPlaces_eq _ _ _ _ _
  | quantifier _ _ _ _ | classExpression _ _ => exact (List.append_nil _).symm
  | classOperation _ _ _ =>
    exact congrArg _ (List.append_nil _).symm
  | range _ _ | edge _ | backreference _ | character _ | shorthand _ => rfl

theorem walk_eq_below (root : Node) : root.walk = below ⟨root, 0, 0, []⟩ := rfl

theorem mem_below_iff {p q : Place} : q ∈ p.below ↔ q = p ∨ ∃ c ∈ p.children, q ∈ c.below := by
  rw [below_eq, List.mem_cons, List.mem_flatMap]

/-- What a place has and passes on to children, all places below it have. -/
theorem forall_below {P : Place → Prop} (hstep : ∀ p, P p → ∀ c ∈ p.children, P c) {p : Place}
    (hp : P p) : ∀ q ∈ p.below, P q := by
  induction p using induction_on_children with
  | h p ih =>
    intro q hq
    rcases mem_below_iff.1 hq with rfl | ⟨c, hc, hq⟩
    · exact hp
    · exact ih c hc (hstep p hp c hc) q hq

end Place

namespace Node

/-! ## Trails -/

/-- The trail leads from the root down to the node. -/
def Leads (root : Node) : List Step → Node → Prop
  | [], n => n = root
  | s :: up, n => s.parent.children[s.slot]? = some n ∧ Leads root up s.parent

theorem Leads.hasPart {root : Node} {trail : List Step} {n : Node} (h : Leads root trail n) :
    root.HasPart n := by
  induction trail generalizing n with
  | nil =>
    rw [Leads] at h
    rw [h]
    exact .self
  | cons s up ih => exact (ih h.2).child (List.mem_of_getElem? h.1)

/-- What a trail with steps leads to stands in a child of the root. -/
theorem Leads.below {root : Node} {s : Step} {up : List Step} {n : Node}
    (h : Leads root (s :: up) n) : ∃ c ∈ root.children, c.HasPart n := by
  induction up generalizing s n with
  | nil =>
    obtain ⟨hn, hroot⟩ := h
    rw [Leads] at hroot
    rw [hroot] at hn
    exact ⟨n, List.mem_of_getElem? hn, .self⟩
  | cons t up ih =>
    obtain ⟨c, hc, hpart⟩ := ih h.2
    exact ⟨c, hc, hpart.child (List.mem_of_getElem? h.1)⟩

theorem Leads.child {root : Node} {p : Place} (h : Leads root p.trail p.node) :
    ∀ q ∈ p.children, Leads root q.trail q.node := by
  intro q hq
  obtain ⟨i, hnode, htrail⟩ := Place.slot_of_mem_children hq
  rw [htrail]
  exact ⟨hnode, h⟩

/-- Every place of a walk stands where its trail leads. -/
theorem leads_of_mem_walk {root : Node} {p : Place} (h : p ∈ root.walk) :
    Leads root p.trail p.node := by
  have hroot : Leads root [] root := rfl
  rw [Place.walk_eq_below] at h
  exact Place.forall_below (P := fun p => Leads root p.trail p.node) (fun _ => Leads.child) hroot p h

end Node

end RegexAudit
