import RegexAudit.CharSet.KnownProperties
import RegexAudit.Proofs.First
import RegexAudit.Proofs.Walks

/-!
# Mirror images

The mirror image of a tree is the tree read from right to left: elements of a row and letters of a
string come in the opposite order, the starts and the ends of lines change places, and so do
lookaheads and lookbehinds. What an analysis finds to the right of a node is what it finds to the
left of the image of the node:

    r.mirror.first flags d.reverse q = r.first flags d p
    r.mirror.after flags d.reverse q = r.after flags d p        (mirror_analysis)

where `q` is the image of `p`. References to groups are left out: the text of a group is repeated
forwards in both directions.
-/

namespace RegexAudit

theorem Direction.reverse_inj {d e : Direction} : d.reverse = e.reverse ↔ d = e := by
  cases d <;> cases e <;> decide

/-! ## Images of trees -/

/-- The start of a line is the end of its image. -/
def Edge.mirror : Edge → Edge
  | lineStart => lineEnd
  | lineEnd => lineStart
  | word negate => word negate

namespace Node

mutual

/-- The tree read from right to left. -/
def mirror : Node → Node
  | choice frame alternatives => choice frame (mirrorAll alternatives)
  | look direction negate alternatives => look direction.reverse negate (mirrorAll alternatives)
  | alternative elements => alternative (mirrorAll elements).reverse
  | quantifier bounds greedy lexeme element => quantifier bounds greedy lexeme (mirror element)
  | edge e => edge e.mirror
  | charClass negate unicodeSets elements => charClass negate unicodeSets (mirrorAll elements)
  | classExpression negate expression => classExpression negate (mirror expression)
  | classOperation operator left right => classOperation operator (mirror left) (mirror right)
  | strings alternatives => strings (alternatives.map List.reverse)
  | string letters => string letters.reverse
  | backreference ref => backreference ref
  | character letter => character letter
  | range min max => range min max
  | shorthand set => shorthand set

/-- The images of some nodes, in the same order. -/
def mirrorAll : List Node → List Node
  | [] => []
  | n :: rest => mirror n :: mirrorAll rest

end

theorem mirrorAll_eq_map (ns : List Node) : mirrorAll ns = ns.map mirror := by
  induction ns with
  | nil => rfl
  | cons n ns ih => rw [mirrorAll, ih, List.map_cons]

mutual

/-- The image of the image is the tree itself. -/
theorem mirror_mirror : (n : Node) → n.mirror.mirror = n
  | choice _ alternatives => by rw [mirror, mirror, mirrorAll_mirrorAll alternatives]
  | look direction _ alternatives => by
    rw [mirror, mirror, mirrorAll_mirrorAll alternatives]
    cases direction <;> rfl
  | alternative elements => by
    have helements := mirrorAll_mirrorAll elements
    rw [mirrorAll_eq_map] at helements
    rw [mirror, mirror, mirrorAll_eq_map, List.map_reverse, List.reverse_reverse, helements]
  | quantifier _ _ _ element => by rw [mirror, mirror, mirror_mirror element]
  | edge e => by cases e <;> rfl
  | charClass _ _ elements => by rw [mirror, mirror, mirrorAll_mirrorAll elements]
  | classExpression _ expression => by rw [mirror, mirror, mirror_mirror expression]
  | classOperation _ left right => by rw [mirror, mirror, mirror_mirror left, mirror_mirror right]
  | strings _ => by simp [mirror]
  | string _ => by rw [mirror, mirror, List.reverse_reverse]
  | backreference _ | character _ | range .. | shorthand _ => rfl

theorem mirrorAll_mirrorAll : (ns : List Node) → mirrorAll (mirrorAll ns) = ns
  | [] => rfl
  | n :: ns => by rw [mirrorAll, mirrorAll, mirror_mirror n, mirrorAll_mirrorAll ns]

end

@[simp] theorem category_mirror (n : Node) : n.mirror.category = n.category := by
  cases n <;> rfl

@[simp] theorem isCharacter_mirror (n : Node) : n.mirror.isCharacter = n.isCharacter := by
  rw [isCharacter, category_mirror, isCharacter]

/-- Only what stands in a row changes its order. -/
theorem children_mirror (n : Node) :
    n.mirror.children = if n.category = .sequence then (n.children.map mirror).reverse
      else n.children.map mirror := by
  cases n with
  | choice _ _ | look _ _ _ | alternative _ | charClass _ _ _ =>
    simp [mirror, children, category, mirrorAll_eq_map]
  | string letters =>
    have hletter : mirror ∘ character = character := by
      funext letter
      rfl
    simp [mirror, children, category, hletter]
  | strings alternatives =>
    have hstring : mirror ∘ string = string ∘ List.reverse := by
      funext letters
      rfl
    simp [mirror, children, category, hstring]
  | quantifier _ _ _ _ | edge _ | backreference _ | character _ | range _ _ | shorthand _
  | classExpression _ _ | classOperation _ _ _ => rfl

/-- Where the image of a child stands. -/
def mirrorSlot (n : Node) (slot : Nat) : Nat :=
  if n.category = .sequence then n.children.length - 1 - slot else slot

theorem child_mirror {n c : Node} {slot : Nat} (h : n.children[slot]? = some c) :
    n.mirror.children[n.mirrorSlot slot]? = some c.mirror := by
  obtain ⟨hslot, -⟩ := List.getElem?_eq_some_iff.1 h
  rw [children_mirror, mirrorSlot]
  split
  · have hback : (n.children.map mirror).length - 1 - (n.children.length - 1 - slot) = slot := by
      rw [List.length_map]
      omega
    rw [List.getElem?_reverse (by rw [List.length_map]; omega), hback, List.getElem?_map, h]
    rfl
  · rw [List.getElem?_map, h]
    rfl

end Node

/-! ## Sets of images -/

theorem Letter.stringSet?_reverse (flags : Flags) (letters : List Letter) :
    Letter.stringSet? flags letters.reverse = Letter.stringSet? flags letters := by
  rcases letters with _ | ⟨a, _ | ⟨b, rest⟩⟩
  · rfl
  · rfl
  · have hnone (l : List Letter) (hl : 2 ≤ l.length) : Letter.stringSet? flags l = none := by
      rcases l with _ | ⟨a, _ | ⟨b, rest⟩⟩
      · rfl
      · exact absurd hl (Nat.not_succ_le_self 1)
      · rfl
    rw [hnone _ (by simp), hnone _ (by simp)]

namespace Node

section
variable (flags : Flags)

mutual

/-- The order of elements and letters makes no difference to a set. -/
theorem charSet?_mirror [Properties] : (n : Node) → n.mirror.charSet? flags = n.charSet? flags
  | charClass _ _ elements => by rw [mirror, charSet?, charSet?, charSets?_mirror elements]
  | classExpression _ expression => by rw [mirror, charSet?, charSet?, charSet?_mirror expression]
  | classOperation _ left right => by
    rw [mirror, charSet?, charSet?, charSet?_mirror left, charSet?_mirror right]
  | strings alternatives => by
    have hreverse : Letter.stringSet? flags ∘ List.reverse = Letter.stringSet? flags :=
      funext (Letter.stringSet?_reverse flags)
    rw [mirror, charSet?, charSet?, List.mapM_map, hreverse]
  | string letters => Letter.stringSet?_reverse flags letters
  | choice .. | look .. | alternative _ | quantifier .. | edge _ | backreference _ | character _
  | range .. | shorthand _ => rfl

theorem charSets?_mirror [Properties]
    : (ns : List Node) → charSets? flags (mirrorAll ns) = charSets? flags ns
  | [] => rfl
  | n :: ns => by
    rw [mirrorAll, charSets?, charSets?, charSet?_mirror n, charSets?_mirror ns]

end

theorem characterFirst_mirror [Properties]
    (n : Node) : n.mirror.characterFirst flags = n.characterFirst flags := by
  rw [characterFirst, charSet?_mirror, characterFirst]

/-- Only one element in one alternative is mirrored to one element in one alternative. -/
theorem eq_sole_of_mirror {ns : List Node} {m : Node} (h : ns.map mirror = [alternative [m]]) :
    ∃ n, ns = [alternative [n]] := by
  obtain ⟨n, rfl, hn⟩ := List.map_eq_singleton_iff.1 h
  cases n with
  | alternative elements =>
    rw [mirror, mirrorAll_eq_map, alternative.injEq, List.reverse_eq_iff] at hn
    obtain ⟨element, rfl, -⟩ := List.map_eq_singleton_iff.1 hn
    exact ⟨element, rfl⟩
  | choice _ _ | look _ _ _ | quantifier _ _ _ _ | edge _ | backreference _ | character _
  | range _ _ | shorthand _ | charClass _ _ _ | classExpression _ _ | classOperation _ _ _
  | strings _ | string _ => cases hn

theorem soleSet?_mirror [Properties] (ns : List Node) :
    soleSet? flags (ns.map mirror) = soleSet? flags ns := by
  have hnone {ms : List Node} (hms : ¬ ∃ n, ms = [alternative [n]]) :
      soleSet? flags ms = none := by
    unfold soleSet?
    split
    · exact absurd ⟨_, rfl⟩ hms
    · rfl
  by_cases h : ∃ n, ns = [alternative [n]]
  · obtain ⟨n, rfl⟩ := h
    show (if n.mirror.isCharacter then n.mirror.charSet? flags else none) = _
    rw [isCharacter_mirror, charSet?_mirror]
    rfl
  · have hmirror : ¬ ∃ m, ns.map mirror = [alternative [m]] := fun ⟨_, hm⟩ => h (eq_sole_of_mirror hm)
    rw [hnone h, hnone hmirror]

end

/-! ## First characters of images -/

theorem edgeLook_mirror (flags : Flags) (d : Direction) (e : Edge) :
    e.mirror.look flags d.reverse = e.look flags d := by
  cases e <;> cases d <;> rfl

theorem letterRow_mirror (flags : Flags) (d : Direction) (letters : List Letter) :
    Letter.firstRow flags d.reverse letters.reverse = Letter.firstRow flags d letters := by
  cases d <;> simp [Letter.firstRow, Direction.reverse, Direction.arrange]

section
variable [Properties] {refs refs' : Path → GroupRef → First} {flags : Flags} {d : Direction}

/-- Forwards, the last of a row is met after the others. -/
theorem firstRow_forward_concat (path : Path) (slot : Nat) (ns : List Node) (n : Node)
    (before : First) :
    firstRow refs flags .forward path slot (ns ++ [n]) before
      = (firstRow refs flags .forward path slot ns before).andThen fun _ =>
          first refs flags .forward (path ++ [slot + ns.length]) n := by
  induction ns generalizing slot before with
  | nil => rfl
  | cons m ns ih =>
    rw [List.cons_append, firstRow, ih, firstRow, List.length_cons, Nat.add_assoc slot 1,
      Nat.add_comm 1]

/-- Backwards, the last of a row is met before the others. -/
theorem firstRow_backward_concat (path : Path) (slot : Nat) (ns : List Node) (n : Node)
    (before : First) :
    firstRow refs flags .backward path slot (ns ++ [n]) before
      = firstRow refs flags .backward path slot ns
          (before.andThen fun _ => first refs flags .backward (path ++ [slot + ns.length]) n) := by
  induction ns generalizing slot with
  | nil => rfl
  | cons m ns ih =>
    rw [List.cons_append, firstRow, ih, firstRow, List.length_cons, Nat.add_assoc slot 1,
      Nat.add_comm 1]

mutual

/-- What a node consumes first is what its image consumes first in the other direction. -/
theorem first_mirror (path path' : Path) :
    (n : Node) → (∀ ref, ¬ n.HasPart (backreference ref)) →
      n.mirror.first refs' flags d.reverse path' = n.first refs flags d path
  | alternative elements, h => by
    rw [mirror, first, first]
    exact firstRow_mirror path path' 0 0 elements (fun n hn ref hpart => h ref (.of_child hn hpart)) _
  | choice _ alternatives, h => by
    rw [mirror, first, first]
    exact congrArg _
      (firsts_mirror path path' 0 alternatives fun n hn ref hpart => h ref (.of_child hn hpart))
  | quantifier bounds _ _ element, h => by
    have helement := first_mirror (path ++ [0]) (path' ++ [0]) element fun ref hpart =>
      h ref (.of_child (List.mem_singleton_self _) hpart)
    rw [mirror, first, first, helement]
  | edge e, _ => by rw [mirror, first, first, edgeLook_mirror]
  | look direction negate alternatives, h => by
    have hfirsts := firsts_mirror path path' 0 alternatives fun n hn ref hpart =>
      h ref (.of_child hn hpart)
    rw [mirror, first, first, hfirsts, mirrorAll_eq_map, soleSet?_mirror]
    simp only [ne_eq, Direction.reverse_inj]
  | backreference ref, h => absurd .self (h ref)
  | strings alternatives, _ => by
    have hletters : Letter.firstRow flags d.reverse ∘ List.reverse = Letter.firstRow flags d :=
      funext (letterRow_mirror flags d)
    rw [mirror, first, first, List.map_map, hletters]
  | string letters, _ => by rw [mirror, first, first, letterRow_mirror]
  | character _, _ | range .., _ | shorthand _, _ => by rw [mirror, first, first]
  | charClass negate unicodeSets elements, _ => by
    have hset := characterFirst_mirror flags (charClass negate unicodeSets elements)
    rw [mirror] at hset
    rw [mirror, first, first, hset]
  | classExpression negate expression, _ => by
    have hset := characterFirst_mirror flags (classExpression negate expression)
    rw [mirror] at hset
    rw [mirror, first, first, hset]
  | classOperation operator left right, _ => by
    have hset := characterFirst_mirror flags (classOperation operator left right)
    rw [mirror] at hset
    rw [mirror, first, first, hset]

theorem firsts_mirror (path path' : Path) (slot : Nat) :
    (ns : List Node) → (∀ n ∈ ns, ∀ ref, ¬ n.HasPart (backreference ref)) →
      firsts refs' flags d.reverse path' slot (mirrorAll ns) = firsts refs flags d path slot ns
  | [], _ => rfl
  | n :: ns, h => by
    rw [List.forall_mem_cons] at h
    rw [mirrorAll, firsts, firsts, first_mirror (path ++ [slot]) (path' ++ [slot]) n h.1,
      firsts_mirror path path' (slot + 1) ns h.2]

theorem firstRow_mirror (path path' : Path) (slot slot' : Nat) :
    (ns : List Node) → (∀ n ∈ ns, ∀ ref, ¬ n.HasPart (backreference ref)) → ∀ before : First,
      firstRow refs' flags d.reverse path' slot' (mirrorAll ns).reverse before
        = firstRow refs flags d path slot ns before
  | [], _, _ => by rw [mirrorAll, List.reverse_nil, firstRow, firstRow]
  | n :: ns, h, before => by
    rw [List.forall_mem_cons] at h
    have hn := first_mirror (path ++ [slot])
      (path' ++ [slot' + (mirrorAll ns).reverse.length]) n h.1
    have hns := firstRow_mirror path path' (slot + 1) slot' ns h.2
    rw [mirrorAll, List.reverse_cons]
    cases d with
    | forward =>
      rw [firstRow, Direction.reverse, firstRow_backward_concat]
      rw [Direction.reverse] at hn hns
      rw [hn, hns]
    | backward =>
      rw [firstRow, Direction.reverse, firstRow_forward_concat]
      rw [Direction.reverse] at hn hns
      rw [hn, hns]

end

end

/-! ## What follows images -/

/-- The stretch beyond a slot in one direction is mirrored to the stretch beyond its image in the
other. -/
theorem beyond_reverse {α : Type} (d : Direction) {slot : Nat} {parts : List α}
    (hslot : slot < parts.length) :
    (d.reverse.beyond (parts.length - 1 - slot) parts.reverse).2
      = (d.beyond slot parts).2.reverse := by
  cases d with
  | forward =>
    show parts.reverse.take (parts.length - 1 - slot) = (parts.drop (slot + 1)).reverse
    rw [List.take_reverse]
    congr 2
    omega
  | backward =>
    show parts.reverse.drop (parts.length - 1 - slot + 1) = (parts.take slot).reverse
    rw [List.drop_reverse]
    congr 2
    omega

theorem beyond_map {α β : Type} (f : α → β) (d : Direction) (slot : Nat) (parts : List α) :
    (d.beyond slot (parts.map f)).2 = (d.beyond slot parts).2.map f := by
  cases d with
  | forward => exact List.map_drop.symm
  | backward => exact List.map_take.symm

end Node

/-- A step up from an image is the image of a step up. -/
def Step.IsImage (s t : Step) : Prop :=
  t.parent = s.parent.mirror ∧ t.slot = s.parent.mirrorSlot s.slot

namespace Node

section
variable {refs refs' : Path → GroupRef → First} {flags : Flags} {d : Direction} {root : Node}

/-- What follows a node is what follows its image in the other direction. -/
theorem afterAlong_mirror [Properties] (hreferences : ∀ ref, ¬ root.HasPart (backreference ref))
    {trail trail' : List Step} {n : Node} (hleads : root.Leads trail n)
    (himage : List.Forall₂ Step.IsImage trail trail') :
    afterAlong refs' flags d.reverse trail' n.mirror = afterAlong refs flags d trail n := by
  induction himage generalizing n with
  | nil => rfl
  | @cons s t up up' hs _ ih =>
    obtain ⟨parent', position', start', slot'⟩ := t
    obtain ⟨rfl, rfl⟩ : parent' = s.parent.mirror ∧ slot' = s.parent.mirrorSlot s.slot := hs
    have hchild := hleads.1
    obtain ⟨hslot, -⟩ := List.getElem?_eq_some_iff.1 hchild
    have houtside := ih hleads.2
    have hpart {m : Node} (hm : m ∈ s.parent.children) (ref : GroupRef) :
        ¬ m.HasPart (backreference ref) := fun h =>
      hreferences ref ((hleads.2.hasPart.child hm).trans h)
    rw [afterAlong, afterAlong]
    generalize s.parent = parent at *
    cases parent with
    | alternative elements =>
      have hstretch : (d.reverse.beyond (mirrorSlot (alternative elements) s.slot)
            (mirrorAll elements).reverse).2
          = (mirrorAll (d.beyond s.slot elements).2).reverse := by
        have hlength : s.slot < (elements.map mirror).length := by rwa [List.length_map]
        rw [mirrorAll_eq_map, mirrorAll_eq_map, ← beyond_map, ← beyond_reverse d hlength,
          List.length_map]
        rfl
      have hlater : ∀ m ∈ (d.beyond s.slot elements).2, ∀ ref, ¬ m.HasPart (backreference ref) :=
        fun m hm => hpart (Direction.mem_of_mem_beyond hm)
      rw [mirror] at houtside ⊢
      simp only [hstretch, houtside]
      rw [firstRow_mirror _ _ _ _ _ hlater]
    | string letters =>
      have hstretch : (d.reverse.beyond (mirrorSlot (string letters) s.slot) letters.reverse).2
          = (d.beyond s.slot letters).2.reverse := by
        have hlength : s.slot < letters.length := by rwa [children, List.length_map] at hslot
        rw [← beyond_reverse d hlength]
        simp [mirrorSlot, category, children]
      rw [mirror] at houtside ⊢
      simp only [hstretch, houtside, letterRow_mirror]
    | quantifier bounds greedy lexeme element =>
      have hfirst (path path' : Path) :
          first refs' flags d.reverse path' n.mirror = first refs flags d path n :=
        first_mirror path path' n (hpart (List.mem_of_getElem? hchild))
      rw [mirror] at houtside ⊢
      simp only [houtside, hfirst ((up.map (·.slot)).reverse ++ [s.slot])]
    | look direction negate alternatives =>
      rw [mirror] at houtside ⊢
      simp only [Direction.reverse_inj, houtside]
    | choice frame alternatives =>
      cases frame with
      | whole => rfl
      | plain | capture _ _ => exact houtside
    | edge _ | backreference _ | character _ | range _ _ | shorthand _ | charClass _ _ _
    | classExpression _ _ | classOperation _ _ _ | strings _ => rfl

end

end Node

/-! ## Images of places -/

namespace Place

/-- The image of a place holds the image of its node and is reached by the images of its steps. -/
def IsImage (p q : Place) : Prop :=
  q.node = p.node.mirror ∧ List.Forall₂ Step.IsImage p.trail q.trail

/-- A child of a place with an image has an image among the children of that one. -/
theorem IsImage.child {p q c : Place} (h : p.IsImage q) (hc : c ∈ p.children) :
    ∃ e ∈ q.children, c.IsImage e := by
  obtain ⟨i, hnode, htrail⟩ := slot_of_mem_children hc
  have hchild := Node.child_mirror hnode
  rw [← h.1] at hchild
  obtain ⟨e, he, henode, hetrail⟩ := exists_child hchild
  refine ⟨e, List.mem_of_getElem? he, henode, ?_⟩
  rw [htrail, hetrail]
  exact .cons ⟨h.1, rfl⟩ h.2

end Place

namespace Regex

/-- The regular expression read from right to left. -/
def mirror (r : Regex) : Regex := ⟨r.root.mirror.text, r.flags, r.root.mirror⟩

/-- Every place has an image in the image of the tree. -/
theorem exists_image (r : Regex) {p : Place} (hp : p ∈ r.walk) :
    ∃ q ∈ r.mirror.walk, p.IsImage q := by
  have htop : Place.IsImage ⟨r.root, 0, 0, []⟩ ⟨r.root.mirror, 0, 0, []⟩ := ⟨rfl, .nil⟩
  rw [walk, Place.walk_eq_below] at hp
  refine Place.forall_below (P := fun p => ∃ q ∈ r.mirror.walk, p.IsImage q) ?_
    ⟨_, Place.mem_below_self _, htop⟩ p hp
  rintro p ⟨q, hq, himage⟩ c hc
  obtain ⟨e, he, himage⟩ := himage.child hc
  rw [walk, Place.walk_eq_below] at hq ⊢
  exact ⟨e, Place.mem_below_of_mem_children hq he, himage⟩

/-- The analyses from left to right and from right to left are mirror images. Without references to
groups, a node has an image in the mirrored tree; what it consumes first, and what follows it, in one
direction is what its image consumes first, and what follows that one, in the other. -/
theorem mirror_analysis [Properties]
    (r : Regex) (hreferences : ∀ ref, ¬ r.root.HasPart (.backreference ref))
    (flags : Flags) {p : Place} (hp : p ∈ r.walk) :
    (∃ q ∈ r.mirror.walk, p.IsImage q) ∧
    ∀ q, p.IsImage q → ∀ d,
      r.mirror.first flags d.reverse q = r.first flags d p ∧
      r.mirror.after flags d.reverse q = r.after flags d p := by
  refine ⟨r.exists_image hp, ?_⟩
  rintro q ⟨hnode, htrail⟩ d
  have hleads := Node.leads_of_mem_walk hp
  constructor
  · rw [first, first, hnode]
    exact Node.first_mirror p.path q.path p.node fun ref hpart =>
      hreferences ref (hleads.hasPart.trans hpart)
  · rw [after, after, hnode]
    exact Node.afterAlong_mirror hreferences hleads htrail

open Node in
/-- The lookbehind of `(?<=ab)c$` looks backwards at what the lookahead of `^c(?=ba)` looks at
forwards. -/
theorem mirror_analysis_lookbehind :
    let a : Node := character ⟨97, ['a']⟩
    let b : Node := character ⟨98, ['b']⟩
    let c : Node := character ⟨99, ['c']⟩
    let behind : Node := look .backward false [alternative [a, b]]
    let ahead : Node := look .forward false [alternative [b, a]]
    let r : Regex := ⟨['(', '?', '<', '=', 'a', 'b', ')', 'c', '$'], .empty,
      choice .whole [alternative [behind, c, edge .lineEnd]]⟩
    let m : Regex := ⟨['^', 'c', '(', '?', '=', 'b', 'a', ')'], .empty,
      choice .whole [alternative [edge .lineStart, c, ahead]]⟩
    let p : Place := ⟨behind, 2, 0, [⟨alternative [behind, c, edge .lineEnd], 1, 0, 0⟩,
      ⟨r.root, 0, 0, 0⟩]⟩
    let q : Place := ⟨ahead, 4, 2, [⟨alternative [edge .lineStart, c, ahead], 1, 0, 2⟩,
      ⟨m.root, 0, 0, 0⟩]⟩
    Regex.parse r.source .empty = .ok r ∧ Regex.parse m.source .empty = .ok m ∧ r.mirror = m ∧
      p ∈ r.walk ∧ q ∈ m.walk ∧ p.IsImage q ∧
      m.first .empty .forward q = r.first .empty .backward p := by
  intro a b c behind ahead r m p q
  have hp : p ∈ r.walk := List.mem_of_getElem? (i := 2) rfl
  have hq : q ∈ m.walk := List.mem_of_getElem? (i := 4) rfl
  have himage : p.IsImage q := ⟨rfl, .cons ⟨rfl, rfl⟩ (.cons ⟨rfl, rfl⟩ .nil)⟩
  have hreferences : Throughout (fun n => ∀ ref, n ≠ .backreference ref) r.root := by
    have hleaf {n : Node} (hn : n.children = []) (href : ∀ ref, n ≠ .backreference ref) :
        Throughout (fun n => ∀ ref, n ≠ .backreference ref) n :=
      throughout_iff.2 ⟨href, by simp [hn]⟩
    refine throughout_iff.2 ⟨nofun, fun n hn => ?_⟩
    rw [List.mem_singleton.1 hn]
    refine throughout_iff.2 ⟨nofun, ?_⟩
    have hbehind : Throughout (fun n => ∀ ref, n ≠ .backreference ref) behind := by
      refine throughout_iff.2 ⟨nofun, fun n hn => ?_⟩
      rw [List.mem_singleton.1 hn]
      refine throughout_iff.2 ⟨nofun, ?_⟩
      simp only [children, List.forall_mem_cons]
      exact ⟨hleaf rfl nofun, hleaf rfl nofun, by simp⟩
    simp only [children, List.forall_mem_cons]
    exact ⟨hbehind, hleaf rfl nofun, hleaf rfl nofun, by simp⟩
  exact ⟨rfl, rfl, rfl, hp, hq, himage,
    ((mirror_analysis r (fun ref hpart => hreferences _ hpart ref rfl) .empty hp).2 q himage
      .backward).1⟩

end Regex

end RegexAudit
