import RegexAudit.CharSet.KnownProperties
import RegexAudit.Proofs.Symmetry
import RegexAudit.Proofs.Walks
import RegexAudit.Syntax.Regex

/-!
# Equal nodes where they stand

A hook may ask more of a node than what it is: where it stands, what is above it, and in which
pattern it is. Such a hook is no hook of a `Comparison`, which sees bare nodes. So nodes are
compared here together with the place they stand at, from places to the places of their children;
and whether two references lead to the same group is asked of the patterns they stand in.

For a hook that only asks what the nodes are, this is the comparison of the nodes:

    hook = (fun x y => c.hook x.node y.node) → same … a b = c.same a.node b.node     (same_eq_same)

Symmetry and reflexivity hold of both for the same reason (`Proofs.Symmetry`).
-/

namespace RegexAudit

/-- A place in a pattern. Patterns that were parsed apart have numbers of their own. -/
structure Site where
  tree : Nat
  regex : Regex
  place : Place

namespace Site

open Comparison

def node (s : Site) : Node := s.place.node

/-- The places of the children, in the same pattern. -/
def children (s : Site) : List Site := s.place.children.map fun p => { s with place := p }

theorem size_lt_of_mem_children {s c : Site} (h : c ∈ s.children) : c.node.size < s.node.size := by
  obtain ⟨p, hp, rfl⟩ := List.mem_map.1 h
  have hnode : p.node ∈ s.place.node.children := by
    rw [← s.place.map_node_children]
    exact List.mem_map_of_mem hp
  exact Node.size_lt_of_child hnode

theorem induction_on_children {P : Site → Prop} (h : ∀ s, (∀ c ∈ s.children, P c) → P s)
    (s : Site) : P s := by
  induction hsize : s.node.size using Nat.strong_induction_on generalizing s with
  | h n ih =>
    subst hsize
    exact h s fun c hc => ih _ (size_lt_of_mem_children hc) c rfl

/-- Two references are compared by where they lead in one pattern, and by their texts in two. -/
def sameReference (a b : Site) (x y : GroupRef) : Bool :=
  if a.tree == b.tree then
    (a.regex.resolve? x).isSome && a.regex.resolve? x == b.regex.resolve? y
  else x.text == y.text

/-- Whether two nodes agree, when it is known whether their children are equal in this order and
in some order. -/
def sameParts (a b : Site) (inOrder inSomeOrder : Bool) : Bool :=
  match a.node, b.node with
  | .alternative _, .alternative _ | .string _, .string _ => inOrder
  | .choice .whole _, .choice .whole _ | .choice .plain _, .choice .plain _
  | .strings _, .strings _ => inSomeOrder
  | .choice (.capture _ x) _, .choice (.capture _ y) _ => x == y && inSomeOrder
  | .look d m _, .look e n _ => d == e && m == n && inSomeOrder
  | .quantifier x g _ _, .quantifier y h _ _ => x == y && g == h && inOrder
  | .edge x, .edge y => x == y
  | .backreference x, .backreference y => sameReference a b x y
  | _, _ => false

/-! ## What nodes agree in -/

theorem sameReference_comm (a b : Site) (x y : GroupRef) :
    sameReference a b x y = sameReference b a y x := by
  unfold sameReference
  rw [BEq.comm (a := a.tree), BEq.comm (a := x.text)]
  by_cases h : a.regex.resolve? x = b.regex.resolve? y
  · rw [h]
  · rw [beq_false_of_ne h, beq_false_of_ne (Ne.symm h), Bool.and_false, Bool.and_false]

theorem sameParts_comm (a b : Site) (inOrder inSomeOrder : Bool) :
    sameParts a b inOrder inSomeOrder = sameParts b a inOrder inSomeOrder := by
  unfold sameParts
  generalize a.node = n
  generalize b.node = m
  split
  · rfl
  · rfl
  · rfl
  · rfl
  · rfl
  · rw [BEq.comm]
  · rename_i d negate _ _ _ _
    rw [BEq.comm (a := d), BEq.comm (a := negate)]
  · rename_i bounds greedy _ _ _ _ _ _
    rw [BEq.comm (a := bounds), BEq.comm (a := greedy)]
  · exact BEq.comm
  · exact sameReference_comm a b _ _
  · -- nodes that do not go together this way round do not the other way round either
    split <;> grind

theorem sameParts_refl {s : Site} (hno : s.node.isCharacter = false)
    (href : ∀ ref, s.node = .backreference ref → (s.regex.resolve? ref).isSome = true) :
    sameParts s s true true = true := by
  unfold sameParts
  cases hnode : s.node with
  | choice frame xs => cases frame <;> simp
  | backreference ref => simp [sameReference, href ref hnode]
  | alternative _ | look _ _ _ | quantifier _ _ _ _ | edge _ | strings _ | string _ => simp
  | character _ | range _ _ | shorthand _ | charClass _ _ _ | classExpression _ _
  | classOperation _ _ _ =>
    rw [hnode] at hno
    cases hno

/-! ## Comparing -/

section
variable [Properties]

section
variable (flags : Flags) (hook : Site → Site → Option Bool)

/-- Whether the nodes at two places are equal. -/
def same (byText : Bool) (a b : Site) : Bool :=
  match hook a b with
  | some verdict => verdict
  | none =>
    if a.node.isCharacter && b.node.isCharacter then sameCharacters flags a.node b.node
    else
      let child (x : { x // x ∈ a.children }) (y : Site) : Bool := same byText x.1 y
      (byText && sameText a.node b.node) ||
        sameParts a b (pairwise child a.children.attach b.children)
          (matchUp child a.children.attach b.children)
termination_by a.node.size
decreasing_by exact size_lt_of_mem_children x.2

/-- Whether the nodes at two places are equal; texts are compared only where no reference is. -/
def equal (a b : Site) : Bool :=
  same flags hook (!a.node.hasBackreference && !b.node.hasBackreference) a b

end

variable {flags : Flags} {hook : Site → Site → Option Bool} {byText : Bool}

theorem same_eq (a b : Site) : same flags hook byText a b =
    match hook a b with
    | some verdict => verdict
    | none =>
      if a.node.isCharacter && b.node.isCharacter then sameCharacters flags a.node b.node
      else (byText && sameText a.node b.node) ||
        sameParts a b (pairwise (same flags hook byText) a.children b.children)
          (matchUp (same flags hook byText) a.children b.children) := by
  have hpairwise :=
    pairwise_map (same flags hook byText) Subtype.val id a.children.attach b.children
  have hmatchUp :=
    matchUp_map (same flags hook byText) Subtype.val id a.children.attach b.children
  rw [List.attach_map_subtype_val, List.map_id] at hpairwise hmatchUp
  rw [same, hpairwise, hmatchUp]
  rfl

/-! ## Symmetry and reflexivity -/

theorem same_comm (h : ∀ x y, hook x y = hook y x) (a b : Site) :
    same flags hook byText a b = same flags hook byText b a := by
  induction a using induction_on_children generalizing b with
  | h a ih =>
    rw [same_eq, same_eq b, h, Bool.and_comm (x := a.node.isCharacter), sameCharacters_comm,
      sameText_comm, sameParts_comm, pairwise_comm fun x hx y _ => ih x hx y,
      matchUp_comm fun x hx y _ => ih x hx y]

theorem same_refl (s : Site) (href : ∀ ref, s.node.HasTerm (.backreference ref) →
      (s.regex.resolve? ref).isSome = true) :
    same flags (fun _ _ => none) byText s s = true := by
  induction s using induction_on_children with
  | h s ih =>
    rw [same_eq]
    dsimp only
    split
    · exact sameCharacters_refl flags s.node
    · rename_i hno
      rw [Bool.and_self, Bool.not_eq_true] at hno
      have hchildren : ∀ c ∈ s.children, same flags (fun _ _ => none) byText c c = true := by
        intro c hc
        refine ih c hc fun ref hterm => ?_
        obtain ⟨p, hp, rfl⟩ := List.mem_map.1 hc
        have hnode : p.node ∈ s.node.children := by
          rw [node, ← s.place.map_node_children]
          exact List.mem_map_of_mem hp
        exact href ref ((Node.HasTerm.self.child hno hnode).trans hterm)
      rw [pairwise_refl hchildren, matchUp_refl hchildren,
        sameParts_refl hno fun ref hnode => href ref (hnode ▸ .self), Bool.or_true]

/-! ## Bare nodes -/

/-- A hook that only asks what the nodes are: then so does the comparison, but for references. -/
theorem same_eq_same {c : Comparison} {t u : Nat} {r s : Regex}
    (hhook : ∀ x y, hook x y = c.hook x.node y.node)
    (href : ∀ p q x y, sameReference ⟨t, r, p⟩ ⟨u, s, q⟩ x y = c.sameReference x y) (p q : Place) :
    same c.flags hook c.byText ⟨t, r, p⟩ ⟨u, s, q⟩ = c.same p.node q.node := by
  induction p using Place.induction_on_children generalizing q with
  | h p ih =>
    have hpairwise : pairwise (same c.flags hook c.byText) (children ⟨t, r, p⟩) (children ⟨u, s, q⟩)
        = pairwise c.same p.node.children q.node.children := by
      rw [children, children, pairwise_map, ← p.map_node_children, ← q.map_node_children,
        pairwise_map]
      exact pairwise_congr fun x hx y _ => ih x hx y
    have hmatchUp : matchUp (same c.flags hook c.byText) (children ⟨t, r, p⟩) (children ⟨u, s, q⟩)
        = matchUp c.same p.node.children q.node.children := by
      rw [children, children, matchUp_map, ← p.map_node_children, ← q.map_node_children,
        matchUp_map]
      exact matchUp_congr fun x hx y _ => ih x hx y
    rw [same_eq, hpairwise, hmatchUp, hhook, Comparison.same.eq_def]
    unfold verdict sameParts
    simp only [href]
    show (match c.hook p.node q.node with | some verdict => verdict | none => _) = _
    congr 1
    funext
    congr 2
    dsimp only [node]
    generalize p.node = n
    generalize q.node = m
    split
    · exact (sameAll_eq_pairwise c _ _).symm
    · rename_i xs ys
      rw [Node.children, Node.children, pairwise_map]
      exact pairwise_congr fun x _ y _ => (sameLetterNodes_eq_same c x y).symm
    · exact (sameSomeOrder_eq_matchUp c _ _).symm
    · exact (sameSomeOrder_eq_matchUp c _ _).symm
    · rename_i xs ys
      rw [Node.children, Node.children, matchUp_map]
      exact matchUp_congr fun x _ y _ => (sameStrings_eq_same c x y).symm
    · exact congrArg (_ && ·) (sameSomeOrder_eq_matchUp c _ _).symm
    · exact congrArg (_ && ·) (sameSomeOrder_eq_matchUp c _ _).symm
    · rw [Node.children, Node.children, pairwise, pairwise, Bool.and_true]
    · rfl
    · rfl
    · split <;> grind


/-- A comparison whose hook sees bare nodes is that of the nodes at the places, in one pattern
or in two. -/
theorem equal_eq_equal {flags : Flags} {nodes : Node → Node → Option Bool} {a b : Site}
    (htree : a.tree = b.tree → a.regex = b.regex) :
    equal flags (fun x y => nodes x.node y.node) a b =
      Comparison.equal
        ⟨flags, if a.tree == b.tree then some a.regex.resolve? else none, false, nodes⟩
        a.node b.node := by
  obtain ⟨t, r, p⟩ := a
  obtain ⟨u, s, q⟩ := b
  refine same_eq_same (c := ⟨flags, _, _, nodes⟩) (fun _ _ => rfl) (fun _ _ x y => ?_) p q
  unfold sameReference Comparison.sameReference
  dsimp only
  split
  · rename_i hsame
    obtain rfl : r = s := htree (eq_of_beq hsame)
    rfl
  · rfl

/-- With a symmetric hook, or with none, the order of two nodes does not matter, whatever the hook
asks about where they stand. Without a hook a node is equal to itself if each of its references
leads to a group. Both also hold of bare nodes, wherever references may lead. -/
theorem equal_symmetric_reflexive :
    (∀ (flags : Flags) (hook : Site → Site → Option Bool), (∀ x y, hook x y = hook y x) →
      ∀ a b, equal flags hook a b = equal flags hook b a) ∧
    (∀ (flags : Flags) (a : Site),
      (∀ ref, a.node.HasTerm (.backreference ref) → (a.regex.resolve? ref).isSome = true) →
      equal flags (fun _ _ => none) a a = true) ∧
    (∀ c : Comparison, (∀ x y, c.hook x y = c.hook y x) →
      ∀ a b, c.equal a b = c.equal b a) ∧
    ∀ (flags : Flags) (resolve? : GroupRef → Option Nat) (n : Node),
      (∀ ref, n.HasTerm (.backreference ref) → (resolve? ref).isSome = true) →
      Comparison.equal { flags, resolve? := some resolve? } n n = true := by
  refine ⟨fun flags hook h a b => ?_, fun flags a href => same_refl a href,
    fun c h a b => c.equal_comm h a b, Comparison.equal_refl⟩
  rw [equal, equal, Bool.and_comm]
  exact same_comm h a b

end

open Node in
/-- A hook that takes the first alternatives of two patterns for equal makes `x|z` equal to `y|z`
both ways round, as does one that asks how wide two nodes are; and `(a)\1` is equal to itself. -/
theorem equal_symmetric_reflexive_first :
    let row (c : Char) : Node := alternative [character ⟨c.toNat, [c]⟩]
    let site (tree : Nat) (source : List Char) (root : Node) : Site :=
      ⟨tree, ⟨source, {}, root⟩, ⟨root, 0, 0, []⟩⟩
    let first (x y : Site) : Option Bool :=
      if x.place.path == [0] && y.place.path == [0] then some (x.tree != y.tree) else none
    let width : Comparison := { flags := {}, hook := fun n m => some (n.width == m.width) }
    let a : Site := site 0 ['x', '|', 'z'] (choice .whole [row 'x', row 'z'])
    let b : Site := site 1 ['y', '|', 'z'] (choice .whole [row 'y', row 'z'])
    let group : Node := choice (.capture 1 none) [row 'a']
    let reference : Node := backreference (.index 1)
    let s : Site :=
      site 0 ['(', 'a', ')', '\\', '1'] (choice .whole [alternative [group, reference]])
    (equal {} first a b = true ∧ equal {} first b a = true) ∧
      equal {} (fun _ _ => none) s s = true ∧
      (width.equal a.node b.node = true ∧ width.equal b.node a.node = true) ∧
      Comparison.equal { flags := {}, resolve? := some s.regex.resolve? } s.node s.node = true := by
  intro row site first width a b group reference s
  obtain ⟨hsites, hsite, hnodes, hnode⟩ := equal_symmetric_reflexive
  have hfirst : equal {} first a b = true := by decide +kernel
  have hwidth : width.equal a.node b.node = true := by decide +kernel
  have href (ref : GroupRef) (h : s.node.HasTerm (.backreference ref)) :
      (s.regex.resolve? ref).isSome = true := by
    have hgroup : group.hasBackreference = false := rfl
    obtain h | ⟨-, row, hrow, h⟩ := hasTerm_iff.1 h
    · cases h
    obtain rfl := List.mem_singleton.1 hrow
    obtain h | ⟨-, m, hm, h⟩ := hasTerm_iff.1 h
    · cases h
    obtain rfl | rfl := List.mem_pair.1 hm
    · cases hasBackreference_of_hasTerm hgroup h
    obtain h | ⟨-, m, hm, h⟩ := hasTerm_iff.1 h
    · rw [backreference.inj h]
      rfl
    · cases hm
  refine ⟨⟨hfirst, ?_⟩, hsite {} s href, ⟨hwidth, ?_⟩, hnode {} s.regex.resolve? s.node href⟩
  · rw [← hfirst]
    refine hsites {} first (fun x y => ?_) b a
    simp only [first]
    rw [Bool.and_comm, bne_comm]
  · rw [← hwidth]
    exact hnodes width (fun n m => congrArg some BEq.comm) b.node a.node

end Site

end RegexAudit
