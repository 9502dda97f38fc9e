import RegexAudit.Proofs.Contexts
import RegexAudit.Proofs.Counters
import RegexAudit.Proofs.RangeOrder

/-!
# Nesting

On the way from the root of a parsed tree to any of its nodes there are at most `nestingLimit` patterns,
groups, lookarounds and classes of the flag `v`:

    Regex.parse source flags = .ok r → ∀ p ∈ r.walk, p.nesting ≤ nestingLimit        (parse_nesting)

So a recursion over the tree goes no deeper than that, elements and quantifiers between them aside. The
limit does nothing else: a source that is read is read the same with any larger one.
-/

namespace RegexAudit

namespace Node

/-- The node is one of those that may not stand too deep in one another. -/
def nests : Node → Bool
  | choice .. | look .. | charClass _ true _ | classExpression .. => true
  | _ => false

/-- On no way down from the node more than `depth` nodes nest, the node itself counted. -/
inductive Shallow : (depth : Nat) → Node → Prop
  | inside {depth : Nat} {n : Node} : n.nests = true → (∀ c ∈ n.children, Shallow depth c) →
    Shallow (depth + 1) n
  | beside {depth : Nat} {n : Node} : n.nests = false → (∀ c ∈ n.children, Shallow depth c) →
    Shallow depth n

variable {depth : Nat}

theorem shallow_leaf {n : Node} (hn : n.nests = false) (h : n.children = []) : n.Shallow depth :=
  .beside hn (by simp [h])

theorem shallow_character (letter : Letter) : (character letter).Shallow depth :=
  shallow_leaf rfl rfl

theorem shallow_range (a b : Letter) : (range a b).Shallow depth :=
  .beside rfl (List.forall_mem_cons.2
    ⟨shallow_character a, List.forall_mem_singleton.2 (shallow_character b)⟩)

theorem shallow_strings (alternatives : List (List Letter)) : (strings alternatives).Shallow depth := by
  refine .beside rfl fun c hc => ?_
  obtain ⟨letters, -, rfl⟩ := List.mem_map.1 hc
  refine .beside rfl fun c hc => ?_
  obtain ⟨letter, -, rfl⟩ := List.mem_map.1 hc
  exact shallow_character letter

end Node

open Node

/-! ## Classes -/

namespace Class

variable {setting : Setting} {depth : Nat} {text rest : List Char} {n : Node}

theorem members_shallow (depth : Nat) : Members (Shallow depth) where
  character := shallow_character
  shorthand _ := shallow_leaf rfl rfl
  range _ := shallow_range _ _
  strings := shallow_strings
  operation operator _ _ hleft hright := by
    refine .beside (by cases operator <;> rfl) ?_
    exact List.forall_mem_cons.2 ⟨hleft, List.forall_mem_singleton.2 hright⟩

theorem shallow_listed (h : listed setting text = .ok (n, rest)) : n.Shallow depth := by
  obtain ⟨ns, rfl, hitems⟩ := listed_iff.1 h
  have hp := members_shallow depth
  exact .beside rfl (hitems.forall hp.character hp.shorthand fun _ _ => hp.range)

theorem shallow_nested (h : nested setting depth text = .ok (n, rest)) : n.Shallow depth := by
  induction depth generalizing text rest n with
  | zero => cases h
  | succ depth ih =>
    have hp := members_shallow depth
    refine hp.body (hp.operand ih) (fun negate ns hns => ?_) (fun negate n hn => ?_) h
    · exact .inside rfl hns
    · exact .inside rfl (List.forall_mem_singleton.2 hn)

end Class

/-! ## Patterns -/

namespace Pattern

variable {setting : Setting} {depth : Nat} {s s' : Progress} {n : Node} {ns : List Node}

theorem Leaf.shallow {text rest : List Char} {repeats : Bool}
    (h : Leaf setting (Class.nested setting depth) text n repeats rest) : n.Shallow depth := by
  cases h with
  | edge e => exact shallow_leaf rfl rfl
  | any => exact shallow_leaf rfl rfl
  | charClass hread =>
    split at hread
    · exact Class.shallow_nested hread
    · exact Class.shallow_listed hread
  | plain _ => exact shallow_character _
  | escape _ _ hread => cases escaped_iff.1 hread <;> exact shallow_leaf rfl rfl

/-- A group takes one of the levels that its alternatives are read with. -/
theorem shallow_term
    (hinner : ∀ {s s' ns}, disjunction setting depth s = .ok (ns, s') →
      ∃ left, depth = left + 1 ∧ ∀ n ∈ ns, n.Shallow left)
    (h : termAt setting depth s = .ok (n, s')) : n.Shallow depth := by
  obtain ⟨element, repeats, s1, rest, helement, hends, -⟩ := term_iff.1 h
  have hshallow : element.Shallow depth := by
    obtain ⟨rest, hleaf, -⟩ | ⟨o, r, ns, s2, hencloses, rfl, -⟩ := unquantified_iff.1 helement
    · exact hleaf.shallow
    · obtain ⟨left, rfl, hns⟩ := hinner hencloses.inside
      refine .inside (by cases o <;> rfl) ?_
      rwa [Opening.children_node]
  cases hends with
  | repeatable _ | unrepeatable _ => exact hshallow
  | repeated _ => exact .beside rfl (List.forall_mem_singleton.2 hshallow)

theorem shallow_disjunction (h : disjunction setting depth s = .ok (ns, s')) :
    ∃ left, depth = left + 1 ∧ ∀ n ∈ ns, n.Shallow left := by
  induction depth generalizing s s' ns with
  | zero => cases h
  | succ depth ih =>
    exact ⟨depth, rfl, (disjunction_iff.1 h).forall fun hrow =>
      .beside rfl (hrow.forall (shallow_term ih))⟩

end Pattern

/-! ## Ways down -/

namespace Place

/-- How many nodes nest on the way from the root to the place, its own counted. -/
def nesting (p : Place) : Nat := (p :: p.ancestors).countP fun q => q.node.nests

theorem ancestors_of_mem_children {p q : Place} (h : q ∈ p.children) :
    q.ancestors = p :: p.ancestors := by
  obtain ⟨i, -, htrail⟩ := slot_of_mem_children h
  rw [ancestors, htrail]
  rfl

/-- What stands below a place has the levels that are not used up on the way to it. -/
theorem exists_room {p : Place} {depth limit : Nat} (h : p.node.Shallow depth)
    (hle : p.ancestors.countP (fun q => q.node.nests) + depth ≤ limit) :
    ∃ left, (∀ c ∈ p.node.children, c.Shallow left) ∧ p.nesting + left ≤ limit := by
  rw [nesting, List.countP_cons]
  cases h with
  | @inside left _ hnests hchildren =>
    refine ⟨left, hchildren, ?_⟩
    rw [if_pos hnests]
    omega
  | beside hnests hchildren =>
    refine ⟨depth, hchildren, ?_⟩
    rwa [hnests, if_neg Bool.false_ne_true]

theorem nesting_le {root : Node} {limit : Nat} (h : root.Shallow limit) {p : Place}
    (hp : p ∈ root.walk) : p.nesting ≤ limit := by
  have hstep (q : Place) (hq : ∃ left, (∀ c ∈ q.node.children, c.Shallow left) ∧
      q.nesting + left ≤ limit) : ∀ c ∈ q.children,
        ∃ left, (∀ d ∈ c.node.children, d.Shallow left) ∧ c.nesting + left ≤ limit := by
    obtain ⟨left, hchildren, hle⟩ := hq
    intro c hc
    obtain ⟨i, hnode, -⟩ := slot_of_mem_children hc
    refine exists_room (hchildren _ (List.mem_of_getElem? hnode)) ?_
    rwa [ancestors_of_mem_children hc]
  have hroot := exists_room (p := ⟨root, 0, 0, []⟩) h (Nat.le_of_eq (Nat.zero_add limit))
  obtain ⟨left, -, hle⟩ := forall_below hstep hroot p hp
  exact Nat.le_of_add_right_le hle

end Place

namespace Regex

open Pattern

variable {source : List Char} {flags : Flags} {r : Regex}

theorem shallow_of_parse (h : Regex.parse source flags = .ok r) : r.root.Shallow nestingLimit := by
  obtain ⟨ns, s, hread, -, -, rfl⟩ := parse_iff.1 h
  obtain ⟨left, hleft, hns⟩ := shallow_disjunction hread
  rw [hleft]
  exact .inside rfl hns

theorem parseWithin_of_parse (h : Regex.parse source flags = .ok r) {limit : Nat}
    (hlimit : nestingLimit ≤ limit) : parseWithin limit flags source = .ok r.root := by
  obtain ⟨root, hroot, hr⟩ := bind_eq_ok.1 h
  cases hr
  obtain ⟨offset, hdeep⟩ | hsame := parseWithin_agrees hlimit flags source
  · rw [Pattern.parse, hdeep] at hroot
    cases hroot
  · rw [← hsame]
    exact hroot

/-- The limit on nesting bounds the tree and does nothing else: with any larger one the same tree is
read. Kept as a counter, the depth is the same before and after whatever is entered, be it read or
refused. -/
theorem parse_nesting (h : Regex.parse source flags = .ok r) :
    (∀ p ∈ r.walk, p.nesting ≤ nestingLimit) ∧
      (∀ limit, nestingLimit ≤ limit → parseWithin limit flags source = .ok r.root) ∧
      (∀ setting limit depth room, limit ≤ depth + room →
        (∀ s, (Counted.disjunction setting limit room s).run.run depth =
          (disjunction setting (limit - depth) s, depth)) ∧
        ∀ text, (Counted.nested setting limit room text).run.run depth =
          (Class.nested setting (limit - depth) text, depth)) ∧
      ∀ limit, (Counted.read limit flags source).run.run 0 = (read limit flags source, 0) := by
  refine ⟨fun p => Place.nesting_le (shallow_of_parse h), fun limit => parseWithin_of_parse h,
    fun setting limit depth room hroom => ⟨?_, ?_⟩, fun limit => Counted.runs_read limit flags source⟩
  · exact Counted.runs_disjunction hroom
  · exact Counted.runs_nested hroom

open Node in
/-- In `(?=[[a]])` with `v` the letter stands in the pattern, a lookahead and two classes. -/
theorem parse_nesting_classes :
    let source := ['(', '?', '=', '[', '[', 'a', ']', ']', ')']
    let flags : Flags := { unicodeSets := true }
    let classes : Node := charClass false true [charClass false true [character ⟨97, ['a']⟩]]
    let ahead : Node := Node.look .forward false [alternative [classes]]
    let r : Regex := ⟨source, flags, choice .whole [alternative [ahead]]⟩
    Regex.parse source flags = .ok r ∧ r.walk.map Place.nesting = [1, 1, 2, 2, 3, 4, 4] ∧
      (∀ p ∈ r.walk, p.nesting ≤ nestingLimit) ∧
      parseWithin 1000 flags source = .ok r.root ∧
      (Counted.read 3 flags source).run.run 0 = (.error ⟨.tooDeep, ['a', ']', ']', ')']⟩, 0) := by
  intro source flags classes ahead r
  have hparse : Regex.parse source flags = .ok r := rfl
  obtain ⟨hnesting, hlimit, -, hcounter⟩ := parse_nesting hparse
  exact ⟨hparse, rfl, hnesting, hlimit 1000 (by decide), hcounter 3⟩

end Regex

end RegexAudit
