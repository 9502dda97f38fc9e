import RegexAudit.Proofs.Contexts

/-!
# The order of ranges

A class with a range whose ends are out of order is refused, so no tree that was read has one
(`Regex.ascending_of_parse`). Only `makeRange` builds ranges, and both kinds of classes go through
it; everything else that stands in a class is passed on as it is.
-/

namespace RegexAudit

namespace Node

/-- The ends of every range in the tree are in order. -/
def Ascending : Node → Prop := Throughout fun m => ∀ a b, m = range a b → a.value ≤ b.value

/-- Only a range can be out of order by itself. -/
theorem ascending_of_children {n : Node} (hn : ∀ a b, n ≠ range a b)
    (h : ∀ c ∈ n.children, c.Ascending) : n.Ascending :=
  throughout_iff.2 ⟨fun a b hab => absurd hab (hn a b), h⟩

theorem ascending_of_leaf {n : Node} (hn : ∀ a b, n ≠ range a b) (h : n.children = []) :
    n.Ascending :=
  ascending_of_children hn (by simp [h])

theorem ascending_character (letter : Letter) : (character letter).Ascending :=
  ascending_of_leaf nofun rfl

theorem ascending_shorthand (set : Shorthand) : (shorthand set).Ascending :=
  ascending_of_leaf nofun rfl

theorem ascending_range {a b : Letter} (h : a.value ≤ b.value) : (range a b).Ascending := by
  refine throughout_iff.2 ⟨?_, fun c hc => ?_⟩
  · rintro a' b' hab
    cases hab
    exact h
  · simp only [children, List.mem_cons, List.not_mem_nil, or_false] at hc
    rcases hc with rfl | rfl <;> exact ascending_character _

theorem ascending_strings (alternatives : List (List Letter)) :
    (strings alternatives).Ascending := by
  refine ascending_of_children nofun fun c hc => ?_
  obtain ⟨letters, -, rfl⟩ := List.mem_map.1 hc
  refine ascending_of_children nofun fun c hc => ?_
  obtain ⟨letter, -, rfl⟩ := List.mem_map.1 hc
  exact ascending_character letter

end Node

open Node

namespace Class

variable {setting : Setting} {text rest : List Char} {n : Node} {ns : List Node}

/-! ## Without `v` -/

section
variable {p : Node → Prop} (hcharacter : ∀ letter, p (.character letter))
  (hshorthand : ∀ set, p (.shorthand set)) (hrange : ∀ a b, a.value ≤ b.value → p (.range a b))

include hcharacter hshorthand

theorem Escape.forall (h : Escape setting text n rest) : p n := by
  cases h with
  | shorthand _ => exact hshorthand _
  | character _ _ => exact hcharacter _

theorem Atom.forall (h : Atom setting text n rest) : p n := by
  cases h with
  | escape h => exact h.forall hcharacter hshorthand
  | self _ _ => exact hcharacter _

include hrange

/-- Items are characters, shorthands, ranges in order and hyphens. -/
theorem Item.forall (h : Item setting text ns rest) : ∀ n ∈ ns, p n := by
  have hatom {text rest : List Char} {n : Node} (h : Atom setting text n rest) : p n :=
    h.forall hcharacter hshorthand
  cases h with
  | single ha _ => exact List.forall_mem_singleton.2 (hatom ha)
  | range _ _ _ hle => exact List.forall_mem_singleton.2 (hrange _ _ hle)
  | apart _ ha _ hb _ => simpa using ⟨hatom ha, hcharacter _, hatom hb⟩

/-- Without `v` only characters, shorthands and ranges stand in a class. -/
theorem Items.forall (h : Items setting text ns rest) : ∀ n ∈ ns, p n := by
  induction h with
  | nil => exact List.forall_mem_nil _
  | cons _ hitem _ ih =>
    exact List.forall_mem_append.2 ⟨hitem.forall hcharacter hshorthand hrange, ih⟩

end

theorem ascending_listed (h : listed setting text = .ok (n, rest)) : n.Ascending := by
  obtain ⟨ns, rfl, hitems⟩ := listed_iff.1 h
  exact ascending_of_children nofun
    (hitems.forall ascending_character ascending_shorthand fun _ _ => ascending_range)

/-! ## With `v` -/

/-- All that stands in a class has a property if the classes in it have it. -/
structure Members (p : Node → Prop) : Prop where
  character (letter : Letter) : p (character letter)
  shorthand (set : Shorthand) : p (shorthand set)
  range {a b : Letter} : a.value ≤ b.value → p (range a b)
  strings (alternatives : List (List Letter)) : p (.strings alternatives)
  operation (operator : SetOperator) {left right : Node} : p left → p right →
    p (classOperation operator left right)

namespace Members

variable {p q : Node → Prop} (hp : Members p) {reader : List Char → Except Fault (Node × List Char)}
  (hreader : ∀ {text rest n}, reader text = .ok (n, rest) → p n)

include hp hreader

theorem operand (h : Class.operand setting reader text = .ok (n, rest)) : p n := by
  cases operand_iff.1 h with
  | nested h => exact hreader h
  | strings _ => exact hp.strings _
  | escape _ h => exact h.forall hp.character hp.shorthand
  | self _ _ _ => exact hp.character _

theorem element (h : Element reader text n rest) : p n := by
  cases h with
  | single h _ => exact hreader h
  | range _ _ _ hle => exact hp.range hle

/-- An operation is one of its operands or made of two. -/
theorem operations {operator : SetOperator} {left : Node} (hleft : p left)
    (h : Operations reader operator left text n rest) : p n := by
  induction h with
  | nil => exact hleft
  | cons hright _ ih => exact ih (hp.operation operator hleft (hreader hright))

theorem elements (h : Elements reader text ns rest) : ∀ n ∈ ns, p n := by
  induction h with
  | nil => exact List.forall_mem_nil _
  | cons _ _ h _ ih => exact List.forall_mem_cons.2 ⟨hp.element hreader h, ih⟩

/-- What is read between the brackets of a class: elements, or an expression. -/
theorem body (hlist : ∀ negate ns, (∀ n ∈ ns, p n) → q (charClass negate true ns))
    (hexpression : ∀ negate n, p n → q (classExpression negate n))
    (h : Class.body reader text = .ok (n, rest)) : q n := by
  have hbody := Body.of_ok h
  generalize (negation text).2 = inside at hbody
  cases hbody with
  | empty => exact hlist _ _ (List.forall_mem_nil _)
  | list _ hfirst _ hmore =>
    exact hlist _ _ (List.forall_mem_cons.2 ⟨hp.element hreader hfirst, hp.elements hreader hmore⟩)
  | expression _ hfirst _ _ h =>
    exact hexpression _ _ (hp.operations hreader (hreader hfirst) h)

end Members

theorem members_ascending : Members Ascending where
  character := ascending_character
  shorthand := ascending_shorthand
  range := ascending_range
  strings := ascending_strings
  operation _ _ _ hleft hright :=
    ascending_of_children nofun
      (List.forall_mem_cons.2 ⟨hleft, List.forall_mem_singleton.2 hright⟩)

/-- Ranges in classes with `v` are in order, at any depth. -/
theorem ascending_nested {depth : Nat} (h : nested setting depth text = .ok (n, rest)) :
    n.Ascending := by
  induction depth generalizing text rest n with
  | zero => cases h
  | succ depth ih =>
    have hp := members_ascending
    refine hp.body (hp.operand ih) (fun negate ns hns => ?_) (fun negate n hn => ?_) h
    · exact ascending_of_children nofun hns
    · exact ascending_of_children nofun (List.forall_mem_singleton.2 hn)

end Class

/-! ## Patterns -/

namespace Pattern

/-- The only leaves with ranges are classes. -/
theorem Leaf.ascending {setting : Setting} {text rest : List Char} {n : Node} {repeats : Bool}
    {depth : Nat} (h : Leaf setting (Class.nested setting depth) text n repeats rest) :
    n.Ascending := by
  cases h with
  | edge e => exact ascending_of_leaf nofun rfl
  | any => exact ascending_of_leaf nofun rfl
  | charClass hread =>
    split at hread
    · exact Class.ascending_nested hread
    · exact Class.ascending_listed hread
  | plain _ => exact ascending_character _
  | escape _ _ hread => cases escaped_iff.1 hread <;> exact ascending_of_leaf nofun rfl

theorem ascending_disjunction {setting : Setting} {depth : Nat} {s s' : Progress} {ns : List Node}
    (h : disjunction setting depth s = .ok (ns, s')) : ∀ n ∈ ns, n.Ascending := by
  refine forall_disjunction (fun _ hread => hread.ascending) (fun n hn _ hchildren => ?_)
    (Nat.le_refl _) h
  refine ascending_of_children ?_ hchildren
  rintro a b rfl
  cases hn

end Pattern

/-- Every range of a parsed pattern is in order. -/
theorem Regex.ascending_of_parse {source : List Char} {flags : Flags} {r : Regex}
    (h : Regex.parse source flags = .ok r) : r.root.Ascending := by
  obtain ⟨ns, s, hread, -, -, rfl⟩ := Regex.parse_iff.1 h
  exact ascending_of_children nofun (Pattern.ascending_disjunction hread)

end RegexAudit
