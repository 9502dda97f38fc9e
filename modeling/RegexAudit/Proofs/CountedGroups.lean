import RegexAudit.Proofs.RangeOrder
import RegexAudit.Proofs.Runs

/-!
# Groups counted in advance

What digits after a backslash are depends on the number of groups, and so the parentheses are counted
before a source is read. The count passes over one character after each backslash and over all that
stands in brackets. It knows nothing of names, properties or the strings of classes, and still finds
the groups of the tree that is read afterwards:

    Lexeme.countGroups flags.unicodeSets 0 source = (r.groups.length, whether a group has a name)

The only texts that could mislead it are bare brackets in strings, as in `[\q{](}]` (`countGroups_eq`).
Without `v` there are no strings, so then the count is right for all patterns (`countGroups_of_parse`).
-/

namespace RegexAudit

open Node

/-! ## Patterns without `v` -/

namespace Pattern

variable {setting : Setting} {n : Node}

theorem unbracketed_leaf (h : n.holdsBracket = false) (hchildren : n.children = []) :
    n.Unbracketed :=
  throughout_iff.2 ⟨h, by simp [hchildren]⟩

/-- There are no strings in classes without `v`. -/
theorem unbracketed_listed {text rest : List Char} (h : Class.listed setting text = .ok (n, rest)) :
    n.Unbracketed := by
  obtain ⟨ns, rfl, hitems⟩ := Class.listed_iff.1 h
  refine throughout_iff.2 ⟨rfl, hitems.forall unbracketed_character
    (fun _ => unbracketed_leaf rfl rfl) fun a b _ => throughout_iff.2 ⟨rfl, ?_⟩⟩
  simpa [children] using ⟨unbracketed_character a, unbracketed_character b⟩

theorem Leaf.unbracketed {text rest : List Char} {repeats : Bool} {depth : Nat}
    (hsets : setting.flags.unicodeSets = false)
    (h : Leaf setting (Class.nested setting depth) text n repeats rest) : n.Unbracketed := by
  cases h with
  | edge _ | any | plain _ => exact unbracketed_leaf rfl rfl
  | charClass hread =>
    rw [hsets] at hread
    exact unbracketed_listed hread
  | escape _ _ hread => cases escaped_iff.1 hread <;> exact unbracketed_leaf rfl rfl

theorem unbracketed_disjunction (hsets : setting.flags.unicodeSets = false) {depth : Nat}
    {s s' : Progress} {ns : List Node} (h : disjunction setting depth s = .ok (ns, s')) :
    ∀ n ∈ ns, n.Unbracketed :=
  forall_disjunction (fun _ hread => hread.unbracketed hsets)
    (fun _ hn _ hchildren => throughout_iff.2 ⟨holdsBracket_of_not_classLevel hn, hchildren⟩)
    (Nat.le_refl _) h

theorem holdsBracket_of_parse {source : List Char} {flags : Flags} {r : Regex}
    (hparse : Regex.parse source flags = .ok r) (hsets : flags.unicodeSets = false) :
    ∀ p ∈ r.walk, p.node.holdsBracket = false := by
  obtain ⟨ns, s, hread, -, -, rfl⟩ := Regex.parse_iff.1 hparse
  have hroot : (choice .whole ns).Unbracketed :=
    throughout_iff.2 ⟨rfl, unbracketed_disjunction hsets hread⟩
  exact fun p hp => hroot p.node (hasPart_of_mem_walk hp)

/-! ## Labels -/

theorem length_labels (r : Regex) : r.root.labels.length = r.groups.length := by
  have hlength := congrArg List.length (Regex.map_capture?_groups r)
  rw [List.length_map, List.length_map] at hlength
  rw [labels, List.length_map, hlength]

/-- A label is a name if the group that it is of has one. -/
theorem any_labels_iff (r : Regex) : r.root.labels.any Option.isSome = true ↔
    ∃ p ∈ r.groups, ∃ index name, p.node.capture? = some (index, some name) := by
  have hmem (capture : Nat × Option (List Char)) :
      capture ∈ r.root.captures ↔ ∃ p ∈ r.groups, p.node.capture? = some capture := by
    have hiff : some capture ∈ r.root.captures.map some ↔ capture ∈ r.root.captures := by simp
    rw [← hiff, ← Regex.map_capture?_groups, List.mem_map]
  simp only [labels, List.any_map, List.any_eq_true, Function.comp_apply, Option.isSome_iff_exists]
  constructor
  · rintro ⟨⟨index, _⟩, hcapture, name, rfl⟩
    obtain ⟨p, hp, hnode⟩ := (hmem _).1 hcapture
    exact ⟨p, hp, index, name, hnode⟩
  · rintro ⟨p, hp, index, name, hnode⟩
    exact ⟨(index, some name), (hmem _).2 ⟨p, hp, hnode⟩, name, rfl⟩

end Pattern

/-! ## The count -/

namespace Regex

open Pattern

variable {source : List Char} {flags : Flags} {r : Regex}

/-- Where no string of a class holds a bare bracket, the count in advance is that of the groups. -/
theorem countGroups_eq (h : Regex.parse source flags = .ok r)
    (hbare : ∀ p ∈ r.walk, p.node.holdsBracket = false) :
    Lexeme.countGroups flags.unicodeSets 0 source =
      (r.groups.length, r.root.labels.any Option.isSome) := by
  have hsetting := (sound_of_parse h hbare).1
  rw [← length_labels]
  exact Prod.ext (congrArg Setting.groups hsetting) (congrArg Setting.named hsetting)

/-- Without `v`, as many groups are counted in advance as the pattern has, and a name is seen if one
of them has a name. -/
theorem countGroups_of_parse (h : Regex.parse source flags = .ok r)
    (hsets : flags.unicodeSets = false) :
    (Lexeme.countGroups false 0 source).1 = r.groups.length ∧
      ((Lexeme.countGroups false 0 source).2 = true ↔
        ∃ p ∈ r.groups, ∃ index name, p.node.capture? = some (index, some name)) := by
  have hcount := countGroups_eq h (holdsBracket_of_parse h hsets)
  rw [hsets] at hcount
  rw [hcount]
  exact ⟨rfl, any_labels_iff r⟩

/-- In `(?<n>[(])\((?<=a)(b)` two of the five opening parentheses are of groups, and one of these has a
name. -/
theorem countGroups_of_parse_lookbehind :
    let source := ['(', '?', '<', 'n', '>', '[', '(', ']', ')', '\\', '(', '(', '?', '<', '=', 'a',
      ')', '(', 'b', ')']
    ∃ r, Regex.parse source {} = .ok r ∧ r.groups.length = 2 ∧
      ∃ p ∈ r.groups, ∃ index name, p.node.capture? = some (index, some name) := by
  intro source
  have hok : (Regex.parse source {}).isOk = true := by decide +kernel
  cases hparse : Regex.parse source {} with
  | error fault =>
    rw [hparse] at hok
    cases hok
  | ok r =>
    obtain ⟨hcount, hnamed⟩ := countGroups_of_parse hparse rfl
    exact ⟨r, rfl, hcount.symm, hnamed.1 rfl⟩

end Regex

end RegexAudit
