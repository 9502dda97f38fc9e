import RegexAudit.Proofs.Exchanges

/-!
# Rebuilt trees

What becomes of a tree when another node is put where a trail leads to. Its text, its groups and the
properties of its nodes are those of the tree before, but for what the node itself brings along:

    root = rebuild trail n
    root.captures = before ++ n.captures ++ after
    (rebuild trail m).captures = before ++ m.captures ++ after                   (captures_rebuild)

The same holds for the text, and there the text before is as wide as the place of the node says
(`text_rebuild`). An alternative that is taken out takes the bar before it along
(`text_withoutAlternative`).
-/

namespace RegexAudit

namespace Node

section
variable {root parent n c m : Node} {ns ms : List Node} {slot : Nat} {trail : List Step}

/-! ## A child replaced -/

theorem children_withChild (hlevel : parent.isClassLevel = false)
    (hslot : parent.children[slot]? = some c) (m : Node) :
    (parent.withChild slot m).children = parent.children.set slot m := by
  cases parent with
  | choice _ _ | look _ _ _ | alternative _ => rfl
  | quantifier _ _ _ _ =>
    cases slot with
    | zero => rfl
    | succ slot => cases hslot
  | edge _ | backreference _ => cases hslot
  | _ => cases hlevel

theorem withChild_self (hslot : parent.children[slot]? = some c) :
    parent.withChild slot c = parent := by
  cases parent with
  | choice _ _ | look _ _ _ | alternative _ =>
    rw [withChild]
    congr 1
    exact set_self hslot
  | quantifier _ _ _ _ => rw [withChild, List.mem_singleton.1 (List.mem_of_getElem? hslot)]
  | _ => rfl

theorem delimiters_withChild (parent : Node) (slot : Nat) (m : Node) :
    (parent.withChild slot m).opening = parent.opening ∧
      (parent.withChild slot m).separator = parent.separator ∧
        (parent.withChild slot m).closing = parent.closing := by
  cases parent <;> exact ⟨rfl, rfl, rfl⟩

theorem capture?_withChild (parent : Node) (slot : Nat) (m : Node) :
    (parent.withChild slot m).capture? = parent.capture? := by
  cases parent with
  | choice frame _ => cases frame <;> rfl
  | _ => rfl

theorem rebuild_self (hleads : root.Leads trail n) : rebuild trail n = root := by
  induction trail generalizing n with
  | nil => exact hleads
  | cons s up ih =>
    rw [rebuild, withChild_self hleads.1]
    exact ih hleads.2

/-! ## Groups -/

theorem captures_withChild (hlevel : parent.isClassLevel = false)
    (hslot : parent.children[slot]? = some c) : ∃ before after,
      parent.captures = before ++ c.captures ++ after ∧
        ∀ m, (parent.withChild slot m).captures = before ++ m.captures ++ after := by
  have hset (m : Node) : (parent.children.set slot m).flatMap captures =
      (parent.children.take slot).flatMap captures ++ (m.captures ++
        (parent.children.drop (slot + 1)).flatMap captures) := by
    rw [set_eq_append hslot, List.flatMap_append, List.flatMap_cons]
  have hall (m : Node) : (parent.withChild slot m).captures =
      parent.capture?.toList ++ (parent.children.take slot).flatMap captures ++ m.captures ++
        (parent.children.drop (slot + 1)).flatMap captures := by
    rw [captures_eq, capture?_withChild, children_withChild hlevel hslot, hset]
    simp
  refine ⟨_, _, ?_, hall⟩
  rw [← hall, withChild_self hslot]

/-- Around a node the groups are the same, whatever stands in its place. -/
theorem captures_rebuild (hlayered : root.Layered) (hleads : root.Leads trail n)
    (hlevel : n.isClassLevel = false) : ∃ before after,
      root.captures = before ++ n.captures ++ after ∧
        ∀ m, (rebuild trail m).captures = before ++ m.captures ++ after := by
  induction trail generalizing n with
  | nil =>
    rw [Leads] at hleads
    exact ⟨[], [], by rw [hleads]; simp, fun m => by rw [rebuild]; simp⟩
  | cons s up ih =>
    obtain ⟨hslot, hup⟩ := hleads
    have hparent := hlayered.parent hup.hasPart (List.mem_of_getElem? hslot) hlevel
    obtain ⟨before, after, hroot, hrebuilt⟩ := ih hup hparent
    obtain ⟨front, back, hn, hchild⟩ := captures_withChild hparent hslot
    refine ⟨before ++ front, back ++ after, ?_, fun m => ?_⟩
    · rw [hroot, hn]
      simp
    · rw [rebuild, hrebuilt, hchild]
      simp

/-! ## Properties of all nodes -/

section
variable {q : Node → Prop}
  (hq : ∀ n : Node, n.isClassLevel = false → (∀ ref, n ≠ .backreference ref) → q n)

include hq

theorem throughout_withChild (hparent : parent.Throughout q) (hlevel : parent.isClassLevel = false)
    (hslot : parent.children[slot]? = some c) (hm : m.Throughout q) :
    (parent.withChild slot m).Throughout q := by
  refine Pattern.throughout_of_children hq ?_ (fun ref hn => ?_) fun e he => ?_
  · cases parent <;> first | rfl | cases hlevel
  · cases parent with
    | backreference _ => cases hslot
    | _ => cases hn
  · rw [children_withChild hlevel hslot] at he
    obtain he | rfl := List.mem_or_eq_of_mem_set he
    · exact (throughout_iff.1 hparent).2 e he
    · exact hm

/-- A property of all nodes that outside of classes is one of references only. -/
theorem throughout_rebuild (hroot : root.Throughout q) (hlayered : root.Layered)
    (hleads : root.Leads trail n) (hlevel : n.isClassLevel = false) (hm : m.Throughout q) :
    (rebuild trail m).Throughout q := by
  induction trail generalizing n m with
  | nil => exact hm
  | cons s up ih =>
    obtain ⟨hslot, hup⟩ := hleads
    have hparent := hlayered.parent hup.hasPart (List.mem_of_getElem? hslot) hlevel
    exact ih hup hparent
      (throughout_withChild hq (throughout_of_hasPart hroot hup.hasPart) hparent hslot hm)

end

/-! ## Other alternatives -/

theorem eq_of_alternatives (hn : n.alternatives? = some ns) : n.isClassLevel = false ∧
    n.children = ns ∧ n.separator = ['|'] ∧ n.withAlternatives ns = n := by
  cases n with
  | choice _ _ | look _ _ _ =>
    cases hn
    exact ⟨rfl, rfl, rfl, rfl⟩
  | _ => cases hn

theorem alternatives?_withAlternatives (hn : n.alternatives? = some ns) (ms : List Node) :
    (n.withAlternatives ms).alternatives? = some ms := by
  cases n with
  | choice _ _ | look _ _ _ => rfl
  | _ => cases hn

theorem text_withAlternatives (hn : n.alternatives? = some ns) (ms : List Node) :
    (n.withAlternatives ms).text = n.opening ++ textAll ['|'] ms ++ n.closing := by
  cases n with
  | choice _ _ | look _ _ _ => rfl
  | _ => cases hn

theorem capture?_withAlternatives (n : Node) (ms : List Node) :
    (n.withAlternatives ms).capture? = n.capture? := by
  cases n with
  | choice frame _ => cases frame <;> rfl
  | _ => rfl

/-- Groups and lookarounds begin with a parenthesis. -/
theorem forks_withAlternatives (hn : n.alternatives? = some ns) (hwhole : n ≠ choice .whole ns)
    (ms : List Node) : Forks n.text (n.withAlternatives ms).text := by
  have hopening : ∃ tail, n.opening = '(' :: tail := by
    cases n with
    | choice frame _ =>
      cases hn
      cases frame with
      | whole => exact absurd rfl hwhole
      | plain => exact ⟨_, rfl⟩
      | capture _ name => cases name <;> exact ⟨_, rfl⟩
    | look direction negate _ => cases direction <;> cases negate <;> exact ⟨_, rfl⟩
    | _ => cases hn
  obtain ⟨tail, htail⟩ := hopening
  have htext := text_withAlternatives hn ns
  rw [(eq_of_alternatives hn).2.2.2] at htext
  rw [htext, text_withAlternatives hn, htail]
  exact ⟨[], _, _, rfl, rfl⟩

theorem throughout_withAlternatives {q : Node → Prop}
    (hq : ∀ n : Node, n.isClassLevel = false → (∀ ref, n ≠ .backreference ref) → q n)
    (hn : n.alternatives? = some ns) (hms : ∀ m ∈ ms, m.Throughout q) :
    (n.withAlternatives ms).Throughout q := by
  cases n with
  | choice _ _ | look _ _ _ => exact Pattern.throughout_of_children hq rfl nofun hms
  | _ => cases hn

/-- An alternative without groups can be taken out, and the groups are the same. -/
theorem captures_eraseIdx (hn : n.alternatives? = some ns) (hslot : ns[slot]? = some c)
    (hnone : c.captures = []) : (n.withAlternatives (ns.eraseIdx slot)).captures = n.captures := by
  have halternatives := alternatives?_withAlternatives hn (ns.eraseIdx slot)
  rw [captures_eq, capture?_withAlternatives, (eq_of_alternatives halternatives).2.1, captures_eq n,
    (eq_of_alternatives hn).2.1]
  congr 1
  nth_rewrite 2 [eq_append_of_getElem? hslot]
  rw [List.eraseIdx_eq_take_drop_succ, List.flatMap_append, List.flatMap_append, List.flatMap_cons,
    hnone, List.nil_append]

/-- The text without an alternative, with one bar less. -/
theorem textAll_eraseIdx (hslot : ns[slot + 1]? = some c) : ∃ front back,
    (ns.take (slot + 1)).flatMap (fun n => n.text ++ ['|']) = front ++ ['|'] ∧
      (ns.drop (slot + 2)).flatMap (fun n => '|' :: n.text) = back ∧
        textAll ['|'] (ns.eraseIdx (slot + 1)) = front ++ back := by
  obtain ⟨e, he⟩ : ∃ e, ns[slot]? = some e :=
    ⟨_, List.getElem?_eq_getElem (Nat.lt_of_succ_lt (List.getElem?_eq_some_iff.1 hslot).1)⟩
  have htake : ns.take (slot + 1) = ns.take slot ++ [e] := by
    rw [List.take_add_one, he]
    rfl
  refine ⟨(ns.take slot).flatMap (fun n => n.text ++ ['|']) ++ e.text, _, ?_, rfl, ?_⟩
  · rw [htake]
    simp
  · rw [List.eraseIdx_eq_take_drop_succ, htake, List.append_assoc, List.singleton_append,
      textAll_append_cons]
    rfl

end

end Node

namespace Place

open Node

/-! ## Texts around places -/

/-- The text of the tree is that of the node at the place with something around it, whatever stands
in its place. -/
def Framed (p : Place) : Prop :=
  ∃ front back, Text.width front = p.start ∧
    ∀ m, (Node.rebuild p.trail m).text = front ++ m.text ++ back

theorem start_of_mem_inRow {trail : Nat → List Step} {slot position start : Nat} {ns : List Node}
    {separator : List Char} {q : Place}
    (h : q ∈ inRow trail (Text.width separator) slot position start ns) :
    ∃ i, ns[i]? = some q.node ∧ q.trail = trail (slot + i) ∧
      q.start = start + Text.width ((ns.take i).flatMap fun n => n.text ++ separator) := by
  induction ns generalizing slot position start with
  | nil => cases h
  | cons n ns ih =>
    obtain rfl | h := List.mem_cons.1 h
    · exact ⟨0, rfl, rfl, rfl⟩
    · obtain ⟨i, hnode, htrail, hstart⟩ := ih h
      refine ⟨i + 1, hnode, ?_, ?_⟩
      · rw [htrail, Nat.add_assoc, Nat.add_comm 1 i]
      · rw [hstart, List.take_succ_cons, List.flatMap_cons, Text.width_append, Text.width_append,
          Node.width_eq]
        omega

/-- A child starts behind the opening of its parent and its siblings before it. -/
theorem start_of_mem_children {p q : Place} (h : q ∈ p.children) :
    ∃ i, p.node.children[i]? = some q.node ∧ q.trail = ⟨p.node, p.position, p.start, i⟩ :: p.trail ∧
      q.start = p.start + Text.width (p.node.opening ++
        (p.node.children.take i).flatMap fun n => n.text ++ p.node.separator) := by
  obtain ⟨i, hnode, htrail, hstart⟩ := start_of_mem_inRow h
  rw [Nat.zero_add] at htrail
  exact ⟨i, hnode, htrail, by rw [hstart, Text.width_append, Nat.add_assoc]⟩

theorem Framed.child {p q : Place} (h : p.Framed) (hlevel : p.node.isClassLevel = false)
    (hq : q ∈ p.children) : q.Framed := by
  obtain ⟨front, back, hwidth, htext⟩ := h
  obtain ⟨i, hnode, htrail, hstart⟩ := start_of_mem_children hq
  refine ⟨front ++ (p.node.opening ++
    (p.node.children.take i).flatMap fun n => n.text ++ p.node.separator),
    ((p.node.children.drop (i + 1)).flatMap fun n => p.node.separator ++ n.text) ++
      (p.node.closing ++ back), ?_, fun m => ?_⟩
  · rw [Text.width_append, hwidth, hstart]
  · obtain ⟨hopening, hseparator, hclosing⟩ := delimiters_withChild p.node i m
    rw [htrail, rebuild, htext, text_eq (p.node.withChild i m), hopening, hseparator, hclosing,
      children_withChild hlevel hnode, ← textAll_eq_join, textAll_set hnode]
    simp only [List.append_assoc]

theorem framed_of_mem_walk {root : Node} (hlayered : root.Layered) {p : Place} (hp : p ∈ root.walk)
    (hlevel : p.node.isClassLevel = false) : p.Framed := by
  have hroot : Framed ⟨root, 0, 0, []⟩ := ⟨[], [], rfl, fun m => by simp [rebuild]⟩
  have hbelow := forall_below (P := fun p => p.node.Layered ∧ (p.node.isClassLevel = false → p.Framed))
    (fun p h q hq => ?_) (p := ⟨root, 0, 0, []⟩) ⟨hlayered, fun _ => hroot⟩ p hp
  · exact hbelow.2 hlevel
  · obtain ⟨hp, hframed⟩ := h
    obtain ⟨i, hnode, -⟩ := slot_of_mem_children hq
    have hmem := List.mem_of_getElem? hnode
    refine ⟨hp.child hmem, fun hlevel => ?_⟩
    have hparent := hp.parent .self hmem hlevel
    exact (hframed hparent).child hparent hq

/-- Without an alternative that is not the first one, the text is without it and the bar before it. -/
theorem text_withoutAlternative {root : Node} (hlayered : root.Layered) {p : Place}
    (hp : p ∈ root.walk) {s : Step} {up : List Step} (htrail : p.trail = s :: up) {slot : Nat}
    (hslot : s.slot = slot + 1) {ns : List Node} (hns : s.parent.alternatives? = some ns) :
    ∃ front back, p.start = Text.width front + 1 ∧
      root.text = front ++ '|' :: p.node.text ++ back ∧
        (Node.rebuild up (s.parent.withAlternatives (ns.eraseIdx s.slot))).text = front ++ back := by
  obtain ⟨hlevel, hchildren, hseparator, -⟩ := eq_of_alternatives hns
  obtain rfl | ⟨parent, hmem, hchild⟩ := exists_parent_below (p := ⟨root, 0, 0, []⟩) hp
  · cases htrail
  · obtain ⟨i, hnode, htrail', hstart⟩ := start_of_mem_children hchild
    rw [htrail] at htrail'
    obtain ⟨rfl, rfl⟩ := List.cons.inj htrail'
    obtain rfl : i = slot + 1 := hslot
    obtain ⟨front, back, hwidth, htext⟩ := framed_of_mem_walk hlayered hmem hlevel
    have hself : rebuild parent.trail parent.node = root := rebuild_self (leads_of_mem_walk hmem)
    dsimp only at hchildren hseparator hns ⊢
    rw [hchildren] at hnode hstart
    rw [hseparator] at hstart
    obtain ⟨before, after, hbefore, hafter, herase⟩ := textAll_eraseIdx hnode
    rw [hbefore] at hstart
    refine ⟨front ++ parent.node.opening ++ before, after ++ parent.node.closing ++ back, ?_, ?_, ?_⟩
    · have hbar : Text.width ['|'] = 1 := rfl
      simp only [hstart, ← hwidth, Text.width_append, hbar, Nat.add_assoc]
    · have htexts := textAll_set hnode ['|'] p.node
      rw [set_self hnode, hbefore] at htexts
      rw [← hself, htext, text_eq, hchildren, hseparator, ← textAll_eq_join, htexts, ← hafter]
      simp
    · rw [htext, text_withAlternatives hns, herase]
      simp only [List.append_assoc]

end Place

end RegexAudit
