import RegexAudit.Proofs.Numbering
import RegexAudit.Proofs.Spelling

/-!
# Contexts

A part of a parsed pattern without references depends on its own text only. Wherever two such parts
of one kind with one text stand, in patterns that agree on `u` and `v`, their trees are the same up
to the numbers of groups:

    p₁.node.kind = p₂.node.kind  ∧  p₁.raw? source₁ = p₂.raw? source₂  →
      p₁.below and p₂.below are alike

Two places are alike (`Place.Alike`) if their nodes differ in the numbers of groups at most and they
stand equally far from where the two parts start. So a comparison of texts may stand for a comparison
of trees.
-/

namespace RegexAudit

open Node

/-! ## Trees without numbers -/

namespace Node

theorem unnumberedAll_eq_map (ns : List Node) : unnumberedAll ns = ns.map unnumbered := by
  induction ns with
  | nil => rfl
  | cons n ns ih => rw [unnumberedAll, ih, List.map_cons]

/-- Nodes in classes have no numbers below them. -/
theorem children_unnumbered (n : Node) :
    n.unnumbered.children = n.children.map unnumbered ∨ n.unnumbered = n := by
  cases n with
  | choice _ _ | look _ _ _ | alternative _ => exact .inl (unnumberedAll_eq_map _)
  | quantifier _ _ _ _ => exact .inl rfl
  | _ => exact .inr rfl

theorem delimiters_unnumbered (n : Node) : n.unnumbered.opening = n.opening ∧
    n.unnumbered.separator = n.separator ∧ n.unnumbered.closing = n.closing := by
  cases n with
  | choice frame _ => rcases frame with _ | _ | ⟨_, _ | _⟩ <;> exact ⟨rfl, rfl, rfl⟩
  | _ => exact ⟨rfl, rfl, rfl⟩

theorem text_unnumbered (n : Node) : n.unnumbered.text = n.text := by
  induction n using induction_on_children with
  | h n ih =>
    obtain h | h := children_unnumbered n
    · obtain ⟨hopening, hseparator, hclosing⟩ := delimiters_unnumbered n
      rw [text_eq, text_eq n, hopening, hseparator, hclosing, h, List.map_map]
      exact congrArg (fun texts => n.opening ++ Text.join n.separator texts ++ n.closing)
        (List.map_congr_left ih)
    · rw [h]

theorem unnumbered_unnumbered (n : Node) : n.unnumbered.unnumbered = n.unnumbered := by
  have hmap (ns : List Node) (ih : ∀ c ∈ ns, c.unnumbered.unnumbered = c.unnumbered) :
      unnumberedAll (unnumberedAll ns) = unnumberedAll ns := by
    rw [unnumberedAll_eq_map, unnumberedAll_eq_map, List.map_map]
    exact List.map_congr_left ih
  induction n using induction_on_children with
  | h n ih =>
    cases n with
    | choice frame alternatives =>
      rw [unnumbered, unnumbered, hmap alternatives ih]
      cases frame <;> rfl
    | look _ _ alternatives => rw [unnumbered, unnumbered, hmap alternatives ih]
    | alternative elements => rw [unnumbered, unnumbered, hmap elements ih]
    | quantifier _ _ _ element =>
      rw [unnumbered, unnumbered, ih element (List.mem_singleton_self _)]
    | _ => rfl

theorem map_unnumbered_children (n : Node) :
    n.unnumbered.children.map unnumbered = n.children.map unnumbered := by
  obtain h | h := children_unnumbered n
  · rw [h, List.map_map]
    exact List.map_congr_left fun c _ => unnumbered_unnumbered c
  · rw [h]

/-- A tree none of whose nodes is a reference. -/
theorem hasBackreference_eq_false {n : Node} (h : ∀ m, n.HasPart m → m.kind ≠ .backreference) :
    n.hasBackreference = false := by
  induction n using induction_on_children with
  | h n ih =>
    have hchildren : ∀ c ∈ n.children, c.hasBackreference = false := fun c hc =>
      ih c hc fun m hm => h m (.of_child hc hm)
    cases n with
    | choice _ _ | look _ _ _ | alternative _ => exact anyBackreference_eq_false.2 hchildren
    | quantifier _ _ _ element => exact hchildren element (List.mem_singleton_self _)
    | backreference _ => exact absurd rfl (h _ .self)
    | _ => rfl

end Node

/-! ## Alike places -/

namespace Place

/-- Places that stand equally far from `a` and from `b`, and whose nodes differ in the numbers of
groups at most. -/
structure Alike (a b : Nat) (p q : Place) : Prop where
  node : p.node.unnumbered = q.node.unnumbered
  span : ∃ start stop, p.start = a + start ∧ p.stop = a + stop ∧ q.start = b + start ∧
    q.stop = b + stop

variable {a b d : Nat} {p q : Place}

theorem alike (hnode : p.node.unnumbered = q.node.unnumbered) (hp : p.start = a + d)
    (hq : q.start = b + d) : p.Alike a b q := by
  have hwidth : p.node.width = q.node.width := by
    rw [Node.width_eq, Node.width_eq, ← text_unnumbered p.node, hnode, text_unnumbered]
  refine ⟨hnode, d, d + p.node.width, hp, ?_, hq, ?_⟩
  · rw [stop, hp, Nat.add_assoc]
  · rw [stop, hq, hwidth, Nat.add_assoc]

theorem alike_inRow {ns ms : List Node} {trail trail' : Nat → List Step}
    {gap slot slot' position position' start start' : Nat}
    (h : ns.map unnumbered = ms.map unnumbered) (hp : start = a + d) (hq : start' = b + d) :
    List.Forall₂ (Alike a b) (inRow trail gap slot position start ns)
      (inRow trail' gap slot' position' start' ms) := by
  induction ns generalizing ms slot slot' position position' start start' d with
  | nil =>
    rw [List.map_eq_nil_iff.1 h.symm]
    exact .nil
  | cons n ns ih =>
    obtain ⟨m, ms, rfl, hm, hms⟩ := List.map_eq_cons_iff.1 h.symm
    have hwidth : n.width = m.width := by
      rw [Node.width_eq, Node.width_eq, ← text_unnumbered m, hm, text_unnumbered]
    refine .cons (alike hm.symm hp hq) (ih (d := d + n.width + gap) hms.symm ?_ ?_)
    · omega
    · omega

/-- What is below alike places is alike. -/
theorem alike_below (h : p.node.unnumbered = q.node.unnumbered) (hp : p.start = a + d)
    (hq : q.start = b + d) : List.Forall₂ (Alike a b) p.below q.below := by
  induction p using Place.induction_on_children generalizing q d with
  | h p ih =>
    have hopening : p.node.opening = q.node.opening := by
      rw [← (delimiters_unnumbered p.node).1, h, (delimiters_unnumbered q.node).1]
    have hseparator : p.node.separator = q.node.separator := by
      rw [← (delimiters_unnumbered p.node).2.1, h, (delimiters_unnumbered q.node).2.1]
    have hrow : List.Forall₂ (Alike a b) p.children q.children := by
      rw [children, children, ← hseparator]
      refine alike_inRow (d := d + Text.width p.node.opening) ?_ ?_ ?_
      · rw [← map_unnumbered_children, h, map_unnumbered_children]
      · rw [hp, Nat.add_assoc]
      · rw [hq, ← hopening, Nat.add_assoc]
    have hbelow := (List.forall₂_and_left _ _).2 ⟨fun r hr => hr, hrow⟩
    rw [below_eq p, below_eq q]
    refine .cons (alike h hp hq) (List.rel_flatMap hbelow fun r r' hboth => ?_)
    obtain ⟨hr, halike⟩ := hboth
    obtain ⟨start, -, hstart, -, hstart', -⟩ := halike.span
    exact ih r hr halike.node hstart hstart'

end Place

/-! ## Parts of a pattern -/

namespace Pattern

variable {setting : Setting} {depth limit : Nat} {n : Node} {s s' : Progress}

theorem allSpelled_of_children (hn : n.isClassLevel = false)
    (h : ∀ c ∈ n.children, c.AllSpelled setting limit) : n.AllSpelled setting limit := by
  refine throughout_iff.2 ⟨fun hclass => ?_, h⟩
  rw [hn] at hclass
  cases hclass

theorem allSpelled_of_leaf (hdepth : depth ≤ limit) {text rest : List Char} {repeats : Bool}
    (h : Leaf setting (Class.nested setting depth) text n repeats rest) :
    n.AllSpelled setting limit := by
  cases h with
  | edge e => exact allSpelled_of_children rfl (List.forall_mem_nil _)
  | any => exact allSpelled_leaf (.inl rfl) rfl
  | charClass h =>
    split at h
    · rename_i hsets
      exact Class.allSpelled_nested hsets hdepth h
    · rename_i hsets
      exact Class.allSpelled_listed (Bool.eq_false_iff.2 hsets) h
  | escape hb _ h =>
    cases escaped_iff.1 h with
    | shorthand hset => exact allSpelled_shorthand hset
    | name _ _ => exact allSpelled_of_children rfl (List.forall_mem_nil _)
    | index _ _ _ _ => exact allSpelled_of_children rfl (List.forall_mem_nil _)
    | octal h1 h9 _ _ hstrict hvalue =>
      exact allSpelled_character (Letter.spelled_octal h1 h9 hstrict hvalue)
    | character _ _ _ hvalue =>
      exact allSpelled_character (Letter.spelled_escape (fun _ => hb) hvalue)
  | plain hplain =>
    refine allSpelled_character (Letter.spelled_self ?_)
    rintro rfl
    exact hplain.unmarked (by simp)

section
variable {p : Node → Prop}
  (hleaf : ∀ {depth : Nat} {text rest : List Char} {n : Node} {repeats : Bool}, depth ≤ limit →
    Leaf setting (Class.nested setting depth) text n repeats rest → p n)
  (hparent : ∀ n : Node, n.isClassLevel = false → (n.category = .choice → n.children ≠ []) →
    (∀ c ∈ n.children, p c) → p n)

include hleaf hparent

theorem forall_term (hdepth : depth ≤ limit)
    (hinner : ∀ {s s' ns}, disjunction setting depth s = .ok (ns, s') → ∀ n ∈ ns, p n)
    (h : termAt setting depth s = .ok (n, s')) : p n := by
  obtain ⟨element, repeats, s1, rest, helement, hends, -⟩ := term_iff.1 h
  have hp : p element := by
    obtain ⟨rest, hread, -⟩ | ⟨o, r, ns, s2, hencloses, rfl, -⟩ := unquantified_iff.1 helement
    · exact hleaf hdepth hread
    · apply hparent
      · cases o <;> rfl
      · rw [Opening.children_node]
        exact fun _ => disjunction_ne_nil hencloses.inside
      · rw [Opening.children_node]
        exact hinner hencloses.inside
  cases hends with
  | repeatable _ | unrepeatable _ => exact hp
  | repeated _ => exact hparent _ rfl nofun (List.forall_mem_singleton.2 hp)

/-- What is true of leaves, and of nodes outside of classes if it is true of their children, is true
of all that is read. No choice is read without alternatives. -/
theorem forall_disjunction (hdepth : depth ≤ limit) {ns : List Node}
    (h : disjunction setting depth s = .ok (ns, s')) : ∀ n ∈ ns, p n := by
  induction depth generalizing s s' ns with
  | zero => cases h
  | succ depth ih =>
    have hdepth' : depth ≤ limit := Nat.le_of_succ_le hdepth
    exact (disjunction_iff.1 h).forall fun hrow =>
      hparent _ rfl nofun (hrow.forall (forall_term hleaf hparent hdepth' (ih hdepth')))

end

theorem allSpelled_disjunction (hdepth : depth ≤ limit) {ns : List Node}
    (h : disjunction setting depth s = .ok (ns, s')) : ∀ n ∈ ns, n.AllSpelled setting limit :=
  forall_disjunction (fun hdepth hread => allSpelled_of_leaf hdepth hread)
    (fun _ hn _ hchildren => allSpelled_of_children hn hchildren) hdepth h

end Pattern

/-! ## Parts of parsed patterns -/

namespace Regex

open Pattern

variable {source source₁ source₂ : List Char} {flags flags₁ flags₂ : Flags} {r r₁ r₂ : Regex}

theorem kind_eq_pattern {n : Node} (h : n.kind = .pattern) : ∃ ns, n = choice .whole ns := by
  cases n with
  | choice frame ns =>
    cases frame with
    | whole => exact ⟨ns, rfl⟩
    | _ => cases h
  | classOperation operator _ _ => cases operator <;> cases h
  | _ => cases h

/-- Every part of a parsed pattern is the whole of it, or it stands in a class and is told by its
text, or it is read from its text. -/
theorem part_cases (h : Regex.parse source flags = .ok r) {n : Node} (hn : r.root.HasPart n) :
    n = r.root ∨ n.kind ≠ .pattern ∧
      (n.isClassLevel = true ∧ n.Spelled (settingOf flags source).alone nestingLimit ∨
        n.isClassLevel = false ∧ Told (settingOf flags source) nestingLimit n) := by
  obtain ⟨-, -, hpattern, -⟩ := Regex.parse_source h
  obtain ⟨ns, s, hns, -, -, rfl⟩ := parse_iff.1 h
  rcases hasPart_iff.1 hn with rfl | ⟨c, hc, hcn⟩
  · exact .inl rfl
  · have hkind : n.kind ≠ .pattern := by
      intro hkind
      obtain ⟨ms, rfl⟩ := kind_eq_pattern hkind
      obtain ⟨ns', hroot, hinner⟩ := hpattern
      cases hroot
      exact (hinner c hc _ hcn).1 ms rfl
    cases hclass : n.isClassLevel with
    | true =>
      exact .inr ⟨hkind, .inl ⟨rfl, allSpelled_disjunction (Nat.le_refl _) hns c hc n hcn hclass⟩⟩
    | false =>
      obtain rfl | ⟨-, d, hd, hdn⟩ := hasTerm_iff.1 (hpattern.hasTerm hn hclass)
      · exact .inl rfl
      · exact .inr ⟨hkind, .inr ⟨rfl, allTold_disjunction (Nat.le_refl _) hns d hd n hdn⟩⟩

/-- Read alone, a pattern depends on two of its flags only. -/
theorem alone_settingOf (source₁ source₂ : List Char) (hu : flags₁.unicode = flags₂.unicode)
    (hv : flags₁.unicodeSets = flags₂.unicodeSets) :
    (settingOf flags₁ source₁).alone = (settingOf flags₂ source₂).alone := by
  show Setting.mk { unicode := flags₁.unicode, unicodeSets := flags₁.unicodeSets } 0 false = _
  rw [hu, hv]
  rfl

theorem kind_root (h : Regex.parse source flags = .ok r) : r.root.kind = .pattern := by
  obtain ⟨ns, s, -, -, -, rfl⟩ := parse_iff.1 h
  rfl

/-- Whole patterns with one text are the same up to the numbers of groups. -/
theorem unnumbered_root (h₁ : Regex.parse source flags₁ = .ok r₁)
    (h₂ : Regex.parse source flags₂ = .ok r₂) (hu : flags₁.unicode = flags₂.unicode)
    (hv : flags₁.unicodeSets = flags₂.unicodeSets) (hnone₁ : r₁.root.hasBackreference = false)
    (hnone₂ : r₂.root.hasBackreference = false) : r₁.root.unnumbered = r₂.root.unnumbered := by
  obtain ⟨ns₁, s₁, hns₁, -, -, rfl⟩ := parse_iff.1 h₁
  obtain ⟨ns₂, s₂, hns₂, -, -, rfl⟩ := parse_iff.1 h₂
  have hcut : Progress.Cut [] ⟨source, 0, []⟩ ⟨source, 0, []⟩ :=
    ⟨(List.append_nil _).symm, List.Subset.refl _⟩
  obtain ⟨ns, t, hns, hsame₁, -⟩ :=
    reads_alone _ (Nat.le_refl _) hns₁ hcut List.nil_suffix hnone₁
  obtain ⟨ns', t', hns', hsame₂, -⟩ :=
    reads_alone _ (Nat.le_refl _) hns₂ hcut List.nil_suffix hnone₂
  rw [alone_settingOf source source hu hv] at hns
  obtain ⟨rfl, -⟩ := eq_of_ok hns hns'
  show choice .whole (unnumberedAll ns₁) = choice .whole (unnumberedAll ns₂)
  rw [← hsame₁, hsame₂]

/-- Parts without references of one kind and with one text are the same up to the numbers of
groups. -/
theorem unnumbered_eq (h₁ : Regex.parse source₁ flags₁ = .ok r₁)
    (h₂ : Regex.parse source₂ flags₂ = .ok r₂) (hu : flags₁.unicode = flags₂.unicode)
    (hv : flags₁.unicodeSets = flags₂.unicodeSets) {n₁ n₂ : Node} (hn₁ : r₁.root.HasPart n₁)
    (hn₂ : r₂.root.HasPart n₂) (hkind : n₁.kind = n₂.kind) (htext : n₁.text = n₂.text)
    (hnone₁ : n₁.hasBackreference = false) (hnone₂ : n₂.hasBackreference = false) :
    n₁.unnumbered = n₂.unnumbered := by
  have halone := alone_settingOf source₁ source₂ hu hv
  obtain rfl | ⟨hwhole₁, hpart₁⟩ := part_cases h₁ hn₁
  · obtain rfl | ⟨hwhole₂, -⟩ := part_cases h₂ hn₂
    · rw [(Regex.parse_source h₁).2.2.2, (Regex.parse_source h₂).2.2.2] at htext
      subst htext
      exact unnumbered_root h₁ h₂ hu hv hnone₁ hnone₂
    · exact absurd (hkind.symm.trans (kind_root h₁)) hwhole₂
  · obtain rfl | ⟨-, hpart₂⟩ := part_cases h₂ hn₂
    · exact absurd (hkind.trans (kind_root h₂)) hwhole₁
    · have hlevel : n₁.isClassLevel = n₂.isClassLevel := by
        rw [isClassLevel_eq_kind, hkind, isClassLevel_eq_kind]
      obtain ⟨hclass₁, hspelled₁⟩ | ⟨hclass₁, htold₁⟩ := hpart₁
      · obtain ⟨-, hspelled₂⟩ | ⟨hclass₂, -⟩ := hpart₂
        · rw [halone] at hspelled₁
          rw [eq_of_spelled hclass₁ hspelled₁ hspelled₂ hkind htext]
        · rw [hclass₁, hclass₂] at hlevel
          cases hlevel
      · obtain ⟨hclass₂, -⟩ | ⟨-, htold₂⟩ := hpart₂
        · rw [hclass₁, hclass₂] at hlevel
          cases hlevel
        · obtain rfl | ⟨m₁, s₁, hm₁, hsame₁⟩ := htold₁ hnone₁
          · cases hclass₁
          · obtain rfl | ⟨m₂, s₂, hm₂, hsame₂⟩ := htold₂ hnone₂
            · rw [hlevel] at hclass₁
              cases hclass₁
            · rw [halone, hkind, htext] at hm₁
              obtain ⟨rfl, -⟩ := eq_of_ok hm₁ hm₂
              rw [← hsame₁, hsame₂]

theorem raw?_of_mem_walk (h : Regex.parse source flags = .ok r) {p : Place} (hp : p ∈ r.walk) :
    p.raw? source = some p.node.text :=
  Place.raw?_of_sits (Regex.sits_of_mem_walk h p hp)

theorem hasBackreference_of_below {p : Place} (h : ∀ q ∈ p.below, q.node.kind ≠ .backreference) :
    p.node.hasBackreference = false := by
  refine hasBackreference_eq_false fun m hm => ?_
  rw [← mem_nodes, ← map_node_below, List.mem_map] at hm
  obtain ⟨q, hq, rfl⟩ := hm
  exact h q hq

/-- Parts of parsed patterns of one kind, with one stretch of the source and without references have
the same trees up to the numbers of groups, and all that is below them stands equally far from their
starts. -/
theorem alike_of_same_raw (h₁ : Regex.parse source₁ flags₁ = .ok r₁)
    (h₂ : Regex.parse source₂ flags₂ = .ok r₂) (hu : flags₁.unicode = flags₂.unicode)
    (hv : flags₁.unicodeSets = flags₂.unicodeSets) {p₁ p₂ : Place} (hp₁ : p₁ ∈ r₁.walk)
    (hp₂ : p₂ ∈ r₂.walk) (hkind : p₁.node.kind = p₂.node.kind)
    (hraw : p₁.raw? source₁ = p₂.raw? source₂)
    (hnone₁ : ∀ q ∈ p₁.below, q.node.kind ≠ .backreference)
    (hnone₂ : ∀ q ∈ p₂.below, q.node.kind ≠ .backreference) :
    p₁.node.unnumbered = p₂.node.unnumbered ∧
      List.Forall₂ (Place.Alike p₁.start p₂.start) p₁.below p₂.below := by
  rw [raw?_of_mem_walk h₁ hp₁, raw?_of_mem_walk h₂ hp₂] at hraw
  have hsame := unnumbered_eq h₁ h₂ hu hv (hasPart_of_mem_walk hp₁) (hasPart_of_mem_walk hp₂) hkind
    (Option.some.inj hraw) (hasBackreference_of_below hnone₁) (hasBackreference_of_below hnone₂)
  exact ⟨hsame, Place.alike_below (d := 0) hsame rfl rfl⟩

/-- The group `(a{2})` is the second one of `(b)(a{2})`, and the first one of `(a{2})`. -/
theorem alike_of_same_raw_group :
    let repeated : Node :=
      quantifier ⟨2, some 2, fun _ h => (Option.some.inj h).le⟩ true ['{', '2', '}'] (character ⟨97, ['a']⟩)
    let group (index : Nat) : Node := choice (.capture index none) [alternative [repeated]]
    let before : Node := choice (.capture 1 none) [alternative [character ⟨98, ['b']⟩]]
    let r₁ : Regex := ⟨['(', 'b', ')', '(', 'a', '{', '2', '}', ')'], .empty,
      choice .whole [alternative [before, group 2]]⟩
    let r₂ : Regex := ⟨['(', 'a', '{', '2', '}', ')'], { ignoreCase := true },
      choice .whole [alternative [group 1]]⟩
    ∃ p₁ ∈ r₁.walk, ∃ p₂ ∈ r₂.walk, p₁.node = group 2 ∧ p₁.start = 3 ∧ p₂.node = group 1 ∧
      p₂.start = 0 ∧ List.Forall₂ (Place.Alike 3 0) p₁.below p₂.below := by
  intro repeated group before r₁ r₂
  have h₁ : Regex.parse r₁.source r₁.flags = .ok r₁ := rfl
  have h₂ : Regex.parse r₂.source r₂.flags = .ok r₂ := rfl
  have hp₁ : ∃ p ∈ r₁.walk, p.node = group 2 ∧ p.start = 3 :=
    ⟨_, List.mem_of_getElem? (i := 5) rfl, rfl, rfl⟩
  have hp₂ : ∃ p ∈ r₂.walk, p.node = group 1 ∧ p.start = 0 :=
    ⟨_, List.mem_of_getElem? (i := 2) rfl, rfl, rfl⟩
  obtain ⟨p₁, hp₁, hnode₁, hstart₁⟩ := hp₁
  obtain ⟨p₂, hp₂, hnode₂, hstart₂⟩ := hp₂
  have hraw : p₁.raw? r₁.source = p₂.raw? r₂.source := by
    rw [raw?_of_mem_walk h₁ hp₁, raw?_of_mem_walk h₂ hp₂, hnode₁, hnode₂]
    rfl
  have hkind : p₁.node.kind = p₂.node.kind := by
    rw [hnode₁, hnode₂]
    rfl
  have hnone {p : Place} {index : Nat} (hp : p.node = group index) :
      ∀ q ∈ p.below, q.node.kind ≠ .backreference := by
    intro q hq
    have hnode : q.node ∈ (group index).nodes := by
      rw [← hp, ← map_node_below]
      exact List.mem_map_of_mem hq
    have hall : (group index).nodes.all (fun n => n.kind != .backreference) = true := rfl
    simpa using List.all_eq_true.1 hall _ hnode
  have halike := (alike_of_same_raw h₁ h₂ rfl rfl hp₁ hp₂ hkind hraw (hnone hnode₁)
    (hnone hnode₂)).2
  rw [hstart₁, hstart₂] at halike
  exact ⟨p₁, hp₁, p₂, hp₂, hnode₁, hstart₁, hnode₂, hstart₂, halike⟩

end Regex

end RegexAudit
