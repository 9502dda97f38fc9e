import RegexAudit.Proofs.Scans

/-!
# Numbers of groups

Groups are numbered while they are read, and references to them are resolved afterwards. What a
reading does to the groups is said by `Opens`: the ones it opens have the next numbers and new
names, in the order of the walk.

So the groups of a parsed pattern have the numbers from 1 on, in the order of their parentheses, and
names of their own. Whether digits after a backslash are a reference is decided by a count that is
made before (`Lexeme.countGroups`). Where it is right, every reference leads to a group
(`Regex.parse_numbered`).
-/

namespace RegexAudit

open Node

namespace Pattern

variable {setting : Setting}

/-! ## Groups that are opened -/

/-- Some groups have the numbers after `s.groups`, and names that are new in `s'`. -/
structure Progress.Opens (s : Progress) (groups : List (Nat × Option (List Char))) (s' : Progress) :
    Prop where
  count : s'.groups = s.groups + groups.length
  numbers : groups.map Prod.fst = List.range' (s.groups + 1) groups.length
  names : s'.names = (groups.filterMap Prod.snd).reverse ++ s.names
  distinct : s.names.Nodup → s'.names.Nodup

namespace Progress.Opens

variable {s s1 s' : Progress} {gs hs : List (Nat × Option (List Char))}

theorem refl (s : Progress) (rest : List Char) : Opens s [] (s.next rest) :=
  ⟨rfl, rfl, rfl, id⟩

theorem trans (h : Opens s gs s1) (h' : Opens s1 hs s') : Opens s (gs ++ hs) s' where
  count := by
    rw [h'.count, h.count, List.length_append]
    omega
  numbers := by
    rw [List.map_append, h.numbers, h'.numbers, h.count, List.length_append,
      Nat.add_right_comm, List.range'_append_1]
  names := by
    rw [h'.names, h.names, List.filterMap_append, List.reverse_append, List.append_assoc]
  distinct := h'.distinct ∘ h.distinct

theorem next (h : Opens s gs s') (rest : List Char) : Opens s gs (s'.next rest) :=
  ⟨h.count, h.numbers, h.names, h.distinct⟩

/-- An opening opens the group that it is, if it is one. -/
theorem enter {o : Opening} {r : List Char} (h : o.Allowed s r) :
    Opens s (o.node s.groups []).capture?.toList (o.enter s r) := by
  cases o with
  | plain => exact refl s r
  | look direction negate => exact refl s r
  | capture name =>
    refine ⟨rfl, rfl, ?_, fun hdistinct => ?_⟩
    · cases name <;> rfl
    · cases name with
      | none => exact hdistinct
      | some name => exact hdistinct.cons h.2

end Progress.Opens

theorem kept_opens (setting : Setting) :
    Kept setting fun s ns s' => s.Opens (ns.flatMap captures) s' where
  refl s := .refl s s.rest
  trans h h' := by
    rw [List.flatMap_append]
    exact h.trans h'
  leaf {s} _ _ rest _ h := by
    simp only [List.flatMap_cons, List.flatMap_nil, h.captures, List.append_nil]
    exact .refl s rest
  enclosed {s} _ o _ rest ns _ hallowed h _ := by
    simp only [List.flatMap_cons, List.flatMap_nil, List.append_nil, captures_openings]
    exact ((Progress.Opens.enter hallowed).trans h).next rest
  repeated h _ := by
    rename_i rest _
    simpa [captures_eq (.quantifier _ _ _ _), capture?, children] using h.next rest
  alternative h := by
    simpa [captures_eq (.alternative _), capture?, children] using h
  bar {s r} _ := .refl s r

/-! ## References -/

/-- Numbers in references are between 1 and the number of groups. -/
def RefersWithin (groups : Nat) : Node → Prop := Throughout fun m =>
  ∀ k, m = .backreference (.index k) → 1 ≤ k ∧ k ≤ groups

theorem refersWithin_classPart {n : Node} (h : n.ClassPart) (groups : Nat) :
    RefersWithin groups n := by
  rintro m hm k rfl
  cases h _ hm

theorem refersWithin_of_children {n : Node} {groups : Nat} (hn : ∀ ref, n ≠ .backreference ref)
    (h : ∀ c ∈ n.children, RefersWithin groups c) : RefersWithin groups n :=
  throughout_iff.2 ⟨fun _ hk => absurd hk (hn _), h⟩

theorem Leaf.refersWithin {text rest : List Char} {n : Node} {repeats : Bool} {depth : Nat}
    (h : Leaf setting (Class.nested setting depth) text n repeats rest) :
    RefersWithin setting.groups n := by
  cases h with
  | edge e => exact refersWithin_of_children nofun nofun
  | any => exact refersWithin_of_children nofun nofun
  | charClass hread =>
    split at hread
    · exact refersWithin_classPart (Class.nested_source depth hread).shape _
    · exact refersWithin_classPart (Class.listed_source hread).shape _
  | plain _ => exact refersWithin_of_children nofun nofun
  | escape _ _ hread =>
    cases escaped_iff.1 hread with
    | shorthand _ => exact refersWithin_of_children nofun nofun
    | name _ _ => exact throughout_iff.2 ⟨nofun, nofun⟩
    | octal _ _ _ _ _ _ => exact refersWithin_of_children nofun nofun
    | character _ _ _ _ => exact refersWithin_of_children nofun nofun
    | index h1 h9 hdecimal hle =>
      refine throughout_iff.2 ⟨?_, nofun⟩
      intro k hk
      cases hk
      exact ⟨Lexeme.decimal?_pos h1 h9 hdecimal, hle⟩

theorem kept_refersWithin (setting : Setting) :
    Kept setting fun _ ns _ => ∀ n ∈ ns, RefersWithin setting.groups n where
  refl _ := by simp
  trans h h' n hn := (List.mem_append.1 hn).elim (h n) (h' n)
  leaf h n hn := by
    rw [List.mem_singleton.1 hn]
    exact h.refersWithin
  enclosed {s} _ o _ _ ns _ _ h _ n hn := by
    rw [List.mem_singleton.1 hn]
    refine refersWithin_of_children (fun ref href => ?_) (by rwa [o.children_node])
    cases o <;> cases href
  repeated h _ n hn := by
    rw [List.mem_singleton.1 hn]
    exact refersWithin_of_children nofun h
  alternative h n hn := by
    rw [List.mem_singleton.1 hn]
    exact refersWithin_of_children nofun h
  bar _ := by simp

end Pattern

/-! ## Parsed patterns -/

namespace Regex

open Pattern

variable {source : List Char} {flags : Flags} {r : Regex}

/-- What is parsed: alternatives up to the end of the source, all of whose references by name are
to groups that were opened. -/
theorem parse_iff : Regex.parse source flags = .ok r ↔ ∃ ns s,
    disjunction (settingOf flags source) nestingLimit ⟨source, 0, []⟩ = .ok (ns, s) ∧ s.rest = [] ∧
      (∀ name, (choice .whole ns).HasPart (.backreference (.name name)) → name ∈ s.names) ∧
      r = ⟨source, flags, .choice .whole ns⟩ := by
  have hunknown {names : List (List Char)} {root : Node} :
      (root.walk.find? fun p => isUnknownName names p.node) = none ↔
        ∀ name, root.HasPart (.backreference (.name name)) → name ∈ names := by
    rw [List.find?_eq_none]
    constructor
    · intro h name hpart
      obtain ⟨p, hp, hnode⟩ := mem_walk_of_hasPart hpart
      simpa [hnode, isUnknownName] using h p hp
    · intro h p hp
      have hpart := hasPart_of_mem_walk hp
      unfold isUnknownName
      split
      · rename_i name hnode
        rw [hnode] at hpart
        simpa using h name hpart
      · simp
  constructor
  · intro h
    obtain ⟨root, hroot, h⟩ := bind_eq_ok.1 h
    cases h
    unfold Pattern.parse parseWithin at hroot
    split at hroot
    · cases hroot
    · rename_i names hread
      split at hroot
      · cases hroot
      · rename_i hfind
        cases hroot
        obtain ⟨⟨ns, s⟩, hns, hread⟩ := bind_eq_ok.1 hread
        simp only at hread
        split at hread
        · rename_i hrest
          cases hread
          exact ⟨ns, s, hns, hrest, hunknown.1 hfind, rfl⟩
        · cases hread
        · cases hread
  · rintro ⟨ns, s, hns, hrest, hnames, rfl⟩
    have hread : Pattern.read nestingLimit flags source = .ok (.choice .whole ns, s.names) := by
      refine bind_eq_ok.2 ⟨_, hns, ?_⟩
      simp only [hrest]
    refine bind_eq_ok.2 ⟨.choice .whole ns, ?_, rfl⟩
    rw [Pattern.parse, parseWithin, hread]
    simp only [hunknown.2 hnames]

/-- The groups are numbered and named one by one. -/
structure Numbered (r : Regex) : Prop where
  /-- The groups have the numbers from 1 on, each once, in the order of the walk. -/
  numbers : r.groups.map captureIndex? = (List.range' 1 r.groups.length).map some
  /-- That is the order of their opening parentheses. -/
  starts : r.groups.Pairwise fun p q => p.start < q.start
  /-- No two groups have the same name. -/
  names : (r.groups.filterMap fun p => p.node.capture?.bind Prod.snd).Nodup

/-- A reference names the group at a place, and is resolved to it. -/
structure Resolves (r : Regex) (ref : GroupRef) (g : Place) : Prop where
  group : g ∈ r.groups
  named : g.node.isNamedBy ref = true
  found : r.root.group? ref = some (g.path, g.node)

theorem captureIndex?_eq (p : Place) : captureIndex? p = p.node.capture?.map Prod.fst := by
  obtain ⟨n, _, _, _⟩ := p
  cases n with
  | choice frame ns => cases frame <;> rfl
  | _ => rfl

theorem isSome_captureIndex? (p : Place) :
    (captureIndex? p).isSome = p.node.capture?.isSome := by
  rw [captureIndex?_eq, Option.isSome_map]

theorem groups_eq (r : Regex) : r.groups = r.walk.filter fun p => p.node.capture?.isSome :=
  List.filter_congr fun p _ => isSome_captureIndex? p

theorem map_capture?_groups (r : Regex) :
    r.groups.map (fun p => p.node.capture?) = r.root.captures.map some := by
  rw [groups_eq, captures, nodes, List.filterMap_map]
  show ((walk r).filter _).map _ = ((walk r).filterMap _).map some
  induction r.walk with
  | nil => rfl
  | cons p ps ih => cases hp : p.node.capture? <;> simp [hp, ih]

/-- A reference that some group fits is resolved to a group that it names. -/
theorem exists_resolves (hroot : r.root.IsPattern) {ref : GroupRef} {n : Node}
    (hn : r.root.HasPart n) (hnamed : n.isNamedBy ref = true) : ∃ g, r.Resolves ref g := by
  obtain ⟨p, hp, rfl⟩ := mem_walk_of_hasPart hn
  have hfound := group?_walk hroot.layered ref
  have hsome : (r.root.walk.find? fun p => p.node.isNamedBy ref).isSome = true :=
    List.find?_isSome.2 ⟨p, hp, hnamed⟩
  obtain ⟨g, hg⟩ := Option.isSome_iff_exists.1 hsome
  rw [hg] at hfound
  have hgnamed := List.find?_some (p := fun p : Place => p.node.isNamedBy ref) hg
  refine ⟨g, ?_, hgnamed, hfound⟩
  obtain ⟨index, name, ns, hnode, -⟩ := isNamedBy_iff.1 hgnamed
  refine List.mem_filter.2 ⟨List.mem_of_find?_eq_some hg, ?_⟩
  rw [isSome_captureIndex?, hnode]
  rfl

theorem numbered_of_opens {s s' : Progress} (hs : s.groups = 0 ∧ s.names = [])
    (h : s.Opens r.root.captures s') : r.Numbered where
  numbers := by
    have hlength := congrArg List.length (map_capture?_groups r)
    simp only [List.length_map] at hlength
    have hindexes : r.groups.map captureIndex? =
        (r.groups.map fun p => p.node.capture?).map (Option.map Prod.fst) := by
      simp [captureIndex?_eq]
    rw [hindexes, map_capture?_groups, hlength, List.map_map]
    have hnumbers := h.numbers
    rw [hs.1, Nat.zero_add] at hnumbers
    simp [← hnumbers]
  starts := by
    rw [groups_eq, List.pairwise_filter]
    refine (Place.starts_below ⟨r.root, 0, 0, []⟩).imp fun hstart => ?_
    exact fun hcapture _ => hstart hcapture
  names := by
    have hnames : (r.groups.filterMap fun p => p.node.capture?.bind Prod.snd) =
        (r.groups.map fun p => p.node.capture?).filterMap fun c => c.bind Prod.snd := by
      simp [List.filterMap_map]
    rw [hnames, map_capture?_groups, List.filterMap_map]
    have hdistinct := h.distinct (by simp [hs.2])
    rw [h.names, hs.2, List.append_nil, List.nodup_reverse] at hdistinct
    exact hdistinct

/-- Without bare brackets in strings, the count in advance is the number of groups. -/
theorem settingOf_eq {ns : List Node} {s : Progress}
    (hread : disjunction (settingOf flags source) nestingLimit ⟨source, 0, []⟩ = .ok (ns, s))
    (hrest : s.rest = []) (hns : ∀ n ∈ ns, n.Unbracketed) : settingOf flags source =
      ⟨flags, (ns.flatMap captures).length, (ns.flatMap captures).any (·.2.isSome)⟩ := by
  have hcount := countGroups_of_disjunction hread hrest hns
  simp only [settingOf] at hcount ⊢
  rw [hcount]

/-- The groups of a parsed pattern are numbered from 1 on in the order of their parentheses, and no
two have the same name. A reference by name is resolved to the group of that name. So is a reference
by number to the group of that number, unless a string in a class holds a bare bracket. -/
theorem parse_numbered (h : Regex.parse source flags = .ok r) : r.Numbered ∧
    (∀ p ∈ r.walk, ∀ name, p.node = .backreference (.name name) → ∃ g, r.Resolves (.name name) g) ∧
      ((∀ p ∈ r.walk, p.node.holdsBracket = false) →
        ∀ p ∈ r.walk, ∀ ref, p.node = .backreference ref → ∃ g, r.Resolves ref g) := by
  obtain ⟨ns, s, hread, hrest, hknown, rfl⟩ := parse_iff.1 h
  have hpattern := (parse_source h).2.2.1
  have hopens := (kept_opens _).disjunction hread
  have hcaptures : (choice .whole ns).captures = ns.flatMap captures :=
    captures_of_capture?_eq_none rfl
  rw [← hcaptures] at hopens
  have hnamed : ∀ p ∈ (choice .whole ns).walk, ∀ name, p.node = .backreference (.name name) →
      ∃ g, Resolves ⟨source, flags, choice .whole ns⟩ (.name name) g := by
    intro p hp name hnode
    have hname := hknown name (hnode ▸ hasPart_of_mem_walk hp)
    rw [hopens.names, List.append_nil, List.mem_reverse, List.mem_filterMap] at hname
    obtain ⟨⟨index, _⟩, hmem, rfl⟩ := hname
    obtain ⟨ms, hpart⟩ := mem_captures.1 hmem
    exact exists_resolves hpattern hpart (by simp [Node.isNamedBy, Frame.isNamedBy])
  refine ⟨numbered_of_opens ⟨rfl, rfl⟩ hopens, hnamed, ?_⟩
  intro hbrackets p hp ref hnode
  cases ref with
  | name name => exact hnamed p hp name hnode
  | index k =>
    have hunbracketed : (choice .whole ns).Unbracketed := by
      intro m hm
      obtain ⟨q, hq, rfl⟩ := mem_walk_of_hasPart hm
      exact hbrackets q hq
    have hsetting := settingOf_eq hread hrest fun n hn => hunbracketed.child hn
    have hrefers := refersWithin_of_children (n := choice .whole ns) (fun _ hk => by cases hk)
      ((kept_refersWithin _).disjunction hread)
    obtain ⟨hone, hle⟩ := hrefers _ (hasPart_of_mem_walk hp) k hnode
    rw [hsetting, ← hcaptures] at hle
    have hk : k ∈ (choice .whole ns).captures.map Prod.fst := by
      rw [hopens.numbers, List.mem_range'_1]
      simp only at hle ⊢
      omega
    obtain ⟨⟨_, name⟩, hmem, rfl⟩ := List.mem_map.1 hk
    obtain ⟨ms, hpart⟩ := mem_captures.1 hmem
    exact exists_resolves hpattern hpart (by simp [Node.isNamedBy, Frame.isNamedBy])

/-- In `(a)(b)\2[\q{c}]` the reference is resolved to the second group. -/
theorem parse_numbered_two :
    let source := ['(', 'a', ')', '(', 'b', ')', '\\', '2', '[', '\\', 'q', '{', 'c', '}', ']']
    let flags : Flags := { unicodeSets := true }
    let r : Regex := ⟨source, flags, choice .whole [alternative [
      choice (.capture 1 none) [alternative [character ⟨97, ['a']⟩]],
      choice (.capture 2 none) [alternative [character ⟨98, ['b']⟩]],
      backreference (.index 2), charClass false true [strings [[⟨99, ['c']⟩]]]]]⟩
    Regex.parse source flags = .ok r ∧ (∀ p ∈ r.walk, p.node.holdsBracket = false) ∧ r.Numbered ∧
      ∃ g, r.Resolves (.index 2) g := by
  intro source flags r
  have hparse : Regex.parse source flags = .ok r := rfl
  have hbrackets : ∀ p ∈ r.walk, p.node.holdsBracket = false := by decide
  obtain ⟨hnumbered, -, hresolved⟩ := parse_numbered hparse
  obtain ⟨p, hp, hnode⟩ : ∃ p ∈ r.walk, p.node = .backreference (.index 2) :=
    ⟨_, List.mem_of_getElem? (i := 8) rfl, rfl⟩
  exact ⟨hparse, hbrackets, hnumbered, hresolved hbrackets p hp _ hnode⟩

/-- In `[\q{](}]\1` the bracket in the string ends the class for the count in advance, and the
parenthesis after it counts as a group. The reference is resolved to none. -/
theorem not_resolves_bracket :
    let source := ['[', '\\', 'q', '{', ']', '(', '}', ']', '\\', '1']
    let flags : Flags := { unicodeSets := true }
    let r : Regex := ⟨source, flags, choice .whole [alternative [
      charClass false true [strings [[⟨93, [']']⟩, ⟨40, ['(']⟩]]], backreference (.index 1)]]⟩
    Regex.parse source flags = .ok r ∧ (∃ p ∈ r.walk, p.node = .backreference (.index 1)) ∧
      ∀ g, ¬ r.Resolves (.index 1) g := by
  intro source flags r
  refine ⟨rfl, ⟨_, List.mem_of_getElem? (i := 7) rfl, rfl⟩, fun g hg => ?_⟩
  have hnone : r.root.group? (.index 1) = none := rfl
  cases hnone.symm.trans hg.found

end Regex

end RegexAudit
