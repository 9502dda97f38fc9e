import RegexAudit.CharSet.KnownProperties
import RegexAudit.Proofs.Duplicates
import RegexAudit.Proofs.Fixes
import RegexAudit.Proofs.Terms

/-!
# What a fix leaves

An empty pattern has no literal: `//` begins a comment. So a fix should leave something of the source,
and every fix does, with one exception:

    Regex.parse source flags = .ok r → d ∈ lint rules ⟨r, captures⟩ → d.finding.fix = some fix
      → ∃ fixed, fix.result? source = some fixed ∧ (fixed = [] ↔ source = ['|'])

An assertion is taken out only if it is not the whole source, a quantifier keeps its element, and a
group its parenthesis. An alternative goes with the bar before it. Nothing is left if nothing stands
before that bar; then the alternative before it is empty, and the one that equals it is empty too.
-/

namespace RegexAudit

open Node

/-! ## Earlier alternatives -/

/-- A place in a row starts after each node before it, and the gap behind that. -/
theorem Place.width_le_of_mem_take {p : Place} {trail : Nat → List Step} {gap slot position start i : Nat}
    {ns : List Node} {n : Node} (hslot : ∀ j, (trail j).head?.map Step.slot = some j)
    (hp : p ∈ Place.inRow trail gap slot position start ns)
    (hi : p.trail.head?.map Step.slot = some (slot + i)) (hn : n ∈ ns.take i) :
    start + n.width + gap ≤ p.start := by
  induction ns generalizing slot position start i with
  | nil => cases hp
  | cons m ns ih =>
    cases i with
    | zero => cases hn
    | succ i =>
      rcases List.mem_cons.1 hp with rfl | hp
      · have := Option.some.inj ((hslot slot).symm.trans hi)
        omega
      · rcases List.mem_cons.1 hn with rfl | hn
        · exact (Place.within_inRow hp).1
        · have := ih hp (by rw [hi, Nat.add_assoc, Nat.add_comm 1]) hn
          omega

namespace DuplicateAlternative

theorem separator_of_mem {group n : Node} (h : n ∈ group.alternatives) : group.separator = ['|'] := by
  cases group with
  | choice _ _ | look _ _ _ => rfl
  | _ => cases h

/-- An earlier alternative has its place before a bar. -/
theorem width_of_earlier {r : Regex} {p : Place} {n : Node} (hp : p ∈ r.walk) (hn : n ∈ earlier p) :
    r.root.HasPart n ∧ n.width + 1 ≤ p.start := by
  obtain rfl | ⟨parent, hmem, hchild⟩ := Place.exists_parent_below (p := ⟨r.root, 0, 0, []⟩) hp
  · cases hn
  · obtain ⟨i, -, htrail⟩ := Place.slot_of_mem_children hchild
    replace hn : n ∈ parent.node.alternatives.take i := by
      rw [earlier, htrail] at hn
      exact hn
    have halternatives := List.mem_of_mem_take hn
    obtain ⟨-, -, hchildren⟩ := alternatives_eq_children halternatives
    rw [hchildren] at hn
    refine ⟨.child (hasPart_of_mem_walk hmem) (List.mem_of_mem_take hn), ?_⟩
    rw [Place.children, separator_of_mem halternatives] at hchild
    have hwidth := Place.width_le_of_mem_take (fun _ => rfl) hchild (i := i) (by rw [htrail]; simp) hn
    have hbar : Text.width ['|'] = 1 := rfl
    omega

end DuplicateAlternative

namespace Pattern

/-- The fix empties the source only if that is a single bar, and then it does. -/
def Leaves (source : List Char) (fix : Fix) : Prop :=
  ∀ front text back, fix.Cuts source front text back →
    (front ++ fix.text ++ back = [] ↔ source = ['|'])

section
variable {r : Regex} {p : Place} {fix : Fix} {finding : Finding}

/-- A source with anything but a bar is no single bar. -/
theorem leaves_of_mem {source : List Char} {c : Char} (htext : fix.text ≠ []) (hc : c ∈ source)
    (hbar : c ≠ '|') : Leaves source fix := by
  intro front text back _
  refine ⟨fun hfixed => absurd ?_ htext, ?_⟩
  · rw [List.append_assoc, List.append_eq_nil_iff, List.append_eq_nil_iff] at hfixed
    exact hfixed.2.1
  · rintro rfl
    exact absurd (List.mem_singleton.1 hc) hbar

theorem mem_source (hparse : Regex.parse r.source r.flags = .ok r) (hp : p ∈ r.walk) {c : Char}
    (hc : c ∈ p.node.text) : c ∈ r.source := by
  obtain ⟨front, back, hsource, -⟩ := Regex.sits_of_mem_walk hparse p hp
  rw [hsource]
  simp [hc]

/-! ## Assertions, quantifiers and groups -/

theorem leaves_uselessAssertion [Properties]
    (hparse : Regex.parse r.source r.flags = .ok r) (hp : p ∈ r.walk)
    (h : UselessAssertion.finding? r p = some finding) (hfix : finding.fix = some fix) :
    Leaves r.source fix := by
  obtain ⟨verdict, hverdict, rfl⟩ := Option.map_eq_some_iff.1 h
  simp only [Finding.about] at hfix
  split at hfix
  · rename_i hremovable
    cases hfix
    rw [Bool.and_eq_true, UselessAssertion.isRemovable, Bool.and_eq_true] at hremovable
    have hless : p.node.width < Text.width r.source := of_decide_eq_true hremovable.2.2
    intro front text back hcuts
    constructor
    · intro hfixed
      have hstart : p.start = Text.width front := hcuts.start
      have hstop : p.start + p.node.width = Text.width (front ++ text) := hcuts.stop
      obtain ⟨hfront, hback⟩ := List.append_eq_nil_iff.1 hfixed
      rw [hcuts.source, hback, List.append_nil] at hless
      obtain ⟨rfl, -⟩ := List.append_eq_nil_iff.1 hfront
      rw [hstart, Text.width_nil] at hstop
      omega
    · intro hsource
      obtain ⟨-, c, tail, htext, -⟩ := of_verdict (layered_of_mem hparse hp) hverdict
      have hone : Text.width ['|'] = 1 := rfl
      have hpos := c.utf8Size_pos
      rw [hsource, hone, Node.width_eq, htext, Text.width_cons] at hless
      omega
  · cases hfix

theorem text_ne_nil_of_unquantified {setting : Setting} {depth : Nat} {s s' : Progress} {n : Node}
    {repeats : Bool} (h : unquantified setting (disjunction setting depth)
      (Class.nested setting depth) s = .ok ((n, repeats), s')) : n.text ≠ [] := by
  obtain ⟨c, tail, hrest, hsuffix⟩ := unquantified_tail suffix_disjunction h
  intro htext
  have hsource := unquantified_source h
  rw [htext, List.nil_append] at hsource
  have hlength := hsuffix.length_le
  rw [← hsource, hrest, List.length_cons] at hlength
  omega

theorem leaves_nestedQuantifier (hparse : Regex.parse r.source r.flags = .ok r) (hp : p ∈ r.walk)
    (h : NestedQuantifier.finding? p = some finding) (hfix : finding.fix = some fix) :
    Leaves r.source fix := by
  obtain ⟨text, htext, rfl⟩ := Option.map_eq_some_iff.1 h
  cases hfix
  obtain ⟨_, _, bounds, _, _, greedy, _, _, e, hnode, -, rfl⟩ :=
    NestedQuantifier.replacement?_cases htext
  obtain ⟨a, -, hread⟩ := (stands_settled hparse p hp).termAt hnode
  rw [hnode] at hread
  obtain ⟨_, _, _, -, -, hinner, -⟩ := element_of_nested hread
  have helement := text_ne_nil_of_unquantified hinner
  refine leaves_of_mem (c := '(') ?_ (mem_source hparse hp ?_) (by decide)
  · show NestedQuantifier.merged bounds greedy e ≠ []
    unfold NestedQuantifier.merged
    split
    · exact helement
    · simp [helement]
  · rw [hnode]
    simp [Node.text, Frame.opening]

theorem leaves_unusedCapture (hparse : Regex.parse r.source r.flags = .ok r) (hp : p ∈ r.walk)
    {uses : CaptureUses} {last : Nat} (h : UnusedCapture.finding? r uses last p = some finding)
    (hfix : finding.fix = some fix) : Leaves r.source fix := by
  obtain ⟨name, ns, hnode, -, rfl⟩ := finding_unusedCapture h hfix
  refine leaves_of_mem (c := '(') (by simp [UnusedCapture.plain]) (mem_source hparse hp ?_) (by decide)
  rw [hnode]
  cases name <;> simp [Node.text, Frame.opening]

/-! ## Alternatives -/

theorem eq_nil_of_row {setting : Setting} {depth : Nat} {s s' : Progress} {ns : List Node}
    (h : Row (termAt setting depth) s ns s') (hrest : s.rest = s'.rest) : ns = [] := by
  cases h with
  | stop _ => rfl
  | step _ hfirst hlater =>
    obtain ⟨c, tail, hs, hsuffix⟩ := termAt_tail hfirst
    have hlength := ((hlater.suffix termAt_tail).trans hsuffix).length_le
    rw [← hrest, hs, List.length_cons] at hlength
    omega

/-- An alternative without a text has no elements. -/
theorem elements_eq_nil {ns : List Node} (hparse : Regex.parse r.source r.flags = .ok r)
    (hpart : r.root.HasPart (.alternative ns)) (htext : (Node.alternative ns).text = []) :
    ns = [] := by
  obtain ⟨p, hp, hnode⟩ := mem_walk_of_hasPart hpart
  obtain ⟨a, ms, hms, -, hrow, -⟩ := (stands_settled hparse p hp).alternativeAt hnode
  obtain rfl := Node.alternative.inj (hnode.symm.trans hms)
  have hrest := a.text
  rw [hnode, htext, List.nil_append] at hrest
  exact eq_nil_of_row hrow hrest

variable [Properties]

/-- What equals an alternative is one, and an alternative without elements equals only those without
a text. -/
theorem alternative_of_equal {c : Comparison} (hhook : ∀ a b, c.hook a b = none) {n : Node}
    {ms : List Node} (h : c.equal n (.alternative ms) = true) :
    ∃ ns, n = .alternative ns ∧ (ns = [] → (Node.alternative ms).text = []) := by
  have hcharacter : (n.isCharacter && (Node.alternative ms).isCharacter) = false := Bool.and_false _
  rw [Comparison.equal, Comparison.same.eq_def, Comparison.verdict, hhook] at h
  simp only [hcharacter, Bool.false_eq_true, ↓reduceIte, Bool.or_eq_true, Bool.and_eq_true] at h
  have hkind : n.kind = .alternative := by
    rcases h with ⟨-, hsame⟩ | hparts
    · simp only [Comparison.sameText, Bool.and_eq_true, beq_iff_eq] at hsame
      exact hsame.1.1
    · split at hparts <;> trivial
  obtain ⟨ns, rfl⟩ := kind_eq_alternative.1 hkind
  refine ⟨ns, rfl, ?_⟩
  rintro rfl
  rcases h with ⟨-, hsame⟩ | hparts
  · simp only [Comparison.sameText, Bool.and_eq_true, beq_iff_eq] at hsame
    exact hsame.2.symm
  · cases ms with
    | nil => rfl
    | cons _ _ => cases hparts

/-- The removal of a duplicate leaves nothing only if there is nothing but the bar. -/
theorem leaves_duplicateAlternative (hparse : Regex.parse r.source r.flags = .ok r) (hp : p ∈ r.walk)
    {subsets : Bool} (h : DuplicateAlternative.finding? r subsets p = some finding)
    (hfix : finding.fix = some fix) : Leaves r.source fix := by
  obtain ⟨⟨n, hn, hequal⟩, -, rfl⟩ := finding_duplicateAlternative hp h hfix
  obtain ⟨⟨a, ms, hnode, -, -, hbar⟩, i, hi⟩ := alternativeAt_of_earlier hparse hp hn
  obtain ⟨front', -, hstart, hcuts'⟩ := a.cuts_bar (hbar i hi).suffix
  intro front text back hcuts
  obtain ⟨rfl, rfl, rfl⟩ := hcuts.unique hcuts'
  have hsource := hcuts.source
  constructor
  · intro hfixed
    obtain ⟨hfront, hback⟩ := List.append_eq_nil_iff.1 hfixed
    obtain ⟨rfl, -⟩ := List.append_eq_nil_iff.1 hfront
    obtain ⟨hpart, hwidth⟩ := DuplicateAlternative.width_of_earlier hp hn
    rw [hstart, Text.width_nil, Node.width_eq] at hwidth
    have hempty : n.text = [] := by
      cases htext : n.text with
      | nil => rfl
      | cons c tail =>
        have := c.utf8Size_pos
        rw [htext, Text.width_cons] at hwidth
        omega
    rw [hnode] at hequal
    obtain ⟨ns, rfl, htext⟩ := alternative_of_equal (fun _ _ => rfl) hequal
    rw [hsource, hback, hnode, htext (elements_eq_nil hparse hpart hempty)]
    rfl
  · intro hone
    have hlength := congrArg List.length (hsource.symm.trans hone)
    simp only [List.length_append, List.length_cons, List.length_nil] at hlength
    have hfront : front = [] := List.length_eq_zero_iff.1 (by omega)
    have hback : a.s'.rest = [] := List.length_eq_zero_iff.1 (by omega)
    rw [hfront, hback]
    rfl

theorem leaves_of_mem_check (hparse : Regex.parse r.source r.flags = .ok r) {rule : Rule}
    {captures : Option CaptureUses} (h : finding ∈ rule.check ⟨r, captures⟩)
    (hfix : finding.fix = some fix) : Leaves r.source fix := by
  obtain ⟨p, hp, ⟨subsets, -, hfinding⟩ | ⟨-, hfinding⟩ | ⟨uses, -, hfinding⟩ | ⟨-, hfinding⟩⟩ :=
    finding_of_mem_check h hfix
  · exact leaves_duplicateAlternative hparse hp hfinding hfix
  · exact leaves_nestedQuantifier hparse hp hfinding hfix
  · exact leaves_unusedCapture hparse hp hfinding hfix
  · exact leaves_uselessAssertion hparse hp hfinding hfix

end

end Pattern

open Pattern

/-- A fix that the linter offers can be applied, and it leaves an empty source only of a single bar. -/
theorem Regex.fixed_eq_nil_iff [Properties] {source : List Char} {flags : Flags} {r : Regex}
    (h : Regex.parse source flags = .ok r) {rules : List Rule} {captures : Option CaptureUses}
    {d : Diagnostic} (hd : d ∈ lint rules ⟨r, captures⟩) {fix : Fix} (hfix : d.finding.fix = some fix) :
    ∃ fixed, fix.result? source = some fixed ∧ (fixed = [] ↔ source = ['|']) := by
  obtain ⟨rfl, rfl, -⟩ := Regex.parse_source h
  obtain ⟨front, text, back, hcuts, -⟩ := mends_of_mem_check h (mem_lint hd) hfix
  exact ⟨_, hcuts.result?, leaves_of_mem_check h (mem_lint hd) hfix front text back hcuts⟩

/-- The second alternative of `a|a` goes, and `a` is left. -/
theorem Regex.fixed_eq_nil_iff_letter :
    let a := alternative [character ⟨97, ['a']⟩]
    let source := ['a', '|', 'a']
    let r : Regex := ⟨source, {}, choice .whole [a, a]⟩
    Regex.parse source {} = .ok r ∧
      (∃ d ∈ lint [.duplicateAlternative false] ⟨r, none⟩, d.finding.fix = some (.removal 1 3)) ∧
        ∃ fixed, Fix.result? (.removal 1 3) source = some fixed ∧ fixed ≠ [] := by
  intro a source r
  have hparse : Regex.parse source {} = .ok r := rfl
  obtain ⟨d, hd, hfix⟩ :
      ∃ d ∈ lint [.duplicateAlternative false] ⟨r, none⟩, d.finding.fix = some (.removal 1 3) :=
    ⟨_, List.mem_of_getElem? (i := 0) rfl, rfl⟩
  obtain ⟨fixed, hresult, hnil⟩ := Regex.fixed_eq_nil_iff hparse hd hfix
  exact ⟨hparse, ⟨d, hd, hfix⟩, fixed, hresult, fun h => absurd (hnil.1 h) (by decide)⟩

/-- The second of the two empty alternatives of `|` is reported, and its removal leaves nothing. -/
theorem Regex.fixed_bar_eq_nil :
    let r : Regex := ⟨['|'], {}, choice .whole [alternative [], alternative []]⟩
    Regex.parse ['|'] {} = .ok r ∧
      (lint [.duplicateAlternative false] ⟨r, none⟩).map (fun d => d.finding.fix) =
        [some (.removal 0 1)] ∧
      Fix.result? (.removal 0 1) ['|'] = some [] :=
  ⟨rfl, rfl, rfl⟩

end RegexAudit
