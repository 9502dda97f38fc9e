import RegexAudit.CharSet.KnownProperties
import RegexAudit.Lint.Repair
import RegexAudit.Proofs.CountedGroups
import RegexAudit.Proofs.Ranges
import RegexAudit.Proofs.Splices

/-!
# Fixed sources

A fix of the linter can be applied, and what comes of it is a pattern under the same flags:

    Regex.parse source flags = .ok r → d ∈ lint rules ⟨r, captures⟩ → d.finding.fix = some fix
      → ∃ front text back, fix.Cuts source front text back ∧
          fix.result? source = some (front ++ fix.text ++ back) ∧
            (… → ∃ r', Regex.parse (front ++ fix.text ++ back) flags = .ok r')

Two things can go wrong. Where an assertion, or a group around a quantifier, is taken out, the texts
that were around it come together, and what is read may change: `\0\b1` becomes `\01`, which is no
escape with `u`, and `x{2(?=,),1}` becomes `x{2,1}`. `Seam` says that this is not so. And a bare bracket
in a string of a class misleads the count of groups in advance, on which the references depend. An
alternative has a bar or an end behind it, and a group stays a group, so these fixes join nothing.
-/

namespace RegexAudit

open Node

/-- The rules with fixes that let two texts come together. -/
def Rule.Joins (rule : Rule) : Prop := rule = .uselessAssertion ∨ rule = .nestedQuantifier

/-! ## Alternatives with a bar -/

namespace DuplicateAlternative

variable {parent q : Place} {i : Nat}

theorem separator_of_alternatives {n : Node} (h : n.alternatives?.isSome = true) :
    n.separator = ['|'] := by
  cases n with
  | choice _ _ | look _ _ _ => rfl
  | _ => cases h

theorem children_of_alternatives (h : parent.alternatives[i]? = some q) :
    parent.children[i]? = some q ∧ parent.node.separator = ['|'] := by
  unfold Place.alternatives at h
  split at h
  · rename_i hparent
    exact ⟨h, separator_of_alternatives hparent⟩
  · cases h

/-- The alternative is found again among those of its parent. -/
theorem removeAlternative?_eq (hq : parent.alternatives[i]? = some q) : removeAlternative? q =
    match i with
    | 0 => parent.alternatives[1]?.map fun next => .removal q.start next.start
    | i + 1 => parent.alternatives[i]?.map fun before => .removal before.stop q.stop := by
  have hparent : q.parent? = some parent := by
    obtain ⟨j, -, htrail⟩ :=
      Place.slot_of_mem_children (List.mem_of_getElem? (children_of_alternatives hq).1)
    rw [Place.parent?, Place.ancestors, htrail]
    rfl
  have hfind : parent.alternatives.findIdx? (·.position == q.position) = some i := by
    have hchildren := Place.findIdx?_inRow (children_of_alternatives hq).1
    unfold Place.alternatives at hq ⊢
    split at hq
    · rename_i h
      rw [if_pos h]
      exact hchildren
    · cases hq
  rw [removeAlternative?, hparent]
  simp only [Option.bind_eq_bind, Option.bind_some, hfind]
  cases i <;> rfl

/-- An alternative that is not the first is taken out with the bar before it. -/
theorem removeAlternative?_later (hq : parent.alternatives[i + 1]? = some q) :
    removeAlternative? q = some (.removal (q.start - 1) q.stop) := by
  obtain ⟨p, hp⟩ : ∃ p, parent.alternatives[i]? = some p :=
    ⟨_, List.getElem?_eq_getElem (Nat.lt_of_succ_lt (List.getElem?_eq_some_iff.1 hq).1)⟩
  obtain ⟨hchild, hbar⟩ := children_of_alternatives hq
  have hstart := Place.start_next_inRow (children_of_alternatives hp).1 hchild
  rw [hbar] at hstart
  rw [removeAlternative?_eq hq]
  dsimp only
  rw [hp, hstart]
  rfl

/-- The first one is taken out with the bar behind it, or not at all if it is the only one. So each of
several alternatives goes with exactly one bar. -/
theorem removeAlternative?_cuts {source : List Char} (hparent : parent.Sits source)
    (hq : parent.alternatives[i]? = some q) :
    if parent.alternatives.length = 1 then removeAlternative? q = none
    else ∃ fix front back, removeAlternative? q = some fix ∧ fix.text = [] ∧
      fix.Cuts source front (if i = 0 then q.node.text ++ ['|'] else '|' :: q.node.text) back := by
  have hlt := (List.getElem?_eq_some_iff.1 hq).1
  obtain ⟨hchild, hbar⟩ := children_of_alternatives hq
  split
  · rename_i hsole
    obtain rfl : i = 0 := by omega
    rw [removeAlternative?_eq hq]
    simp [hsole]
  · rename_i hsole
    cases i with
    | zero =>
      obtain ⟨next, hnext⟩ : ∃ next, parent.alternatives[1]? = some next :=
        ⟨_, List.getElem?_eq_getElem (by omega)⟩
      have hchild' := (children_of_alternatives hnext).1
      have hstart := Place.start_next_inRow hchild hchild'
      obtain ⟨front, after, hsource, hfront⟩ := Place.sits_next_children hparent hchild hchild'
      rw [hbar] at hstart hsource
      refine ⟨.removal q.start next.start, front, next.node.text ++ after, ?_, rfl, ?_,
        hfront.symm, ?_⟩
      · rw [removeAlternative?_eq hq]
        dsimp only
        rw [hnext]
        rfl
      · rw [hsource]
        simp
      · show next.start = _
        rw [hstart, Place.stop, Node.width_eq, if_pos rfl, Text.width_append, Text.width_append,
          hfront, Nat.add_assoc]
    | succ i =>
      obtain ⟨p, hp⟩ : ∃ p, parent.alternatives[i]? = some p :=
        ⟨_, List.getElem?_eq_getElem (Nat.lt_of_succ_lt hlt)⟩
      have hchild' := (children_of_alternatives hp).1
      have hstart := Place.start_next_inRow hchild' hchild
      obtain ⟨before, back, hsource, hbefore⟩ := Place.sits_next_children hparent hchild' hchild
      rw [hbar] at hstart hsource
      have hstop : q.start - 1 = Text.width (before ++ p.node.text) := by
        rw [hstart, Text.width_append, hbefore, Place.stop, Node.width_eq]
        rfl
      refine ⟨_, before ++ p.node.text, back, removeAlternative?_later hq, rfl, ?_, hstop, ?_⟩
      · rw [hsource]
        simp
      · show q.stop = Text.width (before ++ p.node.text ++ '|' :: q.node.text)
        have hwidth : Text.width ('|' :: q.node.text) = 1 + Text.width q.node.text := rfl
        rw [Text.width_append, ← hstop, hwidth, Place.stop, Node.width_eq, hstart]
        have hone : Text.width ['|'] = 1 := rfl
        omega

/-- What has an earlier one is an alternative, and not the first. -/
theorem alternative_of_earlier {root n : Node} (hq : q ∈ root.walk) (hn : n ∈ earlier q) :
    ∃ parent ∈ root.walk, parent.node.alternatives ≠ [] ∧
      ∃ i, parent.alternatives[i + 1]? = some q := by
  obtain rfl | ⟨parent, hmem, hchild⟩ := Place.exists_parent_below (p := ⟨root, 0, 0, []⟩) hq
  · cases hn
  obtain ⟨i, hi⟩ := List.mem_iff_getElem?.1 hchild
  have htrail := Place.trail_children hi
  replace hn : n ∈ parent.node.alternatives.take i := by
    rw [earlier, htrail] at hn
    exact hn
  have hne := List.ne_nil_of_mem (List.mem_of_mem_take hn)
  have hsome : parent.node.alternatives?.isSome = true := by
    cases halternatives : parent.node.alternatives? with
    | none =>
      rw [Node.alternatives, halternatives] at hne
      exact absurd rfl hne
    | some ns => rfl
  cases i with
  | zero => cases hn
  | succ i =>
    refine ⟨parent, hmem, hne, i, ?_⟩
    rw [Place.alternatives, if_pos hsome, hi]

end DuplicateAlternative

namespace Pattern

section
variable {r : Regex} {p : Place} {fix : Fix} {finding : Finding}

/-! ## Assertions that are taken out -/

theorem labels_of_classPart {n : Node} (h : n.ClassPart) : n.labels = [] := by
  rw [labels, captures_of_classPart h]
  rfl

theorem labels_of_only_child {n c : Node} (h : n.capture? = none) (hchildren : n.children = [c]) :
    n.labels = c.labels := by
  rw [labels_eq h, hchildren, List.flatMap_singleton]

theorem layered_of_mem (hparse : Regex.parse r.source r.flags = .ok r) (hp : p ∈ r.walk) :
    p.node.Layered :=
  throughout_of_hasPart (Regex.parse_source hparse).2.2.1.layered (hasPart_of_mem_walk hp)

/-- The elements of an alternative are read as terms. -/
theorem termAt_of_parent (hparse : Regex.parse r.source r.flags = .ok r) (hp : p ∈ r.walk)
    (hparent : (p.trail.head?.any fun s => UselessAssertion.isAlternative s.parent) = true) :
    (Route.ofRegex r (Settled r)).TermAt p := by
  obtain rfl | ⟨parent, hmem, hchild⟩ := Place.exists_parent_below (p := ⟨r.root, 0, 0, []⟩) hp
  · cases hparent
  · obtain ⟨i, -, htrail⟩ := Place.slot_of_mem_children hchild
    rw [htrail] at hparent
    obtain ⟨ns, hnode⟩ : ∃ ns, parent.node = .alternative ns := by
      simp only [List.head?_cons, Option.any_some] at hparent
      unfold UselessAssertion.isAlternative at hparent
      split at hparent
      · rename_i ns hnode
        exact ⟨ns, hnode⟩
      · cases hparent
    exact ((stands_settled hparse parent hmem).alternativeAt hnode).children p hchild

/-- An assertion with a verdict opens no group. -/
theorem of_verdict [Properties] {verdict : UselessAssertion.Verdict} (hlayered : p.node.Layered)
    (h : UselessAssertion.verdict? r p = some verdict) :
    p.node.labels = [] ∧ ∃ c tail, p.node.text = c :: tail ∧ c ≠ 'c' := by
  unfold UselessAssertion.verdict? at h
  split at h
  · rename_i hnode
    rw [hnode]
    exact ⟨rfl, _, _, rfl, by decide⟩
  · rename_i hnode
    rw [hnode]
    exact ⟨rfl, _, _, rfl, by decide⟩
  · rename_i negate hnode
    rw [hnode]
    cases negate <;> exact ⟨rfl, _, _, rfl, by decide⟩
  · rename_i direction negate alternatives hnode
    obtain ⟨set, hset, -⟩ := Option.bind_eq_some_iff.1 h
    rw [hnode] at hlayered ⊢
    have hopening : ∃ tail, (Node.look direction negate alternatives).text = '(' :: tail := by
      cases direction <;> cases negate <;> exact ⟨_, rfl⟩
    obtain ⟨tail, htext⟩ := hopening
    refine ⟨?_, '(', tail, htext, by decide⟩
    unfold Node.soleSet? at hset
    split at hset
    · rename_i n
      split at hset
      · rename_i hcharacter
        have hn : n.ClassPart :=
          ((hlayered.child (List.mem_singleton_self _)).child (List.mem_singleton_self n)).classPart
            (isClassLevel_of_isCharacter hcharacter)
        exact (labels_of_only_child rfl rfl).trans
          ((labels_of_only_child rfl rfl).trans (labels_of_classPart hn))
      · cases hset
    · cases hset
  · cases h

theorem mends_uselessAssertion [Properties]
    (hparse : Regex.parse r.source r.flags = .ok r) (hp : p ∈ r.walk)
    (h : UselessAssertion.finding? r p = some finding) (hfix : finding.fix = some fix) :
    Mends r fix True := by
  obtain ⟨verdict, hverdict, rfl⟩ := Option.map_eq_some_iff.1 h
  simp only [Finding.about] at hfix
  split at hfix
  · rename_i hremovable
    cases hfix
    rw [Bool.and_eq_true, UselessAssertion.isRemovable, Bool.and_eq_true] at hremovable
    obtain ⟨a, hpending, -⟩ := termAt_of_parent hparse hp hremovable.2.1
    obtain ⟨hnone, c, tail, htext, hc⟩ := of_verdict (layered_of_mem hparse hp) hverdict
    obtain ⟨front, hsource, hstart⟩ := a.source
    refine ⟨front, p.node.text, a.s'.rest, a.cuts hsource hstart [], fun hbare hseams => ?_⟩
    have hfinishes := a.finishes hparse hbare
    rw [hpending] at hfinishes
    have hlabels := a.labels
    rw [hnone, List.append_nil] at hlabels
    have hhead : a.s.rest.head? ≠ some 'c' := by
      rw [a.text, htext]
      simpa using hc
    have hseam : Seam r.flags.unicodeMode front a.s'.rest := (hseams trivial).1
    show ∃ r', Regex.parse (front ++ [] ++ a.s'.rest) r.flags = .ok r'
    rw [List.append_nil]
    exact parses_of_run hparse hbare a.arrives.run hsource hseam hhead hfinishes hlabels
  · cases hfix

/-! ## Alternatives that are taken out -/

theorem anyCapture_eq_false {ns : List Node} (h : anyCapture ns = false) :
    ∀ n ∈ ns, n.hasCapture = false := by
  induction ns with
  | nil => simp
  | cons n ns ih =>
    rw [anyCapture, Bool.or_eq_false_iff] at h
    exact List.forall_mem_cons.2 ⟨h.1, ih h.2⟩

theorem labels_of_hasCapture {n : Node} (hlayered : n.Layered) (h : n.hasCapture = false) :
    n.labels = [] := by
  induction n using induction_on_children with
  | h n ih =>
    have hchildren (hnone : n.capture? = none) (hc : ∀ c ∈ n.children, c.hasCapture = false) :
        n.labels = [] := by
      rw [labels_eq hnone, List.flatMap_eq_nil_iff]
      exact fun c hmem => ih c hmem (hlayered.child hmem) (hc c hmem)
    cases n with
    | choice frame ns =>
      cases frame with
      | capture _ _ => cases h
      | _ => exact hchildren rfl (anyCapture_eq_false h)
    | look _ _ ns => exact hchildren rfl (anyCapture_eq_false h)
    | alternative ns => exact hchildren rfl (anyCapture_eq_false h)
    | quantifier _ _ _ element => exact hchildren rfl (List.forall_mem_singleton.2 h)
    | edge _ | backreference _ => rfl
    | _ => exact labels_of_classPart (hlayered.classPart rfl)

/-- A later alternative is read after a bar. -/
theorem alternativeAt_of_earlier (hparse : Regex.parse r.source r.flags = .ok r) (hp : p ∈ r.walk)
    {n : Node} (hn : n ∈ DuplicateAlternative.earlier p) :
    (Route.ofRegex r (Settled r)).AlternativeAt p ∧
      ∃ i, p.trail.head?.map Step.slot = some (i + 1) := by
  obtain ⟨parent, hmem, halternatives, i, hi⟩ := DuplicateAlternative.alternative_of_earlier hp hn
  have hchild := (DuplicateAlternative.children_of_alternatives hi).1
  have hstands := (stands_settled hparse parent hmem).holdsAlternatives halternatives
  refine ⟨hstands.children p (List.mem_of_getElem? hchild), i, ?_⟩
  rw [Place.trail_children hchild]
  rfl

theorem finding_duplicateAlternative [Properties] (hp : p ∈ r.walk) {subsets : Bool}
    (h : DuplicateAlternative.finding? r subsets p = some finding) (hfix : finding.fix = some fix) :
    (∃ n ∈ DuplicateAlternative.earlier p,
      ({ flags := r.flags, resolve? := some r.resolve? } : Comparison).equal n p.node = true) ∧
      p.node.hasCapture = false ∧ fix = .removal (p.start - 1) p.stop := by
  have hremoval : (∃ n ∈ DuplicateAlternative.earlier p,
      ({ flags := r.flags, resolve? := some r.resolve? } : Comparison).equal n p.node = true) ∧
        DuplicateAlternative.removal? p = some fix := by
    unfold DuplicateAlternative.finding? at h
    simp only at h
    split at h
    · rename_i n hn
      have hequal := List.find?_some hn
      cases h
      exact ⟨⟨n, List.mem_of_find?_eq_some hn, hequal⟩, hfix⟩
    · split at h
      · obtain ⟨n, -, rfl⟩ := Option.map_eq_some_iff.1 h
        cases hfix
      · cases h
  obtain ⟨hearlier, hremoval⟩ := hremoval
  obtain ⟨parent, -, -, i, hi⟩ :=
    DuplicateAlternative.alternative_of_earlier hp hearlier.choose_spec.1
  obtain ⟨hcapture, hremoval⟩ := Option.ite_none_left_eq_some.1 hremoval
  rw [DuplicateAlternative.removeAlternative?_later hi] at hremoval
  cases hremoval
  exact ⟨hearlier, Bool.eq_false_iff.2 hcapture, rfl⟩

/-- A place after a bar can be taken out together with the bar. -/
theorem Route.Passage.cuts_bar {x : Route} (a : x.Passage p) (h : '|' :: a.s.rest <:+ x.source) :
    ∃ front, x.source = front ++ '|' :: a.s.rest ∧ p.start = Text.width front + 1 ∧
      Fix.Cuts (.removal (p.start - 1) p.stop) x.source front ('|' :: p.node.text) a.s'.rest := by
  obtain ⟨front, hfront⟩ := h
  have hbar (w : List Char) : Text.width ('|' :: w) = 1 + Text.width w := rfl
  have hwidth := a.arrives.start
  rw [← hfront, Text.width_append, hbar] at hwidth
  refine ⟨front, hfront.symm, by omega, ?_, ?_, ?_⟩
  · rw [← hfront, a.text, List.append_assoc, List.cons_append]
  · show p.start - 1 = Text.width front
    omega
  · show p.stop = Text.width (front ++ '|' :: p.node.text)
    rw [Text.width_append, hbar, Place.stop, Node.width_eq]
    omega

theorem mends_duplicateAlternative [Properties]
    (hparse : Regex.parse r.source r.flags = .ok r) (hp : p ∈ r.walk)
    {subsets : Bool} (h : DuplicateAlternative.finding? r subsets p = some finding)
    (hfix : finding.fix = some fix) : Mends r fix False := by
  obtain ⟨⟨n, hn, -⟩, hcapture, rfl⟩ := finding_duplicateAlternative hp h hfix
  obtain ⟨⟨a, ns, -, hpending, hrow, hbar⟩, i, hi⟩ := alternativeAt_of_earlier hparse hp hn
  have hrun := hbar i hi
  obtain ⟨front, hfront, -, hcuts⟩ := a.cuts_bar hrun.suffix
  refine ⟨front, '|' :: p.node.text, a.s'.rest, hcuts, fun hbare _ => ?_⟩
  have hfinishes := a.finishes hparse hbare
  rw [hpending] at hfinishes
  have hlabels := a.labels
  rw [labels_of_hasCapture (layered_of_mem hparse hp) hcapture, List.append_nil] at hlabels
  show ∃ r', Regex.parse (front ++ [] ++ a.s'.rest) r.flags = .ok r'
  rw [List.append_nil]
  exact parses_of_run hparse hbare hrun hfront (.of_atEnd _ _ hrow.atEnd) (by simp) hfinishes hlabels

/-! ## Quantifiers that are merged -/

theorem NestedQuantifier.replacement?_cases {n : Node} {text : List Char}
    (h : NestedQuantifier.replacement? n = some text) :
    ∃ outer inner bounds : Bounds, ∃ outerGreedy innerGreedy greedy : Bool, ∃ outerLexeme innerLexeme,
      ∃ e, n = .quantifier outer outerGreedy outerLexeme
          (.choice .plain [.alternative [.quantifier inner innerGreedy innerLexeme e]]) ∧
        inner.combine? outer = some bounds ∧ text = NestedQuantifier.merged bounds greedy e := by
  unfold NestedQuantifier.replacement? at h
  split at h
  · rename_i outer outerGreedy outerLexeme element
    obtain ⟨inner, hsole, h⟩ := Option.bind_eq_some_iff.1 h
    unfold NestedQuantifier.sole? at hsole
    split at hsole
    · cases hsole
      split at h
      · obtain ⟨bounds, hbounds, h⟩ := Option.bind_eq_some_iff.1 h
        cases h
        exact ⟨_, _, bounds, _, _, _, _, _, _, rfl, hbounds, rfl⟩
      · cases h
    · cases hsole
  · cases h

section
variable {setting : Setting} {depth : Nat} {s s' : Progress} {bounds : Bounds} {greedy : Bool}
  {lexeme : List Char} {e : Node} {ns : List Node}

/-- A quantifier is read after what it repeats. -/
theorem element_of_quantifier
    (h : termAt setting depth s = .ok (.quantifier bounds greedy lexeme e, s')) :
    ∃ s1, unquantified setting (disjunction setting depth) (Class.nested setting depth) s =
      .ok ((e, true), s1) ∧ s1.rest.head? ≠ some 'c' := by
  obtain ⟨element, repeats, s1, rest, hread, hends, -⟩ := term_iff.1 h
  cases hends with
  | repeatable _ | unrepeatable _ => exact absurd rfl ((unquantified_ne hread).2 _ _ _ _)
  | repeated hquantifier =>
    refine ⟨s1, hread, fun hhead => ?_⟩
    obtain ⟨tail, htail⟩ := List.head?_eq_some_iff.1 hhead
    have hnone : Unrepeated setting s1.rest := by
      rw [htail]
      exact .cons (by decide) tail
    rw [Lexeme.quantifier?_eq_none.2 ⟨rfl, hnone.quantifier, hnone.brace⟩] at hquantifier
    cases hquantifier

/-- The alternatives of a plain group are read one level below it. -/
theorem alternatives_of_plain {repeats : Bool} (h : unquantified setting (disjunction setting depth)
    (Class.nested setting depth) s = .ok ((choice .plain ns, repeats), s')) :
    ∃ d s1 s2, depth = d + 1 ∧ Bars (termAt setting d) s1 ns s2 := by
  obtain ⟨o, rest, s1, -, -, hencloses⟩ := encloses_of_choice h
  have hinside := hencloses.inside
  cases depth with
  | zero => cases hinside
  | succ d => exact ⟨d, _, _, rfl, disjunction_iff.1 hinside⟩

/-- A term that is all there is in some alternatives. -/
theorem term_of_bars {n : Node} (h : Bars (termAt setting depth) s [.alternative [n]] s') :
    ∃ s1, ¬ AtEnd s.rest ∧ termAt setting depth s = .ok (n, s1) := by
  cases h with
  | last hrow _ =>
    cases hrow with
    | step hend hfirst _ => exact ⟨_, hend, hfirst⟩
  | more _ _ hmore => cases hmore

/-- What is quantified twice is read one level below. -/
theorem element_of_nested {outer inner : Bounds} {outerGreedy innerGreedy : Bool}
    {outerLexeme innerLexeme : List Char} (h : termAt setting depth s = .ok (.quantifier outer
      outerGreedy outerLexeme (.choice .plain [.alternative [.quantifier inner innerGreedy innerLexeme
        e]]), s')) :
    ∃ d s1 s2, depth = d + 1 ∧ ¬ AtEnd s1.rest ∧
      unquantified setting (disjunction setting d) (Class.nested setting d) s1 =
        .ok ((e, true), s2) ∧ s2.rest.head? ≠ some 'c' := by
  obtain ⟨s3, helement, -⟩ := element_of_quantifier h
  obtain ⟨d, s1, s4, hdepth, hbars⟩ := alternatives_of_plain helement
  obtain ⟨s5, hend, hterm⟩ := term_of_bars hbars
  obtain ⟨s2, hinner, hhead⟩ := element_of_quantifier hterm
  exact ⟨d, s1, s2, hdepth, hend, hinner, hhead⟩

end

/-- Behind the element of a merged quantifier a run goes on through the quantifier, if there is one. -/
theorem finishes_merged {flags : Flags} {labels ms : List (Option (List Char))} {limit : Nat}
    {opened : List Bool} {back : List Char} {bounds : Bounds} {e : Node}
    (hmin : bounds.min ≤ Bounds.limit) (hmax : ∀ m, bounds.max = some m → m ≤ Bounds.limit)
    (greedy : Bool)
    (hseam : Seam flags.unicodeMode (NestedQuantifier.merged bounds greedy e) back)
    (h : Finishes flags labels limit ⟨opened, none, back⟩ ms) :
    ∃ quantifier, NestedQuantifier.merged bounds greedy e = e.text ++ quantifier ∧
      Finishes flags labels limit ⟨opened, some true, quantifier ++ back⟩ ms ∧
        Seam flags.unicodeMode e.text (quantifier ++ back) := by
  unfold NestedQuantifier.merged at hseam ⊢
  split
  · rename_i hone
    rw [if_pos hone] at hseam
    exact ⟨[], (List.append_nil _).symm, h.later true, hseam⟩
  · obtain ⟨c, tail, htail, hc⟩ := Bounds.exists_toText_cons bounds
    refine ⟨bounds.toText ++ if greedy then [] else ['?'], List.append_assoc .., ?_, ?_⟩
    · exact .step (.passing (.repeated (Lexeme.quantifier?_toText hmin hmax _ greedy
        h.unrepeated.head_ne))) h
    · refine .of_head _ _ fun d hd => ?_
      rw [htail] at hd
      cases hd
      simp only [List.mem_cons, List.not_mem_nil, or_false] at hc
      obtain rfl | rfl | rfl | rfl := hc <;> exact ⟨rfl, by decide, by decide⟩

theorem mends_nestedQuantifier (hparse : Regex.parse r.source r.flags = .ok r) (hp : p ∈ r.walk)
    (h : NestedQuantifier.finding? p = some finding) (hfix : finding.fix = some fix) :
    Mends r fix True := by
  obtain ⟨text, htext, rfl⟩ := Option.map_eq_some_iff.1 h
  cases hfix
  obtain ⟨outer, inner, bounds, outerGreedy, innerGreedy, greedy, outerLexeme, innerLexeme, e, hnode,
    hbounds, rfl⟩ := NestedQuantifier.replacement?_cases htext
  obtain ⟨hmin, hmax⟩ := Bounds.combine?_le hbounds
  obtain ⟨a, hpending, hread⟩ := (stands_settled hparse p hp).termAt hnode
  rw [hnode] at hread
  obtain ⟨depth, s1, s2, hdepth, hend, hinner, hhead⟩ := element_of_nested hread
  obtain ⟨front, hsource, hstart⟩ := a.source
  refine ⟨front, p.node.text, a.s'.rest, a.cuts hsource hstart _, fun hbare hseams => ?_⟩
  have hfinishes := a.finishes hparse hbare
  rw [hpending] at hfinishes
  obtain ⟨quantifier, hmerged, hafter, hseam⟩ :=
    finishes_merged hmin hmax greedy (hseams trivial).2.suffix hfinishes
  have hpart : p.node.HasPart e := by
    rw [hnode]
    have hmem {n : Node} : n ∈ [n] := List.mem_singleton_self n
    exact .child (.child (.child (.child .self hmem) hmem) hmem) hmem
  have hlabels : p.node.labels = e.labels := by
    rw [hnode, labels_of_only_child rfl rfl, labels_of_only_child rfl rfl, labels_of_only_child rfl rfl,
      labels_of_only_child rfl rfl]
  have hrun : Run (settingOf r.flags r.source) depth (Sound r.root.labels)
      ⟨[], none, s1.rest⟩ e.labels ⟨[], some true, s2.rest⟩ :=
    (run_unquantified (reads_run _ _ _) hinner hend (throughout_of_hasPart a.throughout hpart)).mono
      fun n hn => hn hbare
  rw [(sound_of_parse hparse hbare).1] at hrun
  have hlimit : depth + a.opened.length ≤ nestingLimit - 1 := by
    have hdepth : nestingLimit - 1 - a.opened.length = depth + 1 := hdepth
    omega
  have hwhole : Finishes r.flags r.root.labels (nestingLimit - 1)
      ⟨[] ++ a.opened, none, e.text ++ (quantifier ++ a.s'.rest)⟩ (e.labels ++ a.after) :=
    hrun.joined (.refl _) hlimit (unquantified_source hinner) hseam hhead hafter
  have hfront : Seam r.flags.unicodeMode front (e.text ++ (quantifier ++ a.s'.rest)) := by
    rw [← List.append_assoc, ← hmerged]
    exact (hseams trivial).1
  have hfirst : a.s.rest.head? ≠ some 'c' := by
    rw [a.text, hnode]
    simp [Node.text, Frame.opening]
  have hall : a.before ++ (e.labels ++ a.after) = r.root.labels := by
    rw [← List.append_assoc, ← hlabels]
    exact a.labels
  show ∃ r', Regex.parse (front ++ NestedQuantifier.merged _ _ e ++ a.s'.rest) r.flags = .ok r'
  rw [hmerged, List.append_assoc, List.append_assoc]
  exact parses_of_run hparse hbare a.arrives.run hsource hfront hfirst hwhole hall

/-! ## Captures that are made plain -/

theorem finding_unusedCapture {uses : CaptureUses} {last : Nat}
    (h : UnusedCapture.finding? r uses last p = some finding) (hfix : finding.fix = some fix) :
    ∃ name ns, p.node = .choice (.capture last name) ns ∧ last ∉ UnusedCapture.referenced r ∧
      fix = UnusedCapture.plain p := by
  unfold UnusedCapture.finding? at h
  split at h
  · rename_i index name ns hnode
    split at h
    · cases h
    · rename_i hunused
      cases h
      simp only [Finding.about] at hfix
      split at hfix
      · rename_i hlast
        cases hfix
        subst hlast
        refine ⟨name, ns, hnode, fun hmem => hunused ?_, rfl⟩
        simp [hmem]
      · cases hfix
  · cases h

theorem eq_of_nodup_names {α β : Type} {xs : List (α × Option β)} {i j : α} {name : β}
    (h : (xs.filterMap Prod.snd).Nodup) (hi : (i, some name) ∈ xs) (hj : (j, some name) ∈ xs) :
    i = j := by
  have hmem {k : α} {ys : List (α × Option β)} (hk : (k, some name) ∈ ys) :
      name ∈ ys.filterMap Prod.snd := List.mem_filterMap.2 ⟨_, hk, rfl⟩
  induction xs with
  | nil => cases hi
  | cons x xs ih =>
    obtain ⟨k, label⟩ := x
    rw [List.mem_cons] at hi hj
    obtain hi | hi := hi
    · cases hi
      obtain hj | hj := hj
      · cases hj
        rfl
      · exact absurd (hmem hj) (List.nodup_cons.1 h).1
    · obtain hj | hj := hj
      · cases hj
        exact absurd (hmem hi) (List.nodup_cons.1 h).1
      · cases label with
        | none => exact ih h hi hj
        | some _ => exact ih (List.nodup_cons.1 h).2 hi hj

/-- References do not lead to a group that is not among those they lead to. -/
theorem not_reference (hparse : Regex.parse r.source r.flags = .ok r)
    (hbare : ∀ p ∈ r.walk, p.node.holdsBracket = false) {index : Nat} {name : Option (List Char)}
    {ns : List Node} (hgroup : r.root.HasPart (.choice (.capture index name) ns))
    (hunused : index ∉ UnusedCapture.referenced r) {ref : GroupRef}
    (href : r.root.HasPart (.backreference ref)) :
    Frame.isNamedBy (.capture index name) ref = false := by
  refine Bool.eq_false_iff.2 fun hnamed => hunused ?_
  obtain ⟨q, hq, hnode⟩ := mem_walk_of_hasPart href
  obtain ⟨g, hg⟩ := (Regex.parse_numbered hparse).2.2 hbare q hq ref hnode
  obtain ⟨i, label, ms, hgnode, hglabel⟩ := isNamedBy_iff.1 hg.named
  have hi : i = index := by
    cases ref with
    | index k => exact (eq_of_beq hglabel).trans (eq_of_beq hnamed).symm
    | name s =>
      have hdistinct := nodup_labels hparse
      rw [labels, List.filterMap_map] at hdistinct
      rw [eq_of_beq hglabel] at hgnode
      rw [eq_of_beq hnamed] at hgroup
      have hgpart := hasPart_of_mem_walk (List.mem_of_mem_filter hg.group)
      rw [hgnode] at hgpart
      exact eq_of_nodup_names hdistinct (mem_captures.2 ⟨_, hgpart⟩) (mem_captures.2 ⟨_, hgroup⟩)
  have hresolve : r.resolve? ref = some index := by
    rw [Regex.resolve?, hg.found, hgnode, hi]
  refine List.mem_filterMap.2 ⟨q, hq, ?_⟩
  rw [hnode]
  exact hresolve

/-- What is known of the nodes of a pattern without bare brackets if no reference leads to the last
group, which has the label `name`. -/
def Spares (r : Regex) (name : Option (List Char)) (n : Node) : Prop :=
  (∀ p ∈ r.walk, p.node.holdsBracket = false) → Sound r.root.labels n ∧
    n ≠ .backreference (.index r.root.labels.length) ∧
      ∀ s, n = .backreference (.name s) → some s ≠ name

/-- Without a group that nothing refers to, the references are still to groups that there are. -/
theorem Spares.sound {name : Option (List Char)} {n : Node} {before after : List (Option (List Char))}
    (h : Spares r name n) (hbare : ∀ p ∈ r.walk, p.node.holdsBracket = false)
    (hlabels : r.root.labels = before ++ name :: after) : Sound (before ++ after) n := by
  obtain ⟨hsound, hindex, hname⟩ := h hbare
  refine ⟨fun k hk => ?_, fun s hs => ?_, hsound.unbracketed⟩
  · have hle := hsound.index k hk
    have hne : k ≠ r.root.labels.length := by
      rintro rfl
      exact hindex hk
    rw [hlabels, List.length_append, List.length_cons] at hle hne
    rw [List.length_append]
    omega
  · have hmem := hsound.name s hs
    rw [hlabels, List.mem_append, List.mem_cons] at hmem
    exact List.mem_append.2 (hmem.imp_right fun h => h.resolve_left (hname s hs))

/-- A capturing group is read between its opening and a closing parenthesis. -/
theorem encloses_of_capture {setting : Setting} {depth index : Nat} {name : Option (List Char)}
    {ns : List Node} {repeats : Bool} {s s' : Progress}
    (h : unquantified setting (disjunction setting depth) (Class.nested setting depth) s =
      .ok ((choice (.capture index name) ns, repeats), s')) :
    choice (.capture index name) ns = (Opening.capture name).node s.groups ns ∧ repeats = true ∧
      ∃ rest s1, Encloses (disjunction setting depth) s s' (.capture name) rest ns s1 := by
  obtain ⟨o, rest, s1, hnode, hrepeats, hencloses⟩ := encloses_of_choice h
  cases o with
  | plain => cases hnode
  | look _ _ => cases hnode
  | capture label =>
    obtain ⟨-, rfl⟩ := Frame.capture.inj (Node.choice.inj hnode).1
    exact ⟨hnode, hrepeats, rest, s1, hencloses⟩

/-- No reference that leads elsewhere is to the last group. -/
theorem throughout_spares (hparse : Regex.parse r.source r.flags = .ok r) {name : Option (List Char)}
    {ns : List Node} (hgroup : r.root.HasPart (.choice (.capture r.groups.length name) ns))
    (hunused : r.groups.length ∉ UnusedCapture.referenced r) :
    r.root.Throughout (Spares r name) := by
  intro n hn hbare
  refine ⟨(sound_of_parse hparse hbare).2 n hn, ?_, ?_⟩
  · rintro rfl
    have hnot := not_reference hparse hbare hgroup hunused hn
    simp [Frame.isNamedBy, length_labels] at hnot
  · rintro s rfl rfl
    have hnot := not_reference hparse hbare hgroup hunused hn
    simp [Frame.isNamedBy] at hnot

/-- Behind an opening of a plain group a run goes on as behind that of a capturing one. -/
theorem finishes_plain {flags : Flags} {labels labels' ms : List (Option (List Char))} {limit : Nat}
    {opened : List Bool} {rest : List Char}
    (hwithin : (settingFor flags labels').Within (settingFor flags labels))
    (hopened : opened.length < limit) (h : Run (settingFor flags labels) limit (Sound labels')
      ⟨true :: opened, none, rest⟩ ms .finished) :
    Finishes flags labels' limit ⟨opened, none, Opening.text .plain ++ rest⟩ ms := by
  have hseam : Seam (settingFor flags labels).strict rest [] := .of_head _ _ nofun
  have hend : Finishes flags labels' limit ⟨State.finished.opened ++ [], none, []⟩ [] := .refl _
  have hjoined := h.joined hwithin (Nat.le_refl limit) (List.append_nil rest).symm hseam nofun hend
  rw [List.append_nil, List.append_nil, List.append_nil] at hjoined
  exact .step (.opening (o := .plain) trivial hopened) hjoined

theorem mends_unusedCapture (hparse : Regex.parse r.source r.flags = .ok r) (hp : p ∈ r.walk)
    {uses : CaptureUses} (h : UnusedCapture.finding? r uses r.groups.length p = some finding)
    (hfix : finding.fix = some fix) : Mends r fix False := by
  obtain ⟨name, ns, hnode, hunused, rfl⟩ := finding_unusedCapture h hfix
  have hgroup := hasPart_of_mem_walk hp
  rw [hnode] at hgroup
  have hspares := throughout_spares hparse hgroup hunused
  obtain ⟨a, repeats, hpending, hread⟩ :=
    (Route.stands_of_parse hparse hspares p hp).elementAt hnode
  rw [hnode] at hread
  obtain ⟨hopens, rfl, rest, s1, hencloses⟩ := encloses_of_capture hread
  rw [hopens] at hnode
  have hrepeats : a.pending = some ((Opening.capture name).repeats (settingOf r.flags r.source)) :=
    hpending
  obtain ⟨hopened, hbars, hleaves⟩ := a.enters hrepeats hencloses
  obtain ⟨front, hsource, hstart⟩ := a.source
  refine ⟨front, Opening.text (.capture name), rest, ⟨?_, hstart.symm, ?_⟩, fun hbare _ => ?_⟩
  · rw [List.append_assoc, ← hencloses.opens]
    exact hsource
  · show p.start + Text.width p.node.opening = _
    rw [Text.width_append, hstart, hnode, Opening.opening_node]
  · have hns : ∀ n ∈ ns, n.Throughout (Spares r name) := by
      have hthroughout := (throughout_iff.1 a.throughout).2
      rwa [hnode, Opening.children_node] at hthroughout
    have hinner := (Route.run_surrounded (run_bars (reads_run _ _ _) hbars hns) hopened).trans hleaves
    rw [Opening.rest_enter] at hinner
    generalize hlater : ns.flatMap Node.labels ++ a.after = later at hinner
    have hlabels : r.root.labels = a.before ++ name :: later := by
      have hlabels : a.before ++ p.node.labels ++ a.after = r.root.labels := a.labels
      rw [← hlabels, hnode, Opening.labels_node, ← hlater]
      simp [Opening.label]
    have hspared (n : Node) (hn : Spares r name n) : Sound (a.before ++ later) n :=
      hn.sound hbare hlabels
    have hsublist : (a.before ++ later).Sublist r.root.labels := by
      rw [hlabels]
      exact (List.sublist_cons_self name later).append_left a.before
    have hsetting := (sound_of_parse hparse hbare).1
    have hfront : Pattern.Run (settingOf r.flags r.source) (nestingLimit - 1)
        (Sound (a.before ++ later)) ⟨[], none, r.source⟩ a.before ⟨a.opened, none, a.s.rest⟩ :=
      a.arrives.run.mono hspared
    have hinner' : Pattern.Run (settingOf r.flags r.source) (nestingLimit - 1)
        (Sound (a.before ++ later)) ⟨true :: a.opened, none, rest⟩ later .finished :=
      hinner.mono hspared
    rw [hsetting] at hinner' hfront
    rw [show r.source = front ++ a.s.rest from hsource] at hfront
    have hseam : Seam r.flags.unicodeMode front (Opening.text .plain ++ rest) :=
      .of_head _ _ fun c hc => by
        cases hc
        exact ⟨rfl, by decide, by decide⟩
    have hhead : a.s.rest.head? ≠ some 'c' := by
      obtain ⟨tail, htail⟩ := (Opening.capture name).exists_text_cons
      rw [hencloses.opens, htail]
      simp
    have hdistinct := (nodup_labels hparse).sublist (hsublist.filterMap id)
    show ∃ r', Regex.parse (front ++ Opening.text .plain ++ rest) r.flags = .ok r'
    rw [List.append_assoc]
    exact parses_of_joined (within_of_sublist hsublist) rfl hfront hseam hhead
      (finishes_plain (within_of_sublist hsublist) hopened hinner') rfl hdistinct

/-! ## All rules -/

variable [Properties]

theorem mem_lint {rules : List Rule} {subject : Subject} {d : Diagnostic}
    (h : d ∈ lint rules subject) : d.finding ∈ d.rule.check subject := by
  obtain ⟨rule, -, hd⟩ := List.mem_flatMap.1 (mem_sortBy.1 h)
  obtain ⟨finding, hfinding, rfl⟩ := List.mem_map.1 hd
  exact hfinding

/-- Four rules offer fixes, each for a place. -/
theorem finding_of_mem_check {rule : Rule} {captures : Option CaptureUses}
    (h : finding ∈ rule.check ⟨r, captures⟩) (hfix : finding.fix = some fix) : ∃ p ∈ r.walk,
      (∃ subsets, rule = .duplicateAlternative subsets ∧
        DuplicateAlternative.finding? r subsets p = some finding) ∨
      (rule = .nestedQuantifier ∧ NestedQuantifier.finding? p = some finding) ∨
      (∃ uses, rule = .unusedCapture ∧
        UnusedCapture.finding? r uses r.groups.length p = some finding) ∨
      (rule = .uselessAssertion ∧ UselessAssertion.finding? r p = some finding) := by
  cases rule with
  | duplicateAlternative subsets =>
    obtain ⟨p, hp, hfinding⟩ := List.mem_filterMap.1 h
    exact ⟨p, hp, .inl ⟨subsets, rfl, hfinding⟩⟩
  | emptyClass =>
    obtain ⟨p, -, rfl⟩ := List.mem_map.1 h
    cases hfix
  | nestedQuantifier =>
    obtain ⟨p, hp, hfinding⟩ := List.mem_filterMap.1 h
    exact ⟨p, hp, .inr (.inl ⟨rfl, hfinding⟩)⟩
  | unusedCapture =>
    cases captures with
    | none => cases h
    | some uses =>
      replace h : finding ∈ UnusedCapture.check ⟨r, some uses⟩ := h
      unfold UnusedCapture.check at h
      simp only at h
      split at h
      · cases h
      · obtain ⟨p, hp, hfinding⟩ := List.mem_filterMap.1 h
        exact ⟨p, List.mem_of_mem_filter hp, .inr (.inr (.inl ⟨uses, rfl, hfinding⟩))⟩
  | uselessAssertion =>
    obtain ⟨p, hp, hfinding⟩ := List.mem_filterMap.1 h
    exact ⟨p, hp, .inr (.inr (.inr ⟨rfl, hfinding⟩))⟩
  | uselessReference =>
    obtain ⟨p, -, hfinding⟩ := List.mem_filterMap.1 h
    unfold UselessReference.finding? at hfinding
    split at hfinding
    · rename_i ref _
      obtain ⟨group, -, hfinding⟩ := Option.bind_eq_some_iff.1 hfinding
      obtain ⟨-, hfinding⟩ := Option.ite_none_right_eq_some.1 hfinding
      cases hfinding
      cases hfix
    · cases hfinding

theorem mends_of_mem_check (hparse : Regex.parse r.source r.flags = .ok r) {rule : Rule}
    {captures : Option CaptureUses} (h : finding ∈ rule.check ⟨r, captures⟩)
    (hfix : finding.fix = some fix) : Mends r fix rule.Joins := by
  obtain ⟨p, hp, ⟨subsets, rfl, hfinding⟩ | ⟨rfl, hfinding⟩ | ⟨uses, rfl, hfinding⟩ |
    ⟨rfl, hfinding⟩⟩ := finding_of_mem_check h hfix
  · exact (mends_duplicateAlternative hparse hp hfinding hfix).imp False.elim
  · exact (mends_nestedQuantifier hparse hp hfinding hfix).imp fun _ => .inr rfl
  · exact (mends_unusedCapture hparse hp hfinding hfix).imp False.elim
  · exact (mends_uselessAssertion hparse hp hfinding hfix).imp fun _ => .inl rfl

end

end Pattern

/-! ## The linter -/

open Pattern

/-- A fix that the linter offers can be applied, and what comes of it is a pattern under the same
flags: if no string of a class holds a bare bracket, and where the texts around what is taken out come
together, if they do not join. -/
theorem Regex.parse_fixed [Properties] {source : List Char} {flags : Flags} {r : Regex}
    (h : Regex.parse source flags = .ok r) {rules : List Rule} {captures : Option CaptureUses}
    {d : Diagnostic} (hd : d ∈ lint rules ⟨r, captures⟩) {fix : Fix} (hfix : d.finding.fix = some fix) :
    ∃ front text back, fix.Cuts source front text back ∧
      fix.result? source = some (front ++ fix.text ++ back) ∧
        ((∀ p ∈ r.walk, p.node.holdsBracket = false) →
          (d.rule.Joins → Seam flags.unicodeMode front (fix.text ++ back) ∧
            Seam flags.unicodeMode (front ++ fix.text) back) →
          ∃ r', Regex.parse (front ++ fix.text ++ back) flags = .ok r') := by
  obtain ⟨rfl, rfl, -⟩ := Regex.parse_source h
  obtain ⟨front, text, back, hcuts, hmends⟩ := mends_of_mem_check h (mem_lint hd) hfix
  exact ⟨front, text, back, hcuts, hcuts.result?, hmends⟩

/-- In `\0(?:a+)*1` the quantifiers are merged, and `\0a*1` is a pattern. -/
theorem parse_fixed_merged :
    let source := ['\\', '0', '(', '?', ':', 'a', '+', ')', '*', '1']
    let flags : Flags := { unicode := true }
    let r : Regex := ⟨source, flags, choice .whole [alternative [
      character ⟨0, ['\\', '0']⟩,
      quantifier ⟨0, none, nofun⟩ true ['*'] (choice .plain [alternative [
        quantifier ⟨1, none, nofun⟩ true ['+'] (character ⟨97, ['a']⟩)]]),
      character ⟨49, ['1']⟩]]⟩
    Regex.parse source flags = .ok r ∧
      (∃ d ∈ lint [.nestedQuantifier] ⟨r, none⟩, d.finding.fix = some ⟨2, 9, ['a', '*']⟩) ∧
        ∃ r', Regex.parse ['\\', '0', 'a', '*', '1'] flags = .ok r' := by
  intro source flags r
  have hparse : Regex.parse source flags = .ok r := rfl
  obtain ⟨d, hd, hfix⟩ :
      ∃ d ∈ lint [.nestedQuantifier] ⟨r, none⟩, d.finding.fix = some ⟨2, 9, ['a', '*']⟩ :=
    ⟨_, List.mem_of_getElem? (i := 0) rfl, rfl⟩
  refine ⟨hparse, ⟨d, hd, hfix⟩, ?_⟩
  obtain ⟨front, text, back, hcuts, -, hmends⟩ := Regex.parse_fixed hparse hd hfix
  have hcuts' : Fix.Cuts ⟨2, 9, ['a', '*']⟩ source ['\\', '0']
      ['(', '?', ':', 'a', '+', ')', '*'] ['1'] := ⟨rfl, rfl, rfl⟩
  obtain ⟨rfl, rfl, rfl⟩ := hcuts.unique hcuts'
  refine hmends (by decide) fun _ => ⟨.of_head _ _ ?_, ?_, nofun⟩
  · rintro c ⟨⟩
    decide
  · intro _ before digits htext hne hdigits
    obtain rfl | ⟨digits, c, rfl⟩ := List.eq_nil_or_concat digits
    · exact absurd rfl hne
    · have hstar : ['\\', '0', 'a'] ++ ['*'] = before ++ '\\' :: digits ++ [c] := by
        simpa using htext
      cases List.append_inj_right' hstar rfl
      exact absurd (hdigits '*' (by simp)) (by decide)

/-- In `\0\b1` the assertion can be taken out, but what is around it joins: with `u` the rest is no
pattern. -/
theorem fixed_not_parsed :
    let flags : Flags := { unicode := true }
    let r : Regex := ⟨['\\', '0', '\\', 'b', '1'], flags, choice .whole [alternative [
      character ⟨0, ['\\', '0']⟩, edge (.word false), character ⟨49, ['1']⟩]]⟩
    Regex.parse r.source flags = .ok r ∧
      (lint [.uselessAssertion] ⟨r, none⟩).map (fun d => d.finding.fix) = [some (.removal 2 4)] ∧
        Fix.result? (.removal 2 4) r.source = some ['\\', '0', '1'] ∧
          ∃ e, Regex.parse ['\\', '0', '1'] flags = .error e :=
  ⟨rfl, rfl, rfl, _, rfl⟩

/-- In the course of repairs every fix can be applied. -/
theorem misfit_not_mem_repair [Properties] {source : List Char} {flags : Flags} {r : Regex}
    (h : Regex.parse source flags = .ok r) (rules : List Rule) (captures : Option CaptureUses)
    (rounds : Nat) : Repair.misfit ∉ repair rules captures rounds r := by
  induction rounds generalizing source r with
  | zero => exact List.not_mem_nil
  | succ rounds ih =>
    obtain ⟨rfl, rfl, -⟩ := Regex.parse_source h
    rw [repair]
    split
    · simp
    · rename_i d fix hfirst
      obtain ⟨d', hd, hpair⟩ := List.exists_of_findSome?_eq_some hfirst
      obtain ⟨fix', hfix, hpair⟩ := Option.map_eq_some_iff.1 hpair
      cases hpair
      obtain ⟨front, text, back, hcuts, -⟩ := mends_of_mem_check h (mem_lint hd) hfix
      rw [hcuts.result?]
      simp only [List.mem_cons, reduceCtorEq, false_or]
      split
      · rename_i next hnext
        exact ih hnext
      · simp

end RegexAudit
