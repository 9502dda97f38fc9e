import RegexAudit.Proofs.Runs

/-!
# Places along a run

A run along a source passes the text of every place outside of classes:

    source = front ++ p.node.text ++ back    with  Text.width front = p.start
    Run ⟨[], none, source⟩ ⟨opened, none, p.node.text ++ back⟩
    Run ⟨opened, pending, back⟩ finished

`Passage` holds these runs and what was read in between. Alternatives are read as rows of terms, terms
with their quantifiers, and what a quantifier repeats without it.
-/

namespace RegexAudit

open Node

namespace Pattern

/-! ## The texts that are read -/

section
variable {setting : Setting} {depth : Nat} {n : Node} {s s' : Progress}

/-- A group is read between an opening and a closing parenthesis. -/
theorem encloses_of_choice {frame : Frame} {ns : List Node} {repeats : Bool}
    (h : unquantified setting (disjunction setting depth) (Class.nested setting depth) s =
      .ok ((choice frame ns, repeats), s')) :
    ∃ o rest s1, choice frame ns = o.node s.groups ns ∧ repeats = o.repeats setting ∧
      Encloses (disjunction setting depth) s s' o rest ns s1 := by
  obtain ⟨rest, hleaf, -⟩ | ⟨o, rest, ms, s1, hencloses, hnode, hrepeats⟩ := unquantified_iff.1 h
  · obtain ⟨_, hn⟩ | ⟨_, hn⟩ | ⟨-, hclass⟩ := hleaf.shape
    · cases hn
    · cases hn
    · cases (classPart_iff.1 hclass).1
  · obtain rfl : ms = ns := by
      rw [← o.children_node s.groups ms, ← hnode]
      rfl
    exact ⟨o, rest, s1, hnode, hrepeats, hencloses⟩

end

/-! ## Passing a place -/

/-- A source, how it is read, and the groups in it. -/
structure Route where
  setting : Setting
  limit : Nat
  q : Node → Prop
  source : List Char
  labels : List (Option (List Char))

namespace Route

/-- A run within the source. -/
abbrev Run (x : Route) : State → List (Option (List Char)) → State → Prop :=
  Pattern.Run x.setting x.limit x.q

/-- The terms in some groups. -/
abbrev term (x : Route) (opened : List Bool) : NodeReader :=
  termAt x.setting (x.limit - opened.length)

/-- What is in some groups, without its quantifier. -/
abbrev element (x : Route) (opened : List Bool) (s : Progress) :
    Except Fault ((Node × Bool) × Progress) :=
  unquantified x.setting (disjunction x.setting (x.limit - opened.length))
    (Class.nested x.setting (x.limit - opened.length)) s

variable {x : Route} {opened : List Bool} {start : Nat} {before after ls : List (Option (List Char))}
  {rest rest' : List Char} {s s' : Progress} {n : Node} {ns : List Node}

theorem run_surrounded {pending : Option Bool}
    (h : Pattern.Run x.setting (x.limit - opened.length) x.q ⟨[], none, rest⟩ ls ⟨[], pending, rest'⟩)
    (hdepth : opened.length ≤ x.limit) : x.Run ⟨opened, none, rest⟩ ls ⟨opened, pending, rest'⟩ := by
  have hrun := h.surrounded opened
  rwa [Nat.sub_add_cancel hdepth] at hrun

/-- A run comes to a byte offset. -/
structure Arrives (x : Route) (start : Nat) (opened : List Bool) (rest : List Char)
    (before : List (Option (List Char))) : Prop where
  start : Text.width x.source = start + Text.width rest
  depth : opened.length ≤ x.limit
  run : x.Run ⟨[], none, x.source⟩ before ⟨opened, none, rest⟩

theorem Arrives.forward {w : List Char} (h : x.Arrives start opened rest before)
    (hrun : x.Run ⟨opened, none, rest⟩ ls ⟨opened, none, rest'⟩) (htext : rest = w ++ rest') :
    x.Arrives (start + Text.width w) opened rest' (before ++ ls) where
  start := by
    rw [h.start, htext, Text.width_append, Nat.add_assoc]
  depth := h.depth
  run := h.run.trans hrun

/-- A run comes to the text of a place, and goes on from the end of the text. -/
structure Passage (x : Route) (p : Place) where
  opened : List Bool
  before : List (Option (List Char))
  after : List (Option (List Char))
  pending : Option Bool
  s : Progress
  s' : Progress
  arrives : x.Arrives p.start opened s.rest before
  leaves : x.Run ⟨opened, pending, s'.rest⟩ after .finished
  text : s.rest = p.node.text ++ s'.rest
  labels : before ++ p.node.labels ++ after = x.labels
  throughout : p.node.Throughout x.q

/-- The place is read as a term. -/
def TermAt (x : Route) (p : Place) : Prop :=
  ∃ a : x.Passage p, a.pending = none ∧ x.term a.opened a.s = .ok (p.node, a.s')

/-- The place is read as what a quantifier may follow. -/
def ElementAt (x : Route) (p : Place) : Prop :=
  ∃ a : x.Passage p, ∃ repeats, a.pending = some repeats ∧
    x.element a.opened a.s = .ok ((p.node, repeats), a.s')

/-- The place is read as an alternative. If it is not the first one, there is a bar before it. -/
def AlternativeAt (x : Route) (p : Place) : Prop :=
  ∃ a : x.Passage p, ∃ ns, p.node = .alternative ns ∧ a.pending = none ∧
    Row (x.term a.opened) a.s ns a.s' ∧
      ∀ i, p.trail.head?.map Step.slot = some (i + 1) →
        x.Run ⟨[], none, x.source⟩ a.before ⟨a.opened, none, '|' :: a.s.rest⟩

/-- Alternatives are read below the place. -/
def HoldsAlternatives (x : Route) (p : Place) : Prop :=
  ∃ opened s s' before after,
    x.Arrives (p.start + Text.width p.node.opening) opened s.rest before ∧
      x.Run ⟨opened, none, s'.rest⟩ after .finished ∧
        Bars (x.term opened) s p.node.children s' ∧
          before ++ p.node.children.flatMap Node.labels ++ after = x.labels ∧
            p.node.separator = ['|'] ∧ p.node.Throughout x.q

/-! ### Rows -/

section
variable {trail : Nat → List RegexAudit.Step} {slot position : Nat}

theorem termAt_of_row (h : Row (x.term opened) s ns s')
    (harrives : x.Arrives start opened s.rest before)
    (hleaves : x.Run ⟨opened, none, s'.rest⟩ after .finished)
    (hlabels : before ++ ns.flatMap Node.labels ++ after = x.labels)
    (hns : ∀ n ∈ ns, Throughout x.q n) :
    ∀ c ∈ Place.inRow trail 0 slot position start ns, x.TermAt c := by
  induction h generalizing slot position start before with
  | stop _ => simp [Place.inRow]
  | step hend hfirst hrow ih =>
    rename_i s s1 s' n ns
    rw [List.forall_mem_cons] at hns
    have hrun := run_surrounded (run_term (reads_run _ _ _) hfirst hend hns.1) harrives.depth
    have hrest := run_surrounded (run_row (reads_run _ _ _) hrow hns.2) harrives.depth
    have hsource := termAt_source hfirst
    rw [List.flatMap_cons] at hlabels
    intro c hc
    rw [Place.inRow, List.mem_cons] at hc
    obtain rfl | hc := hc
    · refine ⟨⟨opened, before, ns.flatMap Node.labels ++ after, none, s, s1, harrives,
        hrest.trans hleaves, hsource, ?_, hns.1⟩, rfl, hfirst⟩
      rw [← hlabels]
      simp
    · have harrives' := harrives.forward hrun hsource
      rw [← Node.width_eq, ← Nat.add_zero (start + _)] at harrives'
      refine ih harrives' hleaves ?_ hns.2 c hc
      rw [← hlabels]
      simp

theorem alternativeAt_of_row (h : Row (x.term opened) s ns s')
    (harrives : x.Arrives start opened s.rest before)
    (hbar : ∀ i, slot = i + 1 → x.Run ⟨[], none, x.source⟩ before ⟨opened, none, '|' :: s.rest⟩)
    (hleaves : x.Run ⟨opened, none, s'.rest⟩ after .finished)
    (hlabels : before ++ ns.flatMap Node.labels ++ after = x.labels)
    (hns : (Node.alternative ns).Throughout x.q)
    (htrail : (trail slot).head?.map Step.slot = some slot) :
    x.AlternativeAt ⟨.alternative ns, position, start, trail slot⟩ := by
  refine ⟨⟨opened, before, after, none, s, s', harrives, hleaves, h.source, ?_, hns⟩, ns, rfl, rfl, h,
    fun i hi => hbar i (Option.some.inj (htrail.symm.trans hi))⟩
  rw [labels_eq rfl]
  exact hlabels

theorem alternativeAt_of_bars (h : Bars (x.term opened) s ns s')
    (harrives : x.Arrives start opened s.rest before)
    (hbar : ∀ i, slot = i + 1 → x.Run ⟨[], none, x.source⟩ before ⟨opened, none, '|' :: s.rest⟩)
    (hleaves : x.Run ⟨opened, none, s'.rest⟩ after .finished)
    (hlabels : before ++ ns.flatMap Node.labels ++ after = x.labels)
    (hns : ∀ n ∈ ns, Throughout x.q n) (htrail : ∀ i, (trail i).head?.map Step.slot = some i) :
    ∀ c ∈ Place.inRow trail 1 slot position start ns, x.AlternativeAt c := by
  have hfirst (ns : List Node) : (Node.alternative ns).labels = ns.flatMap Node.labels :=
    labels_eq rfl
  induction h generalizing slot position start before with
  | last hrow _ =>
    rw [List.forall_mem_singleton] at hns
    rw [List.flatMap_cons, List.flatMap_nil, List.append_nil, hfirst] at hlabels
    intro c hc
    obtain rfl := List.mem_singleton.1 hc
    exact alternativeAt_of_row hrow harrives hbar hleaves hlabels hns (htrail slot)
  | more hrow hrest hmore ih =>
    rename_i s s1 s' ns ms r
    rw [List.forall_mem_cons] at hns
    rw [List.flatMap_cons, hfirst] at hlabels
    have hrun := run_surrounded (run_row (reads_run _ _ _) hrow (throughout_iff.1 hns.1).2) harrives.depth
    have hnext := run_surrounded (run_bars (reads_run _ _ _) hmore hns.2) harrives.depth
    rw [hrest] at hrun
    have hsource := hrow.source
    rw [hrest] at hsource
    have harrives' : x.Arrives (start + (Node.alternative ns).width) opened ('|' :: r)
        (before ++ ns.flatMap Node.labels) := by
      rw [Node.width_eq]
      exact harrives.forward hrun hsource
    intro c hc
    rw [Place.inRow, List.mem_cons] at hc
    obtain rfl | hc := hc
    · have hleaves' : x.Run ⟨opened, none, s1.rest⟩ (ms.flatMap Node.labels ++ after) .finished := by
        rw [hrest]
        exact (Run.single .bar).trans (hnext.trans hleaves)
      refine alternativeAt_of_row hrow harrives hbar hleaves' ?_ hns.1 (htrail slot)
      rw [← hlabels]
      simp
    · have hnext' := harrives'.forward (w := ['|']) (.single .bar) rfl
      rw [List.append_nil] at hnext'
      refine ih hnext' (fun _ _ => harrives'.run) hleaves ?_ hns.2 c hc
      rw [← hlabels]
      simp

end

/-! ### From places to their children -/

variable {p : Place}

theorem AlternativeAt.children (h : x.AlternativeAt p) : ∀ c ∈ p.children, x.TermAt c := by
  obtain ⟨a, ns, hnode, hpending, hrow, -⟩ := h
  have hleaves := a.leaves
  have hlabels := a.labels
  have hthroughout := (throughout_iff.1 a.throughout).2
  rw [hpending] at hleaves
  rw [hnode, labels_eq rfl] at hlabels
  rw [hnode] at hthroughout
  rw [Place.children, hnode]
  exact termAt_of_row hrow a.arrives hleaves hlabels hthroughout

/-- A term that is no quantifier has none behind it. -/
theorem TermAt.elementAt (h : x.TermAt p)
    (hnode : ∀ bounds greedy lexeme element, p.node ≠ .quantifier bounds greedy lexeme element) :
    x.ElementAt p := by
  obtain ⟨a, hpending, hread⟩ := h
  obtain ⟨n, repeats, s1, rest, helement, hends, hs'⟩ := term_iff.1 hread
  have hleaves := a.leaves
  rw [hpending, hs'] at hleaves
  have hpasses : x.Run ⟨a.opened, some repeats, s1.rest⟩ a.after .finished :=
    .step (.passing hends.passes) hleaves
  generalize hn : p.node = m at hends
  cases hends with
  | repeatable _ | unrepeatable _ =>
    subst hn
    have htext := unquantified_source helement
    exact ⟨⟨a.opened, a.before, a.after, some _, a.s, s1, a.arrives, hpasses, htext, a.labels,
      a.throughout⟩, _, rfl, helement⟩
  | repeated _ => exact absurd hn (hnode _ _ _ _)

theorem TermAt.children_quantifier {bounds : Bounds} {greedy : Bool} {lexeme : List Char}
    (h : x.TermAt p) (hnode : p.node = .quantifier bounds greedy lexeme n) :
    ∀ c ∈ p.children, x.ElementAt c := by
  obtain ⟨a, hpending, hread⟩ := h
  obtain ⟨m, repeats, s1, rest, helement, hends, hs'⟩ := term_iff.1 hread
  have hleaves := a.leaves
  rw [hpending, hs'] at hleaves
  have hpasses : x.Run ⟨a.opened, some repeats, s1.rest⟩ a.after .finished :=
    .step (.passing hends.passes) hleaves
  have hlabels := a.labels
  have hthroughout := (throughout_iff.1 a.throughout).2 n
  rw [hnode, labels_eq rfl] at hlabels
  rw [hnode] at hends hthroughout
  cases hends with
  | repeatable _ | unrepeatable _ => exact absurd rfl ((unquantified_ne helement).2 _ _ _ _)
  | repeated _ =>
    intro c hc
    rw [Place.children, hnode] at hc
    obtain rfl := List.mem_singleton.1 hc
    have htext := unquantified_source helement
    exact ⟨⟨a.opened, a.before, a.after, some _, a.s, s1, a.arrives, hpasses, htext,
      by simpa [Node.children] using hlabels, hthroughout (List.mem_singleton_self _)⟩, _, rfl,
      helement⟩

theorem HoldsAlternatives.children (h : x.HoldsAlternatives p) :
    ∀ c ∈ p.children, x.AlternativeAt c := by
  obtain ⟨opened, s, s', before, after, harrives, hleaves, hbars, hlabels, hseparator, hq⟩ := h
  rw [Place.children, hseparator]
  exact alternativeAt_of_bars hbars harrives (fun i hi => by cases hi) hleaves hlabels
    (throughout_iff.1 hq).2 fun i => rfl

/-- After an opening the alternatives are read, and the run goes on behind them. -/
theorem Passage.enters (a : x.Passage p) {o : Opening} {r : List Char} {s1 : Progress}
    (hpending : a.pending = some (o.repeats x.setting))
    (h : Encloses (disjunction x.setting (x.limit - a.opened.length)) a.s a.s' o r ns s1) :
    a.opened.length < x.limit ∧
      Bars (x.term (o.repeats x.setting :: a.opened)) (o.enter a.s r) ns s1 ∧
        x.Run ⟨o.repeats x.setting :: a.opened, none, s1.rest⟩ a.after .finished := by
  have hinside := h.inside
  have hopened : a.opened.length < x.limit := by
    refine Nat.lt_of_not_le fun hle => ?_
    rw [Nat.sub_eq_zero_of_le hle] at hinside
    cases hinside
  have hdepth : x.limit - a.opened.length = x.limit - (a.opened.length + 1) + 1 := by omega
  rw [hdepth] at hinside
  have hleaves := a.leaves
  rw [hpending] at hleaves
  refine ⟨hopened, disjunction_iff.1 hinside, ?_⟩
  rw [h.closes]
  exact .step .closing hleaves

theorem alternatives_of_isClassLevel (h : n.isClassLevel = true) : n.alternatives = [] := by
  cases n with
  | choice _ _ | look _ _ _ => cases h
  | _ => rfl

/-- What is read without its quantifier holds alternatives, or nothing but what stands in classes. -/
theorem ElementAt.shape (h : x.ElementAt p) : x.HoldsAlternatives p ∨
    p.node.alternatives = [] ∧ ∀ c ∈ p.children, c.node.ClassPart := by
  obtain ⟨a, repeats, hpending, hread⟩ := h
  obtain ⟨rest, hleaf, -⟩ | ⟨o, r, ns, s1, hencloses, hnode, rfl⟩ := unquantified_iff.1 hread
  · right
    have hchild {c : Place} (hc : c ∈ p.children) : c.node ∈ p.node.children := by
      obtain ⟨i, hi, -⟩ := Place.slot_of_mem_children hc
      exact List.mem_of_getElem? hi
    obtain ⟨e, hn⟩ | ⟨ref, hn⟩ | ⟨-, hclass⟩ := hleaf.shape
    · rw [hn] at hchild ⊢
      exact ⟨rfl, fun c hc => absurd (hchild hc) List.not_mem_nil⟩
    · rw [hn] at hchild ⊢
      exact ⟨rfl, fun c hc => absurd (hchild hc) List.not_mem_nil⟩
    · obtain ⟨hlevel, hparts⟩ := classPart_iff.1 hclass
      exact ⟨alternatives_of_isClassLevel hlevel, fun c hc => hparts _ (hchild hc)⟩
  · left
    obtain ⟨hopened, hbars, hleaves⟩ := a.enters hpending hencloses
    have hlabels := a.labels
    rw [hnode, o.labels_node] at hlabels
    have hopening : p.node.opening = o.text := by rw [hnode, o.opening_node]
    have hchildren : p.node.children = ns := by rw [hnode, o.children_node]
    refine ⟨o.repeats x.setting :: a.opened, o.enter a.s r, s1, a.before ++ o.label, a.after,
      ⟨?_, hopened, ?_⟩, hleaves, ?_, ?_, ?_, a.throughout⟩
    · rw [a.arrives.start, hencloses.opens, o.rest_enter, hopening, Text.width_append, Nat.add_assoc]
    · rw [o.rest_enter]
      have hfits := (Opening.allowed_iff.1 hencloses.allowed).1
      have hrun := a.arrives.run
      rw [hencloses.opens] at hrun
      exact hrun.trans (.single (.opening hfits hopened))
    · rwa [hchildren]
    · rw [hchildren, ← hlabels]
      simp
    · rw [hnode]
      cases o <;> rfl

/-- How a place is read. -/
inductive Stands (x : Route) (p : Place) : Prop
  | whole {ns : List Node} : p.node = .choice .whole ns → x.HoldsAlternatives p → Stands x p
  | alternative : x.AlternativeAt p → Stands x p
  | term : x.TermAt p → Stands x p
  | element : x.ElementAt p → Stands x p
  | classPart : p.node.ClassPart → Stands x p

theorem ElementAt.stands (h : x.ElementAt p) : ∀ c ∈ p.children, x.Stands c := by
  intro c hc
  obtain halternatives | ⟨-, hclass⟩ := h.shape
  · exact .alternative (halternatives.children c hc)
  · exact .classPart (hclass c hc)

theorem Stands.child (h : x.Stands p) : ∀ c ∈ p.children, x.Stands c := by
  intro c hc
  cases h with
  | whole _ halternatives => exact .alternative (halternatives.children c hc)
  | alternative halternative => exact .term (halternative.children c hc)
  | term hterm =>
    by_cases hnode : ∃ bounds greedy lexeme n, p.node = .quantifier bounds greedy lexeme n
    · obtain ⟨_, _, _, _, hnode⟩ := hnode
      exact .element (hterm.children_quantifier hnode c hc)
    · exact (hterm.elementAt fun _ _ _ _ hn => hnode ⟨_, _, _, _, hn⟩).stands c hc
  | element helement => exact helement.stands c hc
  | classPart hclass =>
    obtain ⟨i, hi, -⟩ := Place.slot_of_mem_children hc
    exact .classPart ((classPart_iff.1 hclass).2 _ (List.mem_of_getElem? hi))

theorem Stands.holdsAlternatives (h : x.Stands p) (hnode : p.node.alternatives ≠ []) :
    x.HoldsAlternatives p := by
  cases h with
  | whole _ h => exact h
  | alternative h =>
    obtain ⟨a, ns, hn, -⟩ := h
    rw [hn] at hnode
    exact absurd rfl hnode
  | term h =>
    have helement : x.ElementAt p := h.elementAt fun _ _ _ _ hn => by
      rw [hn] at hnode
      exact hnode rfl
    exact helement.shape.resolve_right fun hnone => hnode hnone.1
  | element h => exact h.shape.resolve_right fun hnone => hnode hnone.1
  | classPart h => exact absurd (alternatives_of_isClassLevel (classPart_iff.1 h).1) hnode

theorem Stands.alternativeAt (h : x.Stands p) (hnode : p.node = .alternative ns) :
    x.AlternativeAt p := by
  cases h with
  | whole hn _ => cases hnode.symm.trans hn
  | alternative h => exact h
  | term h =>
    obtain ⟨a, -, hread⟩ := h
    exact absurd hnode (termAt_ne hread ns)
  | element h =>
    obtain ⟨a, repeats, -, hread⟩ := h
    exact absurd hnode ((unquantified_ne hread).1 ns)
  | classPart h =>
    rw [hnode] at h
    cases (classPart_iff.1 h).1

theorem Stands.termAt {bounds : Bounds} {greedy : Bool} {lexeme : List Char} (h : x.Stands p)
    (hnode : p.node = .quantifier bounds greedy lexeme n) : x.TermAt p := by
  cases h with
  | whole hn _ => cases hnode.symm.trans hn
  | alternative h =>
    obtain ⟨a, ns, hn, -⟩ := h
    cases hnode.symm.trans hn
  | term h => exact h
  | element h =>
    obtain ⟨a, repeats, -, hread⟩ := h
    exact absurd hnode ((unquantified_ne hread).2 _ _ _ _)
  | classPart h =>
    rw [hnode] at h
    cases (classPart_iff.1 h).1

theorem Stands.elementAt {index : Nat} {name : Option (List Char)} (h : x.Stands p)
    (hnode : p.node = .choice (.capture index name) ns) : x.ElementAt p := by
  cases h with
  | whole hn _ => cases hnode.symm.trans hn
  | alternative h =>
    obtain ⟨a, ns, hn, -⟩ := h
    cases hnode.symm.trans hn
  | term h =>
    refine h.elementAt fun _ _ _ _ hn => ?_
    cases hnode.symm.trans hn
  | element h => exact h
  | classPart h =>
    rw [hnode] at h
    cases (classPart_iff.1 h).1

/-- The text of a place stands where the place starts. -/
theorem Passage.source (a : x.Passage p) :
    ∃ front, x.source = front ++ a.s.rest ∧ Text.width front = p.start := by
  obtain ⟨front, hfront⟩ : a.s.rest <:+ x.source := a.arrives.run.suffix
  have hstart := a.arrives.start
  rw [← hfront, Text.width_append] at hstart
  exact ⟨front, hfront.symm, by omega⟩

/-- The route of a parsed pattern. -/
def ofRegex (r : Regex) (q : Node → Prop) : Route :=
  ⟨settingOf r.flags r.source, nestingLimit - 1, q, r.source, r.root.labels⟩

/-- All places of a parsed pattern are read in one of these ways. -/
theorem stands_of_parse {source : List Char} {flags : Flags} {r : Regex} {q : Node → Prop}
    (h : Regex.parse source flags = .ok r) (hq : r.root.Throughout q) :
    ∀ p ∈ r.walk, (ofRegex r q).Stands p := by
  obtain ⟨ns, s', hread, hrest, -, rfl⟩ := Regex.parse_iff.1 h
  have hroot : (ofRegex ⟨source, flags, choice .whole ns⟩ q).Stands ⟨choice .whole ns, 0, 0, []⟩ := by
    refine .whole rfl ⟨[], ⟨source, 0, []⟩, s', [], [],
      ⟨(Nat.zero_add _).symm, Nat.zero_le _, .refl _⟩, ?_,
      disjunction_iff.1 hread, ?_, rfl, hq⟩
    · rw [hrest]
      exact .refl _
    · rw [List.nil_append, List.append_nil]
      exact (labels_eq rfl).symm
  exact Place.forall_below (fun p hp => Stands.child hp) hroot

end Route

end Pattern

end RegexAudit
