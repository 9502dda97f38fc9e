import RegexAudit.CharSet.KnownProperties
import RegexAudit.Proofs.Visits

/-!
# References that are matched after their groups

While a node is matched, a group outside of it keeps what it has captured (`captures_outcomes`,
`captures_visits`), and a group inside it that no way through the node can avoid has captured
something afterwards (`isSome_outcomes`): a quantifier that forces a round may forget the group at
the start of every round, but the last of its rounds captures again.

A strict reference parts with its group in an alternative, in which the child with the group is
matched first and cannot avoid it. So the group takes part in every match that comes to the
reference:

    x.Visits r.root .forward s path (.backreference ref) d t → r.root.isStrictReference path ref →
      ∃ g i j, r.resolve? ref = some g ∧ t.captures g = some (i, j)    (captured_of_isStrictReference)
-/

namespace RegexAudit

namespace Steps

variable {α : Type} {P : α → Prop} {s t : α}

/-- What one of the steps in a row brings about and the others keep holds after all of them. -/
theorem of_row {f : Steps α} {fs : List (Steps α)} {d : Direction} (hf : f ∈ fs)
    (hbrings : ∀ s t, t ∈ f d s → P t) (hkeeps : ∀ g ∈ fs, ∀ s t, P s → t ∈ g d s → P t)
    (ht : t ∈ row fs d s) : P t := by
  induction fs generalizing s t with
  | nil => cases hf
  | cons g fs ih =>
    obtain ⟨hg, hfs⟩ := List.forall_mem_cons.1 hkeeps
    cases d with
    | forward =>
      obtain ⟨u, hu, hmore⟩ := List.mem_flatMap.1 ht
      rcases List.mem_cons.1 hf with rfl | hf
      · exact forall_row hfs (hbrings s u hu) hmore
      · exact ih hf hfs hmore
    | backward =>
      obtain ⟨u, hu, hlast⟩ := List.mem_flatMap.1 ht
      rcases List.mem_cons.1 hf with rfl | hf
      · exact hbrings u t hlast
      · exact hg u t (ih hf hfs hu) hlast

/-- What every round brings about holds after some rounds. -/
theorem of_forced {round : α → List α} (hbrings : ∀ s t, t ∈ round s → P t) {count : Nat}
    (hcount : count ≠ 0) (ht : t ∈ forced round count s) : P t := by
  obtain ⟨count, rfl⟩ := Nat.exists_eq_succ_of_ne_zero hcount
  obtain ⟨u, hu, ht⟩ := List.mem_flatMap.1 ht
  exact forall_forced (fun s t _ => hbrings s t) (hbrings s u hu) ht

end Steps

namespace Scene

open Node

variable {x : Scene} {n m c : Node} {d d' : Direction} {s t : Moment} {g : Nat}

/-! ## Groups outside of a node -/

theorem captures_moving {ends : Steps Nat} (ht : t ∈ Steps.moving ends d s) :
    t.captures = s.captures := by
  obtain ⟨j, -, rfl⟩ := List.mem_map.1 ht
  rfl

theorem captures_forget {groups : List Nat} (hg : g ∉ groups) (s : Moment) :
    (s.forget groups).captures g = s.captures g := by
  simp [Moment.forget, hg]

section
variable [Properties]

theorem exists_of_mem_oneOf {ns : List Node} (ht : t ∈ Steps.oneOf (x.outcomesAll ns) d s) :
    ∃ c ∈ ns, t ∈ x.outcomes c d s := by
  rw [outcomesAll_eq_map] at ht
  obtain ⟨f, hf, ht⟩ := List.mem_flatMap.1 ht
  obtain ⟨c, hc, rfl⟩ := List.mem_map.1 hf
  exact ⟨c, hc, ht⟩

theorem captures_row {ns : List Node}
    (h : ∀ c ∈ ns, ∀ d s t, t ∈ x.outcomes c d s → t.captures g = s.captures g)
    (ht : t ∈ Steps.row (x.outcomesAll ns) d s) : t.captures g = s.captures g := by
  rw [outcomesAll_eq_map] at ht
  refine Steps.forall_row (P := fun u => u.captures g = s.captures g) (fun f hf => ?_) rfl ht
  obtain ⟨c, hc, rfl⟩ := List.mem_map.1 hf
  exact fun u v hu hv => (h c hc d u v hv).trans hu

/-- Matching a node leaves the captures of groups outside of it as they are. -/
theorem captures_outcomes (hg : g ∉ n.groupNumbers) (ht : t ∈ x.outcomes n d s) :
    t.captures g = s.captures g := by
  induction n using Node.induction_on_children generalizing d s t with
  | h n ih =>
    have hchildren : ∀ c ∈ n.children, ∀ d s t, t ∈ x.outcomes c d s →
        t.captures g = s.captures g :=
      fun c hc d s t ht => ih c hc (fun hmem => hg (groupNumbers_of_child hc hmem)) ht
    cases n with
    | choice frame ns =>
      obtain ⟨u, hu, rfl⟩ := List.mem_map.1 ht
      obtain ⟨c, hc, hu⟩ := exists_of_mem_oneOf hu
      have hsame := hchildren c hc d s u hu
      cases frame with
      | whole | plain => exact hsame
      | capture index name =>
        have hother : g ≠ index := by
          rintro rfl
          exact hg (mem_groupNumbers_self g name ns)
        simp only [Moment.leave, if_neg hother, hsame]
    | look direction negate ns =>
      rw [outcomes] at ht
      cases hfirst : (Steps.oneOf (x.outcomesAll ns) direction s).head? with
      | none =>
        cases negate with
        | false => simp [hfirst, Moment.look] at ht
        | true =>
          simp only [hfirst, Moment.look, if_true, List.mem_singleton] at ht
          rw [ht]
      | some u =>
        cases negate with
        | true => simp [hfirst, Moment.look] at ht
        | false =>
          simp only [hfirst, Moment.look, Bool.false_eq_true, if_false, List.mem_singleton] at ht
          rw [ht]
          obtain ⟨c, hc, hu⟩ := exists_of_mem_oneOf (List.mem_of_mem_head? hfirst)
          exact hchildren c hc direction s u hu
    | alternative ns => exact captures_row hchildren ht
    | quantifier bounds greedy lexeme element =>
      have hmem : g ∉ element.groupNumbers :=
        fun hmem => hg (groupNumbers_of_child (List.mem_singleton_self element) hmem)
      let same (u : Moment) : Prop := u.captures g = s.captures g
      have hround : ∀ u v, same u → v ∈ x.round element d u → same v := by
        intro u v hu hv
        show v.captures g = s.captures g
        rw [hchildren element (List.mem_singleton_self _) d _ v hv, captures_forget hmem, hu]
      rw [outcomes] at ht
      obtain ⟨u, hu, ht⟩ := List.mem_flatMap.1 ht
      have hforced : same u := Steps.forall_forced hround rfl hu
      show same t
      exact Steps.forall_optional hround hforced ht
    | edge e =>
      simp only [outcomes] at ht
      split at ht
      · rw [List.mem_singleton.1 ht]
      · cases ht
    | backreference _ | strings _ | string _ | character _ | range _ _ | shorthand _
    | charClass _ _ _ | classExpression _ _ | classOperation _ _ _ =>
      rw [captures_moving ht]

theorem captures_enters (henter : x.Enters n d s slot d' t) (hg : g ∉ n.groupNumbers) :
    t.captures g = s.captures g := by
  have hchildren : ∀ c ∈ n.children, ∀ d s t, t ∈ x.outcomes c d s → t.captures g = s.captures g :=
    fun c hc d s t ht => captures_outcomes (fun hmem => hg (groupNumbers_of_child hc hmem)) ht
  cases henter with
  | choice => rfl
  | look => rfl
  | forward hrow => exact captures_row (fun c hc => hchildren c (List.mem_of_mem_take hc)) hrow
  | backward hrow => exact captures_row (fun c hc => hchildren c (List.mem_of_mem_drop hc)) hrow
  | quantifier hrounds =>
    rename_i bounds greedy lexeme element u rounds
    have hmem : g ∉ element.groupNumbers :=
      fun hmem => hg (groupNumbers_of_child (List.mem_singleton_self element) hmem)
    rw [captures_forget hmem]
    refine Steps.forall_forced (P := fun u => u.captures g = s.captures g) ?_ rfl hrounds
    intro u v hu hv
    rw [hchildren element (List.mem_singleton_self _) d _ v hv, captures_forget hmem, hu]

/-- On the way to a node, groups outside of the whole keep what they have captured. -/
theorem captures_visits {path : Path} (h : x.Visits n d s path m d' t) (hg : g ∉ n.groupNumbers) :
    t.captures g = s.captures g := by
  induction h with
  | here => rfl
  | down hc henter _ ih =>
    rw [ih fun hmem => hg (groupNumbers_of_child (List.mem_of_getElem? hc) hmem),
      captures_enters henter hg]

end

/-! ## Groups that cannot be avoided -/

theorem isSome_leave {s : Moment} (h : (s.captures g).isSome) (start : Nat) (frame : Frame) :
    ((s.leave start frame).captures g).isSome := by
  cases frame with
  | whole | plain => exact h
  | capture index name =>
    simp only [Moment.leave]
    split
    · rfl
    · exact h

/-- If one of the elements in a row captures the group, it has captured something after the row. -/
theorem isSome_row [Properties] {ns : List Node} (hc : c ∈ ns)
    (hbrings : ∀ d s t, t ∈ x.outcomes c d s → (t.captures g).isSome)
    (hothers : ∀ e ∈ ns, e = c ∨ g ∉ e.groupNumbers)
    (ht : t ∈ Steps.row (x.outcomesAll ns) d s) : (t.captures g).isSome := by
  rw [outcomesAll_eq_map] at ht
  refine Steps.of_row (P := fun u => (u.captures g).isSome) (List.mem_map_of_mem hc) (hbrings d)
    (fun f hf => ?_) ht
  obtain ⟨e, he, rfl⟩ := List.mem_map.1 hf
  intro u v hu hv
  rcases hothers e he with rfl | hg
  · exact hbrings d u v hv
  · rwa [captures_outcomes hg hv]

/-- Only one child holds the group. -/
theorem eq_or_not_mem_groupNumbers {i : Nat} (hn : n.Distinct) (hc : n.children[i]? = some c)
    (hg : g ∈ c.groupNumbers) {e : Node} (he : e ∈ n.children) : e = c ∨ g ∉ e.groupNumbers := by
  obtain ⟨j, hj⟩ := List.getElem?_of_mem he
  by_cases hij : i = j
  · subst hij
    exact .inl (Option.some.inj (hj.symm.trans hc))
  · exact .inr (hn.not_other hc hj hij hg)

theorem not_mem_groupNumbers_of_classPart (h : n.ClassPart) : g ∉ n.groupNumbers := by
  rw [groupNumbers_eq, captures_of_classPart h]
  exact List.not_mem_nil

theorem eq_of_length_le_one {ns : List Node} (hlength : ns.length ≤ 1) (hc : c ∈ ns) {e : Node}
    (he : e ∈ ns) : e = c := by
  obtain ⟨i, hi, rfl⟩ := List.getElem_of_mem hc
  obtain ⟨j, hj, rfl⟩ := List.getElem_of_mem he
  congr 1
  omega

variable [Properties]

/-- A group has captured something after every match of a node that holds it, if no node on the way
down to it can be passed without it. -/
theorem isSome_outcomes {path : Path} {name : Option (List Char)} {ns : List Node}
    (hn : n.Distinct) (hinner : n.Inner) (hat : n.at? path = some (choice (.capture g name) ns))
    (hpass : (Parting.nodesAlong n path).any Parting.isAvoidable = false)
    (ht : t ∈ x.outcomes n d s) : (t.captures g).isSome := by
  induction path generalizing n d s t with
  | nil =>
    cases hat
    rw [outcomes] at ht
    obtain ⟨u, -, rfl⟩ := List.mem_map.1 ht
    simp [Moment.leave]
  | cons i path ih =>
    obtain ⟨c, hc, hgroup⟩ := Option.bind_eq_some_iff.1 hat
    have hmem := List.mem_of_getElem? hc
    rw [Parting.nodesAlong, hc, List.any_cons, Bool.or_eq_false_iff] at hpass
    obtain ⟨hhere, hbelow⟩ := hpass
    have hbrings : ∀ d s t, t ∈ x.outcomes c d s → (t.captures g).isSome := fun d s t =>
      ih (hn.child hmem) ((throughout_iff.1 hinner).2 c hmem) hgroup hbelow
    have hg := mem_groupNumbers_of_at? hgroup
    cases n with
    | choice frame ms =>
      have hlength : ms.length ≤ 1 := by
        cases frame with
        | whole => exact absurd rfl ((hinner _ .self).1 ms)
        | plain | capture _ _ =>
          have hlength : decide (1 < ms.length) = false := hhere
          simpa using hlength
      rw [outcomes] at ht
      obtain ⟨u, hu, rfl⟩ := List.mem_map.1 ht
      obtain ⟨e, he, hu⟩ := exists_of_mem_oneOf hu
      rw [eq_of_length_le_one hlength hmem he] at hu
      exact isSome_leave (hbrings d s u hu) _ _
    | look direction negate ms =>
      have hhere : (negate || decide (1 < ms.length)) = false := hhere
      rw [Bool.or_eq_false_iff, decide_eq_false_iff_not, Nat.not_lt] at hhere
      obtain ⟨rfl, hlength⟩ := hhere
      rw [outcomes] at ht
      cases hfirst : (Steps.oneOf (x.outcomesAll ms) direction s).head? with
      | none => simp [hfirst, Moment.look] at ht
      | some u =>
        simp only [hfirst, Moment.look, Bool.false_eq_true, if_false, List.mem_singleton] at ht
        obtain ⟨e, he, hu⟩ := exists_of_mem_oneOf (List.mem_of_mem_head? hfirst)
        rw [eq_of_length_le_one hlength hmem he] at hu
        rw [ht]
        exact hbrings direction s u hu
    | alternative ms => exact isSome_row hmem hbrings (fun e => eq_or_not_mem_groupNumbers hn hc hg) ht
    | quantifier bounds greedy lexeme element =>
      have hforced : bounds.min ≠ 0 := by
        have hmin : (bounds.min == 0) = false := hhere
        simpa using hmin
      have helement : c = element := List.mem_singleton.1 hmem
      let captured (u : Moment) : Prop := (u.captures g).isSome
      have hround : ∀ s t, t ∈ x.round element d s → captured t :=
        fun s t ht => hbrings d _ t (helement ▸ ht)
      rw [outcomes] at ht
      obtain ⟨u, hu, ht⟩ := List.mem_flatMap.1 ht
      have hu : captured u := Steps.of_forced hround hforced hu
      show captured t
      exact Steps.forall_optional (fun s t _ => hround s t) hu ht
    | edge _ | backreference _ => cases hc
    | character _ | range _ _ | shorthand _ | charClass _ _ _ | classExpression _ _
    | classOperation _ _ _ | strings _ | string _ =>
      have hclass := (classPart_iff.1 (hinner.layered.classPart rfl)).2 c hmem
      exact absurd hg (not_mem_groupNumbers_of_classPart hclass)

/-! ## Moments at a reference -/

/-- A child whose group parts late with the reference is matched before the child with the
reference. -/
theorem isSome_enters {slot i : Nat} {group : Path} {name : Option (List Char)} {ns : List Node}
    (henter : x.Enters n d s slot d' t) (hn : n.Distinct) (hinner : ∀ e ∈ n.children, e.Inner)
    (hslot : slot ≠ i) (hc : n.children[i]? = some c) (hgroup : c.at? group = some (choice (.capture g name) ns))
    (hlate : Parting.isEarly ⟨n, Parting.directionBelow d n, slot, i, Parting.nodesAlong c group⟩ =
      false)
    (hpass : (Parting.nodesAlong c group).any Parting.isAvoidable = false) :
    (t.captures g).isSome := by
  have hmem := List.mem_of_getElem? hc
  have hg := mem_groupNumbers_of_at? hgroup
  have hbrings : ∀ d s t, t ∈ x.outcomes c d s → (t.captures g).isSome := fun d s t =>
    isSome_outcomes (hn.child hmem) (hinner c hmem) hgroup hpass
  have hothers : ∀ e ∈ n.children, e = c ∨ g ∉ e.groupNumbers :=
    fun e => eq_or_not_mem_groupNumbers hn hc hg
  simp only [Parting.isEarly, Bool.or_eq_false_iff] at hlate
  cases henter with
  | choice => cases hlate.1.1
  | look => cases hlate.1.1
  | forward hrow =>
    rename_i ms
    have hle : ¬ slot < i := of_decide_eq_false hlate.2
    refine isSome_row (List.mem_of_getElem? (i := i) ?_) hbrings
      (fun e he => hothers e (List.mem_of_mem_take he)) hrow
    rw [List.getElem?_take, if_pos (by omega)]
    exact hc
  | backward hrow =>
    rename_i ms
    have hle : ¬ i < slot := of_decide_eq_false hlate.2
    refine isSome_row (List.mem_of_getElem? (i := i - (slot + 1)) ?_) hbrings
      (fun e he => hothers e (List.mem_of_mem_drop he)) hrow
    rw [List.getElem?_drop, show slot + 1 + (i - (slot + 1)) = i by omega]
    exact hc
  | quantifier =>
    -- there is one child only
    have hi : i ≠ 0 := fun h => hslot h.symm
    obtain ⟨i, rfl⟩ := Nat.exists_eq_succ_of_ne_zero hi
    cases hc

/-- Where a match comes to a node that parts late with a group that cannot be avoided, the group has
captured something. -/
theorem isSome_visits {path group : Path} {name : Option (List Char)} {ns : List Node}
    {p : Parting} (h : x.Visits n d s path m d' t) (hn : n.Distinct)
    (hinner : ∀ e ∈ n.children, e.Inner)
    (hgroup : n.at? group = some (choice (.capture g name) ns))
    (hparting : Parting.find? d n path group = some p) (hlate : p.isEarly = false)
    (hpass : p.between.any Parting.isAvoidable = false) : (t.captures g).isSome := by
  induction h generalizing group with
  | here => cases hparting
  | down hc henter hvisit ih =>
    rename_i n c m d d1 d' s s1 t slot path
    cases group with
    | nil => cases hparting
    | cons i group =>
      obtain ⟨e, he, hgroup⟩ := Option.bind_eq_some_iff.1 hgroup
      simp only [Parting.find?, he] at hparting
      by_cases hslot : slot = i
      · subst hslot
        cases hc.symm.trans he
        have hmem := List.mem_of_getElem? hc
        rw [if_pos rfl, ← henter.direction] at hparting
        exact ih (hn.child hmem) (throughout_iff.1 (hinner _ hmem)).2 hgroup hparting
      · rw [if_neg hslot] at hparting
        cases hparting
        have hg := mem_groupNumbers_of_at? hgroup
        rw [captures_visits hvisit (hn.not_other he hc (Ne.symm hslot) hg)]
        exact isSome_enters henter hn hinner hslot he hgroup hlate hpass

end Scene

namespace Regex

open Node

variable {source : List Char} {flags : Flags} {r : Regex} {x : Scene} {s t : Moment} {d : Direction}

/-- Whenever a match of a parsed pattern comes to a strict reference, the group that the reference
names has taken part: it has captured a stretch of the text. -/
theorem captured_of_isStrictReference [Properties]
    (h : Regex.parse source flags = .ok r) {path : Path}
    {ref : GroupRef} (hstrict : r.root.isStrictReference path ref = true)
    (hvisit : x.Visits r.root .forward s path (.backreference ref) d t) :
    ∃ g i j, r.resolve? ref = some g ∧ t.captures g = some (i, j) := by
  unfold isStrictReference parting? at hstrict
  cases hgroup : r.root.group? ref with
  | none => simp [hgroup] at hstrict
  | some found =>
    obtain ⟨group, node⟩ := found
    have hpattern := (parse_source h).2.2.1
    obtain ⟨index, name, ns, hat, rfl⟩ := at?_of_group? hpattern hgroup
    rw [hgroup, Option.bind_eq_bind, Option.bind_some] at hstrict
    simp only at hstrict
    cases hparting : Parting.find? .forward r.root path group with
    | none => simp [hparting] at hstrict
    | some p =>
      simp only [hparting, Bool.and_eq_true, Bool.not_eq_true'] at hstrict
      have hinner : ∀ e ∈ r.root.children, e.Inner := by
        obtain ⟨ms, hroot, hinner⟩ := hpattern
        rwa [hroot]
      have hsome := Scene.isSome_visits hvisit (distinct_of_parse h) hinner hat hparting hstrict.1
        hstrict.2
      obtain ⟨⟨i, j⟩, hcaptured⟩ := Option.isSome_iff_exists.1 hsome
      refine ⟨index, i, j, ?_, hcaptured⟩
      rw [resolve?, hgroup]

open Scene in
/-- In `(?:(a)b)+\1` every round forgets the group, and the group has captured the letter of the last
round when the reference is matched. -/
theorem captured_of_isStrictReference_loop :
    let source := ['(', '?', ':', '(', 'a', ')', 'b', ')', '+', '\\', '1']
    let group : Node := choice (.capture 1 none) [alternative [character ⟨97, ['a']⟩]]
    let element : Node := choice .plain [alternative [group, character ⟨98, ['b']⟩]]
    let loop : Node := quantifier ⟨1, none, nofun⟩ true ['+'] element
    let r : Regex := ⟨source, .empty, choice .whole [alternative [loop, backreference (.index 1)]]⟩
    let x := Scene.ofText r ['a', 'b', 'a', 'b', 'a']
    let s : Moment := ⟨0, fun _ => none⟩
    Regex.parse source .empty = .ok r ∧ r.root.isStrictReference [0, 1] (.index 1) = true ∧
      ∃ t, t.position = 4 ∧
        x.Visits r.root .forward s [0, 1] (.backreference (.index 1)) .forward t ∧
        t.captures 1 = some (2, 3) ∧
        ∃ g i j, r.resolve? (.index 1) = some g ∧ t.captures g = some (i, j) := by
  intro source group element loop r x s
  have hparse : Regex.parse source .empty = .ok r := rfl
  have hstrict : r.root.isStrictReference [0, 1] (.index 1) = true := by decide
  have hloop : (Steps.row (x.outcomesAll [loop]) .forward s).any
      (fun u => u.position == 4 && u.captures 1 == some (2, 3)) = true := by decide +kernel
  obtain ⟨t, ht, hcaptured⟩ := List.any_eq_true.1 hloop
  simp only [Bool.and_eq_true, beq_iff_eq] at hcaptured
  have hvisit : x.Visits r.root .forward s [0, 1] (.backreference (.index 1)) .forward t :=
    .down rfl .choice (.down rfl (.forward ht) .here)
  refine ⟨hparse, hstrict, t, hcaptured.1, hvisit, hcaptured.2, ?_⟩
  exact captured_of_isStrictReference hparse hstrict hvisit

end Regex

end RegexAudit
