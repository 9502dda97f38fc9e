import RegexAudit.Analysis.Backreference
import RegexAudit.CharSet.KnownProperties
import RegexAudit.Proofs.Numbering
import RegexAudit.Proofs.Removal

/-!
# References that match nothing

Where a match comes while it is looked for: `x.Visits n d s path m d' t` says that a match of `n` in
the direction `d` from the moment `s` on comes to the node `m` at `path` in the direction `d'` at the
moment `t`. These are all moments that count: another node with the same outcomes there can take the
place of `m`, and the outcomes of `n` stay the same (`outcomes_rebuild`).

A group has captured nothing at such a moment if it stands above the node, in another alternative,
behind a negated lookaround, or is matched later. That is what `isEmptyReference` looks for:

    x.Visits r.root .forward s path (.backreference ref) d t → r.root.isEmptyReference path ref →
      (x.resolve? ref).bind t.captures = none                             (empty_of_isEmptyReference)
-/

namespace RegexAudit

namespace Steps

variable {α : Type} {P : α → Prop} {round : α → List α} {s t : α}

theorem forall_row {fs : List (Steps α)} {d : Direction}
    (h : ∀ f ∈ fs, ∀ s t, P s → t ∈ f d s → P t) (hs : P s) (ht : t ∈ row fs d s) : P t := by
  induction fs generalizing s t with
  | nil => rwa [List.mem_singleton.1 ht]
  | cons f fs ih =>
    have hmore {s t : α} (hs : P s) (ht : t ∈ row fs d s) : P t :=
      ih (fun g hg => h g (List.mem_cons_of_mem _ hg)) hs ht
    have hfirst := h f (List.mem_cons_self ..)
    cases d with
    | forward =>
      obtain ⟨u, hu, ht⟩ := List.mem_flatMap.1 ht
      exact hmore (hfirst s u hs hu) ht
    | backward =>
      obtain ⟨u, hu, ht⟩ := List.mem_flatMap.1 ht
      exact hfirst u t (hmore hs hu) ht

theorem forall_forced (h : ∀ s t, P s → t ∈ round s → P t) {count : Nat} (hs : P s)
    (ht : t ∈ forced round count s) : P t := by
  induction count generalizing s with
  | zero => rwa [List.mem_singleton.1 ht]
  | succ count ih =>
    obtain ⟨u, hu, ht⟩ := List.mem_flatMap.1 ht
    exact ih (h s u hs hu) ht

theorem forall_optional {moves : α → α → Bool} {greedy : Bool}
    (h : ∀ s t, P s → t ∈ round s → P t) {count : Nat} (hs : P s)
    (ht : t ∈ optional moves round greedy count s) : P t := by
  induction count generalizing s with
  | zero => rwa [List.mem_singleton.1 ht]
  | succ count ih =>
    rcases mem_optional.1 ht with rfl | ⟨u, hu, -, ht⟩
    · exact hs
    · exact ih (h s u hs hu) ht

theorem row_append (fs gs : List (Steps α)) (d : Direction) (s : α) :
    row (fs ++ gs) d s = match d with
      | .forward => (row fs .forward s).flatMap (row gs .forward)
      | .backward => (row gs .backward s).flatMap (row fs .backward) := by
  induction fs generalizing s with
  | nil => cases d <;> simp [row]
  | cons f fs ih =>
    cases d with
    | forward =>
      simp only [List.cons_append, row, List.flatMap_assoc]
      exact List.flatMap_congr fun t _ => ih t
    | backward => simp only [List.cons_append, row, ih, List.flatMap_assoc]

/-- What can be reached in some rounds and then in some more, can be reached in some rounds. -/
theorem mem_forced_trans {u : α} {i j : Nat} (ht : t ∈ forced round i s)
    (hu : u ∈ forced round j t) : u ∈ forced round (i + j) s := by
  induction i generalizing s with
  | zero => rwa [Nat.zero_add, ← List.mem_singleton.1 ht]
  | succ i ih =>
    obtain ⟨v, hv, ht⟩ := List.mem_flatMap.1 ht
    rw [Nat.succ_add]
    exact List.mem_flatMap.2 ⟨v, hv, ih ht⟩

/-- Two rounds agree on all states that can be reached. -/
def AgreeFrom (round round' : α → List α) (s : α) : Prop :=
  ∀ i, ∀ t ∈ forced round i s, round' t = round t

theorem AgreeFrom.later {round' : α → List α} {i : Nat} (h : AgreeFrom round round' s)
    (ht : t ∈ forced round i s) : AgreeFrom round round' t :=
  fun j u hu => h (i + j) u (mem_forced_trans ht hu)

theorem mem_forced_one : t ∈ forced round 1 s ↔ t ∈ round s := by
  simp [forced]

theorem AgreeFrom.forced {round' : α → List α} (h : AgreeFrom round round' s) (count : Nat) :
    Steps.forced round' count s = Steps.forced round count s := by
  induction count generalizing s with
  | zero => rfl
  | succ count ih =>
    rw [Steps.forced, Steps.forced, h 0 s (List.mem_singleton_self s)]
    exact List.flatMap_congr fun t ht => ih (h.later (mem_forced_one.2 ht))

theorem AgreeFrom.optional {round' : α → List α} (h : AgreeFrom round round' s)
    (moves : α → α → Bool) (greedy : Bool) (count : Nat) :
    Steps.optional moves round' greedy count s = Steps.optional moves round greedy count s := by
  induction count generalizing s with
  | zero => rfl
  | succ count ih =>
    have hmore : ((round s).filter (moves s)).flatMap (Steps.optional moves round' greedy count) =
        ((round s).filter (moves s)).flatMap (Steps.optional moves round greedy count) :=
      List.flatMap_congr fun t ht => ih (h.later (mem_forced_one.2 (List.mem_of_mem_filter ht)))
    rw [Steps.optional, Steps.optional, h 0 s (List.mem_singleton_self s), hmore]

end Steps

namespace Node

/-! ## Groups that keep quiet -/

/-- Whatever way the node is matched, group `g` has captured what it had before: it is not in the
tree, or behind a negated lookaround. -/
inductive Silent (g : Nat) : Node → Prop
  | negated (direction : Direction) (ns : List Node) : Silent g (look direction true ns)
  | other {n : Node} : (∀ name ns, n ≠ choice (.capture g name) ns) →
    (∀ c ∈ n.children, Silent g c) → Silent g n

theorem groupNumbers_of_child {n c : Node} (hc : c ∈ n.children) :
    c.groupNumbers ⊆ n.groupNumbers := by
  intro g hg
  rw [groupNumbers_eq, List.mem_map] at hg ⊢
  obtain ⟨capture, hmem, rfl⟩ := hg
  refine ⟨capture, ?_, rfl⟩
  rw [captures_eq]
  exact List.mem_append_right _ (List.mem_flatMap.2 ⟨c, hc, hmem⟩)

theorem mem_groupNumbers_self (g : Nat) (name : Option (List Char)) (ns : List Node) :
    g ∈ (choice (.capture g name) ns).groupNumbers := by
  rw [groupNumbers_eq, captures_eq]
  simp [capture?]

theorem silent_of_not_mem {n : Node} {g : Nat} (h : g ∉ n.groupNumbers) : Silent g n := by
  induction n using induction_on_children with
  | h n ih =>
    refine .other ?_ fun c hc => ih c hc fun hg => h (groupNumbers_of_child hc hg)
    rintro name ns rfl
    exact h (mem_groupNumbers_self g name ns)

/-! ## One group of each number -/

/-- The groups of the tree have numbers of their own. -/
def Distinct (n : Node) : Prop := n.groupNumbers.Nodup

section
variable {n c e : Node} {g i j : Nat}

theorem groupNumbers_eq_append (n : Node) :
    n.groupNumbers = (n.capture?.map Prod.fst).toList ++ n.children.flatMap groupNumbers := by
  rw [groupNumbers_eq, captures_eq, List.map_append, List.map_flatMap]
  congr 1
  · cases n.capture? <;> rfl
  · exact List.flatMap_congr fun c _ => (groupNumbers_eq c).symm

theorem Distinct.child (h : n.Distinct) (hc : c ∈ n.children) : c.Distinct := by
  rw [Distinct, groupNumbers_eq_append, List.nodup_append] at h
  exact (List.nodup_flatMap.1 h.2.1).1 c hc

theorem Distinct.not_self (h : n.Distinct) (hc : c ∈ n.children) (hg : g ∈ c.groupNumbers)
    (name : Option (List Char)) (ns : List Node) : n ≠ choice (.capture g name) ns := by
  rintro rfl
  rw [Distinct, groupNumbers_eq_append, List.nodup_append] at h
  exact h.2.2 g (by simp [capture?]) g (List.mem_flatMap.2 ⟨c, hc, hg⟩) rfl

theorem Distinct.not_other (h : n.Distinct) (hc : n.children[i]? = some c)
    (he : n.children[j]? = some e) (hij : i ≠ j) (hg : g ∈ c.groupNumbers) :
    g ∉ e.groupNumbers := by
  rw [Distinct, groupNumbers_eq_append, List.nodup_append] at h
  have hpairs := (List.nodup_flatMap.1 h.2.1).2
  rw [List.pairwise_iff_getElem] at hpairs
  obtain ⟨hi, rfl⟩ := List.getElem?_eq_some_iff.1 hc
  obtain ⟨hj, rfl⟩ := List.getElem?_eq_some_iff.1 he
  intro hg'
  rcases Nat.lt_or_gt_of_ne hij with hlt | hlt
  · exact hpairs i j hi hj hlt hg hg'
  · exact hpairs j i hj hi hlt hg' hg

end

/-! ## Ways down -/

/-- The node at the end of a way down. -/
def at? (n : Node) : Path → Option Node
  | [] => some n
  | i :: path => n.children[i]?.bind fun c => c.at? path

theorem at?_append {n : Node} {path : Path} {m : Node} (h : n.at? path = some m) (i : Nat) :
    n.at? (path ++ [i]) = m.children[i]? := by
  induction path generalizing n with
  | nil =>
    cases h
    simp [at?]
  | cons j path ih =>
    obtain ⟨c, hc, hm⟩ := Option.bind_eq_some_iff.1 h
    rw [List.cons_append, at?, hc]
    exact ih hm

theorem at?_path {root : Node} {p : Place} (h : p ∈ root.walk) : root.at? p.path = some p.node := by
  have hstep : ∀ q : Place, root.at? q.path = some q.node →
      ∀ c ∈ q.children, root.at? c.path = some c.node := by
    intro q hq c hc
    obtain ⟨i, hnode, hpath⟩ := Place.path_of_mem_children hc
    rw [hpath, at?_append hq, hnode]
  exact Place.forall_below hstep (p := ⟨root, 0, 0, []⟩) rfl p h

theorem mem_groupNumbers_of_at? {n : Node} {path : Path} {g : Nat} {name : Option (List Char)}
    {ns : List Node} (h : n.at? path = some (choice (.capture g name) ns)) :
    g ∈ n.groupNumbers := by
  induction path generalizing n with
  | nil =>
    cases h
    exact mem_groupNumbers_self g name ns
  | cons i path ih =>
    obtain ⟨c, hc, hm⟩ := Option.bind_eq_some_iff.1 h
    exact groupNumbers_of_child (List.mem_of_getElem? hc) (ih hm)

/-- The only group of a number keeps quiet behind a negated lookaround. -/
theorem silent_of_negatedLook {n : Node} {path : Path} {g : Nat} {name : Option (List Char)}
    {ns : List Node} (hn : n.Distinct) (h : n.at? path = some (choice (.capture g name) ns))
    (hlook : (Parting.nodesAlong n path).any Parting.isNegatedLook = true) : Silent g n := by
  induction path generalizing n with
  | nil => cases hlook
  | cons i path ih =>
    obtain ⟨c, hc, hm⟩ := Option.bind_eq_some_iff.1 h
    rw [Parting.nodesAlong, hc, List.any_cons, Bool.or_eq_true] at hlook
    have hmem := List.mem_of_getElem? hc
    have hg := mem_groupNumbers_of_at? hm
    rcases hlook with hlook | hlook
    · cases n with
      | look direction negate ns =>
        have hnegate : negate = true := hlook
        rw [hnegate]
        exact .negated direction ns
      | _ => cases hlook
    · refine .other (hn.not_self hmem hg) fun e he => ?_
      obtain ⟨j, hj⟩ := List.getElem?_of_mem he
      by_cases hij : i = j
      · subst hij
        cases hc.symm.trans hj
        exact ih (hn.child hmem) hm hlook
      · exact silent_of_not_mem (hn.not_other hc hj hij hg)

end Node

namespace Scene

open Node

variable {x : Scene} {kept : Nat → Prop} {d : Direction} {s t : Moment}

/-! ## Moments without some captures -/

/-- The position is one of the text, and the groups in `kept` have captured nothing. -/
abbrev Lacks (x : Scene) (kept : Nat → Prop) (s : Moment) : Prop := x.Keeps kept (fun _ => none) s

theorem Lacks.forget (h : x.Lacks kept s) (groups : List Nat) : x.Lacks kept (s.forget groups) := by
  refine ⟨h.fits, fun g hg => ?_⟩
  by_cases hmem : g ∈ groups
  · simp [Moment.forget, hmem]
  · simp [Moment.forget, hmem, h.same g hg]

theorem lacks_moving {ends : Steps Nat} {P : Span} (h : Follows id x.Fits ends P)
    (hs : x.Lacks kept s) (ht : t ∈ Steps.moving ends d s) : x.Lacks kept t :=
  (follows_moving h d).stays hs ht

section
variable [Properties]

theorem lacks_oneOf {ns : List Node}
    (h : ∀ n ∈ ns, ∀ d s t, x.Lacks kept s → t ∈ x.outcomes n d s → x.Lacks kept t)
    (hs : x.Lacks kept s) (ht : t ∈ Steps.oneOf (x.outcomesAll ns) d s) : x.Lacks kept t := by
  rw [outcomesAll_eq_map] at ht
  obtain ⟨f, hf, ht⟩ := List.mem_flatMap.1 ht
  obtain ⟨n, hn, rfl⟩ := List.mem_map.1 hf
  exact h n hn d s t hs ht

theorem lacks_row {ns : List Node}
    (h : ∀ n ∈ ns, ∀ d s t, x.Lacks kept s → t ∈ x.outcomes n d s → x.Lacks kept t)
    (hs : x.Lacks kept s) (ht : t ∈ Steps.row (x.outcomesAll ns) d s) : x.Lacks kept t := by
  rw [outcomesAll_eq_map] at ht
  refine Steps.forall_row (fun f hf => ?_) hs ht
  obtain ⟨n, hn, rfl⟩ := List.mem_map.1 hf
  exact h n hn d

/-- A round of a quantifier, which starts without the captures of the groups in it. -/
abbrev round (x : Scene) (element : Node) (d : Direction) (t : Moment) : List Moment :=
  x.outcomes element d (t.forget element.groupNumbers)

/-- Groups that keep quiet have captured nothing afterwards if they had nothing before. -/
theorem lacks_outcomes {n : Node} (hn : ∀ g, kept g → Silent g n) (hs : x.Lacks kept s)
    (ht : t ∈ x.outcomes n d s) : x.Lacks kept t := by
  induction n using Node.induction_on_children generalizing d s t with
  | h n ih =>
    have hchildren (hlook : ∀ direction ns, n ≠ look direction true ns) :
        ∀ c ∈ n.children, ∀ d s t, x.Lacks kept s → t ∈ x.outcomes c d s → x.Lacks kept t := by
      intro c hc d s t
      refine ih c hc fun g hg => ?_
      cases hn g hg with
      | negated direction ns => exact absurd rfl (hlook direction ns)
      | other _ hsilent => exact hsilent c hc
    cases n with
    | choice frame ns =>
      rw [outcomes] at ht
      obtain ⟨u, hu, rfl⟩ := List.mem_map.1 ht
      refine (lacks_oneOf (hchildren fun _ _ hlook => by cases hlook) hs hu).leave ?_ _
      rintro index name rfl hkept
      cases hn index hkept with
      | other hself _ => exact hself name ns rfl
    | look direction negate ns =>
      rw [outcomes] at ht
      cases negate with
      | true =>
        cases hfirst : (Steps.oneOf (x.outcomesAll ns) direction s).head? with
        | some u => simp [hfirst, Moment.look] at ht
        | none =>
          simp only [hfirst, Moment.look, if_true, List.mem_singleton] at ht
          rwa [ht]
      | false =>
        cases hfirst : (Steps.oneOf (x.outcomesAll ns) direction s).head? with
        | none => simp [hfirst, Moment.look] at ht
        | some u =>
          simp only [hfirst, Moment.look, Bool.false_eq_true, if_false, List.mem_singleton] at ht
          rw [ht]
          have hu := lacks_oneOf (hchildren fun _ _ hlook => by cases hlook) hs
            (List.mem_of_mem_head? hfirst)
          exact ⟨hs.fits, hu.same⟩
    | alternative ns => exact lacks_row (hchildren fun _ _ hlook => by cases hlook) hs ht
    | quantifier bounds greedy lexeme element =>
      have hround : ∀ s t, x.Lacks kept s → t ∈ x.round element d s → x.Lacks kept t :=
        fun s t hs ht => hchildren (fun _ _ hlook => by cases hlook) element
          (List.mem_singleton_self _) d _ t (hs.forget _) ht
      rw [outcomes] at ht
      obtain ⟨u, hu, ht⟩ := List.mem_flatMap.1 ht
      exact Steps.forall_optional hround (Steps.forall_forced hround hs hu) ht
    | edge e =>
      simp only [outcomes] at ht
      split at ht
      · rwa [List.mem_singleton.1 ht]
      · cases ht
    | backreference ref => exact lacks_moving (follows_wordEnds s.captures ref) hs ht
    | strings alternatives =>
      have hends := follows_oneOf fun letters (_ : letters ∈ alternatives) =>
        x.follows_letterEnds (fun _ => none) letters
      exact lacks_moving hends hs ht
    | string letters => exact lacks_moving (follows_letterEnds (fun _ => none) letters) hs ht
    | character _ | range _ _ | shorthand _ | charClass _ _ _ | classExpression _ _
    | classOperation _ _ _ => exact lacks_moving (follows_characterEnds (fun _ => none) _) hs ht

end

/-! ## Visits -/

/-- A match of a node in the direction `d` from `s` on comes to the child at `slot`, in the direction
`d'` at the moment `t`. How many rounds a quantifier has behind it is left open. -/
inductive Enters [Properties]
    (x : Scene) : Node → Direction → Moment → (slot : Nat) → Direction → Moment → Prop
  | choice {frame : Frame} {ns : List Node} {d : Direction} {s : Moment} {slot : Nat} :
    Enters x (.choice frame ns) d s slot d s
  | look {direction d : Direction} {negate : Bool} {ns : List Node} {s : Moment} {slot : Nat} :
    Enters x (.look direction negate ns) d s slot direction s
  | forward {ns : List Node} {s t : Moment} {slot : Nat} :
    t ∈ Steps.row (x.outcomesAll (ns.take slot)) .forward s →
      Enters x (.alternative ns) .forward s slot .forward t
  | backward {ns : List Node} {s t : Moment} {slot : Nat} :
    t ∈ Steps.row (x.outcomesAll (ns.drop (slot + 1))) .backward s →
      Enters x (.alternative ns) .backward s slot .backward t
  | quantifier {bounds : Bounds} {greedy : Bool} {lexeme : List Char} {element : Node}
    {d : Direction} {s t : Moment} {rounds : Nat} : t ∈ Steps.forced (x.round element d) rounds s →
      Enters x (.quantifier bounds greedy lexeme element) d s 0 d (t.forget element.groupNumbers)

/-- A match of a node in the direction `d` from `s` on comes to `m` at the end of a way down, in the
direction `d'` at the moment `t`. -/
inductive Visits [Properties]
    (x : Scene) : Node → Direction → Moment → Path → Node → Direction → Moment → Prop
  | here {n : Node} {d : Direction} {s : Moment} : Visits x n d s [] n d s
  | down {n c m : Node} {d d1 d' : Direction} {s s1 t : Moment} {slot : Nat} {path : Path} :
    n.children[slot]? = some c → Enters x n d s slot d1 s1 → Visits x c d1 s1 path m d' t →
      Visits x n d s (slot :: path) m d' t

/-- Whether child `j` is matched before child `i`. -/
def IsBefore (d : Direction) (n : Node) (j i : Nat) : Prop :=
  n.kind = .alternative ∧ match d with
    | .forward => j < i
    | .backward => i < j

section
variable {n m : Node} {d d' : Direction} {s t : Moment} {slot g : Nat}

section
variable [Properties]

theorem Enters.direction (h : x.Enters n d s slot d' t) : d' = Parting.directionBelow d n := by
  cases h <;> rfl

/-- When a child is entered, groups have captured nothing that had nothing before, unless they stand
in children that are matched before. -/
theorem lacks_enters (h : x.Enters n d s slot d' t)
    (hbefore : ∀ g, kept g → ∀ j e, n.children[j]? = some e → IsBefore d n j slot → Silent g e)
    (hs : x.Lacks kept s) : x.Lacks kept t := by
  cases h with
  | choice => exact hs
  | look => exact hs
  | forward hrow =>
    refine lacks_row (fun e he d s t => ?_) hs hrow
    obtain ⟨j, hj⟩ := List.getElem?_of_mem he
    rw [List.getElem?_take] at hj
    split at hj
    · rename_i hlt
      exact lacks_outcomes fun g hg => hbefore g hg j e hj ⟨rfl, hlt⟩
    · cases hj
  | backward hrow =>
    refine lacks_row (fun e he d s t => ?_) hs hrow
    obtain ⟨j, hj⟩ := List.getElem?_of_mem he
    rw [List.getElem?_drop] at hj
    exact lacks_outcomes fun g hg => hbefore g hg _ e hj ⟨rfl, by simp only; omega⟩
  | quantifier hrounds =>
    rename_i bounds greedy lexeme element t rounds
    -- a group in the element may have captured something, but it is forgotten
    let others : Nat → Prop := fun g => kept g ∧ g ∉ element.groupNumbers
    have hround : ∀ s t, x.Lacks others s → t ∈ x.round element d s → x.Lacks others t :=
      fun s t hs ht => lacks_outcomes (fun g hg => silent_of_not_mem hg.2) (hs.forget _) ht
    have hothers : x.Lacks others s := ⟨hs.fits, fun g hg => hs.same g hg.1⟩
    have ht := Steps.forall_forced hround hothers hrounds
    refine ⟨ht.fits, fun g hg => ?_⟩
    by_cases hmem : g ∈ element.groupNumbers
    · simp [Moment.forget, hmem]
    · simp [Moment.forget, hmem, ht.same g ⟨hg, hmem⟩]

/-- Groups that are not in the tree capture nothing while the tree is matched. -/
theorem lacks_visits_of_not_mem {path : Path} (h : x.Visits n d s path m d' t)
    (hn : ∀ g, kept g → g ∉ n.groupNumbers) (hs : x.Lacks kept s) : x.Lacks kept t := by
  induction h with
  | here => exact hs
  | down hc henter hvisit ih =>
    rename_i n c m d d1 d' s s1 t slot path
    have hchild : ∀ e ∈ n.children, ∀ g, kept g → g ∉ e.groupNumbers :=
      fun e he g hg hmem => hn g hg (groupNumbers_of_child he hmem)
    refine ih (hchild c (List.mem_of_getElem? hc)) (lacks_enters henter ?_ hs)
    intro g hg j e he _
    exact silent_of_not_mem (hchild e (List.mem_of_getElem? he) g hg)

end

/-- What `Parting.isEarly` looks for keeps the group from being matched before the reference. -/
theorem silent_of_isEarly {c e : Node} {i j : Nat} {path : Path} {name : Option (List Char)}
    {ns : List Node} (hn : n.Distinct) (he : n.children[i]? = some e)
    (hgroup : e.at? path = some (choice (.capture g name) ns))
    (hearly : Parting.isEarly ⟨n, Parting.directionBelow d n, slot, i, Parting.nodesAlong e path⟩ =
      true)
    (hc : n.children[j]? = some c) (hbefore : IsBefore d n j slot) : Silent g c := by
  by_cases hij : i = j
  · subst hij
    cases hc.symm.trans he
    obtain ⟨ms, rfl⟩ := kind_eq_alternative.1 hbefore.1
    have hdistinct := hn.child (List.mem_of_getElem? he)
    simp only [Parting.isEarly, Node.alternatives?, Option.isSome_none, Bool.false_or,
      Bool.or_eq_true, Parting.directionBelow] at hearly
    rcases hearly with hlook | horder
    · exact silent_of_negatedLook hdistinct hgroup hlook
    · -- the reference comes first, so this child is not matched before
      have hlt := hbefore.2
      cases d with
      | forward =>
        have hslot : slot < i := of_decide_eq_true horder
        simp only at hlt
        omega
      | backward =>
        have hslot : i < slot := of_decide_eq_true horder
        simp only at hlt
        omega
  · exact silent_of_not_mem (hn.not_other he hc hij (mem_groupNumbers_of_at? hgroup))

/-- If a group had captured nothing before, it has captured nothing where a match comes to a node
that stands in it, or parts with it early. -/
theorem lacks_visits [Properties] {path group : Path} {name : Option (List Char)} {ns : List Node}
    (h : x.Visits n d s path m d' t) (hn : n.Distinct)
    (hgroup : n.at? group = some (choice (.capture g name) ns))
    (hearly : ∀ p, Parting.find? d n path group = some p → p.isEarly = true)
    (hs : x.Lacks (· = g) s) : x.Lacks (· = g) t := by
  induction h generalizing group with
  | here => exact hs
  | down hc henter hvisit ih =>
    rename_i n c m d d1 d' s s1 t slot path
    have hmem := List.mem_of_getElem? hc
    cases group with
    | nil =>
      cases hgroup
      have hother : ∀ {e}, e ∈ (choice (.capture g name) ns).children → g ∉ e.groupNumbers :=
        fun he hg => hn.not_self he hg name ns rfl
      refine lacks_visits_of_not_mem hvisit ?_ (lacks_enters henter ?_ hs)
      · rintro _ rfl
        exact hother hmem
      rintro _ rfl j e he -
      exact silent_of_not_mem (hother (List.mem_of_getElem? he))
    | cons i group =>
      obtain ⟨e, he, hgroup⟩ := Option.bind_eq_some_iff.1 hgroup
      have hg := mem_groupNumbers_of_at? hgroup
      simp only [Parting.find?, he] at hearly
      by_cases hslot : slot = i
      · subst hslot
        cases hc.symm.trans he
        rw [if_pos rfl, ← henter.direction] at hearly
        refine ih (hn.child hmem) hgroup hearly (lacks_enters henter ?_ hs)
        rintro _ rfl j f hf ⟨-, hlt⟩
        refine silent_of_not_mem (hn.not_other hc hf ?_ hg)
        cases d <;> simp only at hlt <;> omega
      · rw [if_neg hslot] at hearly
        have hearly := hearly _ rfl
        refine lacks_visits_of_not_mem hvisit ?_ (lacks_enters henter ?_ hs)
        · rintro _ rfl
          exact hn.not_other he hc (Ne.symm hslot) hg
        · rintro _ rfl j f hf hbefore
          exact silent_of_isEarly hn he hgroup hearly hf hbefore

/-! ## Replacing what is visited -/

section
variable {c : Node}

section
variable [Properties]

theorem Visits.step {path : Path} {s1 : Moment} {d1 : Direction}
    (h : x.Visits n d s path m d1 s1) (hc : m.children[slot]? = some c)
    (henter : x.Enters m d1 s1 slot d' t) : x.Visits n d s (path ++ [slot]) c d' t := by
  induction h with
  | here => exact .down hc henter .here
  | down he hfirst _ ih => exact .down he hfirst (ih hc henter)

theorem outcomesAll_set {ns : List Node} (hc : ns[slot]? = some c) (m : Node) :
    x.outcomesAll (ns.set slot m) =
      x.outcomesAll (ns.take slot) ++ x.outcomes m :: x.outcomesAll (ns.drop (slot + 1)) := by
  rw [set_eq_append hc, outcomesAll_eq_map, outcomesAll_eq_map, outcomesAll_eq_map,
    List.map_append, List.map_cons]

theorem outcomesAll_eq {ns : List Node} (hc : ns[slot]? = some c) : x.outcomesAll ns =
    x.outcomesAll (ns.take slot) ++ x.outcomes c :: x.outcomesAll (ns.drop (slot + 1)) := by
  rw [← outcomesAll_set hc c, set_eq_append hc, ← eq_append_of_getElem? hc]

theorem oneOf_outcomesAll_set {ns : List Node} (hc : ns[slot]? = some c)
    (h : x.outcomes m d s = x.outcomes c d s) :
    Steps.oneOf (x.outcomesAll (ns.set slot m)) d s = Steps.oneOf (x.outcomesAll ns) d s := by
  rw [outcomesAll_set hc, outcomesAll_eq hc]
  simp only [Steps.oneOf, List.flatMap_append, List.flatMap_cons, h]

/-- A child can be replaced by a node that has the same outcomes wherever the child is entered. -/
theorem outcomes_withChild (hc : n.children[slot]? = some c)
    (hgroups : m.groupNumbers = c.groupNumbers)
    (h : ∀ d' t, x.Enters n d s slot d' t → x.outcomes m d' t = x.outcomes c d' t) :
    x.outcomes (n.withChild slot m) d s = x.outcomes n d s := by
  cases n with
  | choice frame ns =>
    have hc : ns[slot]? = some c := hc
    simp only [withChild, outcomes, oneOf_outcomesAll_set hc (h d s .choice)]
  | look direction negate ns =>
    have hc : ns[slot]? = some c := hc
    simp only [withChild, outcomes, oneOf_outcomesAll_set hc (h direction s .look)]
  | alternative ns =>
    have hc : ns[slot]? = some c := hc
    rw [withChild, outcomes, outcomes, outcomesAll_set hc, outcomesAll_eq hc, Steps.row_append,
      Steps.row_append]
    cases d with
    | forward =>
      refine List.flatMap_congr fun t ht => ?_
      rw [Steps.row, Steps.row, h _ t (.forward ht)]
    | backward =>
      simp only [Steps.row]
      congr 1
      exact List.flatMap_congr fun t ht => h _ t (.backward ht)
  | quantifier bounds greedy lexeme element =>
    obtain ⟨rfl, rfl⟩ : slot = 0 ∧ c = element := by
      cases slot with
      | zero => exact ⟨rfl, (Option.some.inj hc).symm⟩
      | succ slot => cases hc
    have hagree : Steps.AgreeFrom (x.round c d) (x.round m d) s := by
      intro i t ht
      show x.outcomes m d (t.forget m.groupNumbers) = x.outcomes c d (t.forget c.groupNumbers)
      rw [hgroups]
      exact h d _ (.quantifier ht)
    rw [withChild, outcomes, outcomes]
    show (Steps.forced (x.round m d) bounds.min s).flatMap _ =
      (Steps.forced (x.round c d) bounds.min s).flatMap _
    rw [hagree.forced]
    exact List.flatMap_congr fun t ht => (hagree.later ht).optional _ _ _
  | edge _ | backreference _ | character _ | range _ _ | shorthand _ | charClass _ _ _
  | classExpression _ _ | classOperation _ _ _ | strings _ | string _ => rfl

end

theorem groupNumbers_withChild (hc : n.children[slot]? = some c)
    (hgroups : m.groupNumbers = c.groupNumbers) :
    (n.withChild slot m).groupNumbers = n.groupNumbers := by
  have hset {ns : List Node} (hc : ns[slot]? = some c) :
      (ns.set slot m).flatMap groupNumbers = ns.flatMap groupNumbers := by
    conv_rhs => rw [eq_append_of_getElem? hc]
    rw [set_eq_append hc]
    simp only [List.flatMap_append, List.flatMap_cons, hgroups]
  cases n with
  | choice frame ns =>
    rw [groupNumbers_eq_append, groupNumbers_eq_append (.choice frame ns)]
    cases frame <;> exact congrArg _ (hset hc)
  | look direction negate ns =>
    rw [groupNumbers_eq_append, groupNumbers_eq_append (.look direction negate ns)]
    exact congrArg _ (hset hc)
  | alternative ns =>
    rw [groupNumbers_eq_append, groupNumbers_eq_append (.alternative ns)]
    exact congrArg _ (hset hc)
  | quantifier bounds greedy lexeme element =>
    have hce : c = element := List.mem_singleton.1 (List.mem_of_getElem? hc)
    rw [groupNumbers_eq_append, groupNumbers_eq_append (.quantifier bounds greedy lexeme element)]
    simp [withChild, children, capture?, hgroups, hce]
  | edge _ | backreference _ | character _ | range _ _ | shorthand _ | charClass _ _ _
  | classExpression _ _ | classOperation _ _ _ | strings _ | string _ => rfl

/-- A node can be replaced by one that has the same outcomes wherever it is visited: nothing else of
it has a say in what the whole matches. -/
theorem outcomes_rebuild [Properties]
    {root : Node} {trail : List Step} (hleads : root.Leads trail n)
    (hgroups : m.groupNumbers = n.groupNumbers)
    (h : ∀ d' t, x.Visits root d s (trail.map (·.slot)).reverse n d' t →
      x.outcomes m d' t = x.outcomes n d' t) :
    x.outcomes (rebuild trail m) d s = x.outcomes root d s := by
  induction trail generalizing n m with
  | nil =>
    cases hleads
    exact h d s .here
  | cons step up ih =>
    refine ih hleads.2 (groupNumbers_withChild hleads.1 hgroups) fun d1 s1 hvisit => ?_
    refine outcomes_withChild hleads.1 hgroups fun d' t henter => h d' t ?_
    rw [List.map_cons, List.reverse_cons]
    exact hvisit.step hleads.1 henter

end

/-! ## References to nothing -/

/-- The text that is repeated is empty if the group has captured nothing. -/
theorem outcomes_backreference [Properties] {ref : GroupRef} (ht : x.Fits t.position)
    (hnone : (x.resolve? ref).bind t.captures = none) :
    x.outcomes (.backreference ref) d t = [t] := by
  have hcaptured : x.captured t.captures ref = [] := by
    rw [captured, hnone]
  have hword : x.isWordAt [] t.position t.position = true := by
    simp [isWordAt]
  have hfits : t.position ≤ x.text.length := ht
  show Steps.moving (x.wordEnds (x.captured t.captures ref)) d t = [t]
  rw [hcaptured]
  cases d with
  | forward => simp [Steps.moving, wordEnds, hword, hfits, Moment.moveTo]
  | backward => simp [Steps.moving, wordEnds, hword, Moment.moveTo]

end

end Scene

namespace Regex

open Node Pattern

variable {source : List Char} {flags : Flags} {r : Regex} {x : Scene} {s t : Moment}
  {d d' : Direction}

theorem distinct_of_parse (h : Regex.parse source flags = .ok r) : r.root.Distinct := by
  obtain ⟨ns, s, hread, -, -, rfl⟩ := parse_iff.1 h
  have hnumbers := ((kept_opens _).disjunction hread).numbers
  have hcaptures : (choice .whole ns).captures = ns.flatMap captures :=
    captures_of_capture?_eq_none rfl
  rw [Distinct, groupNumbers_eq, hcaptures, hnumbers]
  exact List.nodup_range'

/-- A group that a reference leads to stands at the end of the way down to it. -/
theorem at?_of_group? {root g : Node} {path : Path} {ref : GroupRef} (hroot : root.IsPattern)
    (h : root.group? ref = some (path, g)) :
    ∃ index name ns, root.at? path = some (choice (.capture index name) ns) ∧
      g = choice (.capture index name) ns := by
  rw [group?_walk hroot.layered] at h
  obtain ⟨p, hp, heq⟩ := Option.map_eq_some_iff.1 h
  cases heq
  have hnamed := List.find?_some (p := fun p : Place => p.node.isNamedBy ref) hp
  obtain ⟨index, name, ns, hnode, -⟩ := isNamedBy_iff.1 hnamed
  refine ⟨index, name, ns, ?_, hnode⟩
  rw [at?_path (List.mem_of_find?_eq_some hp), hnode]

section
variable [Properties]

/-- Where a match comes to a reference that is always empty, its group has captured nothing. -/
theorem lacks_reference (h : Regex.parse source flags = .ok r) (hx : x.resolve? = r.resolve?)
    (hs : x.Lacks (fun _ => True) s) {path : Path} {ref : GroupRef} {m : Node}
    (hvisit : x.Visits r.root d s path m d' t)
    (hd : d = .forward) (hempty : r.root.isEmptyReference path ref = true) :
    x.Fits t.position ∧ (x.resolve? ref).bind t.captures = none := by
  have hfits : x.Lacks (fun _ => False) t :=
    Scene.lacks_visits_of_not_mem hvisit (fun _ hg => hg.elim) ⟨hs.fits, fun _ hg => hg.elim⟩
  refine ⟨hfits.fits, ?_⟩
  rw [hx, resolve?]
  unfold isEmptyReference parting? at hempty
  cases hgroup : r.root.group? ref with
  | none => rfl
  | some found =>
    obtain ⟨group, g⟩ := found
    obtain ⟨index, name, ns, hat, rfl⟩ := at?_of_group? (parse_source h).2.2.1 hgroup
    have hearly : ∀ p, Parting.find? d r.root path group = some p → p.isEarly = true := by
      intro p hp
      rw [hgroup, Option.bind_eq_bind, Option.bind_some, ← hd] at hempty
      simpa only [hp] using hempty
    have hlacks : x.Lacks (· = index) s := ⟨hs.fits, fun g _ => hs.same g trivial⟩
    exact (Scene.lacks_visits hvisit (distinct_of_parse h) hat hearly hlacks).same index rfl

/-- A reference that is always empty can be left out: the whole pattern has the same outcomes. -/
theorem outcomes_without_reference (h : Regex.parse source flags = .ok r)
    (hx : x.resolve? = r.resolve?) (hs : x.Lacks (fun _ => True) s) {p : Place} (hp : p ∈ r.walk)
    {ref : GroupRef} (hnode : p.node = .backreference ref)
    (hempty : r.root.isEmptyReference p.path ref = true) :
    x.outcomes (rebuild p.trail (.alternative [])) .forward s = x.outcomes r.root .forward s := by
  refine Scene.outcomes_rebuild (leads_of_mem_walk hp) (by rw [hnode]; rfl) fun d' t hvisit => ?_
  obtain ⟨hfits, hnone⟩ := lacks_reference h hx hs hvisit rfl hempty
  rw [hnode, Scene.outcomes_backreference hfits hnone]
  cases d' <;> rfl

/-- Whenever a match of a parsed pattern comes to a reference that is always empty, the group has
captured nothing, and the reference matches the empty text only. -/
theorem empty_of_isEmptyReference (h : Regex.parse source flags = .ok r)
    (hx : x.resolve? = r.resolve?) (hs : s.position ≤ x.text.length)
    (hnone : ∀ g, s.captures g = none) {path : Path} {ref : GroupRef}
    (hempty : r.root.isEmptyReference path ref = true)
    (hvisit : x.Visits r.root .forward s path (.backreference ref) d t) :
    (x.resolve? ref).bind t.captures = none ∧ x.outcomes (.backreference ref) d t = [t] := by
  have hlacks := lacks_reference h hx ⟨hs, fun g _ => hnone g⟩ hvisit rfl hempty
  exact ⟨hlacks.2, Scene.outcomes_backreference hlacks.1 hlacks.2⟩

end

open Scene in
/-- In `(?:\1(a))*` the group has captured the first letter of `aa` when the second round starts,
and the reference matches nothing all the same. -/
theorem empty_of_isEmptyReference_loop :
    let source := ['(', '?', ':', '\\', '1', '(', 'a', ')', ')', '*']
    let group : Node := choice (.capture 1 none) [alternative [character ⟨97, ['a']⟩]]
    let element : Node := choice .plain [alternative [backreference (.index 1), group]]
    let r : Regex := ⟨source, .empty, choice .whole [alternative [
      quantifier ⟨0, none, nofun⟩ true ['*'] element]]⟩
    let x := Scene.ofText r ['a', 'a']
    let s : Moment := ⟨0, fun _ => none⟩
    Regex.parse source .empty = .ok r ∧ r.root.isEmptyReference [0, 0, 0, 0, 0] (.index 1) = true ∧
      ∃ u ∈ x.round element .forward s, u.captures 1 = some (0, 1) ∧
        ∃ t, t.position = 1 ∧
          x.Visits r.root .forward s [0, 0, 0, 0, 0] (.backreference (.index 1)) .forward t ∧
          (x.resolve? (.index 1)).bind t.captures = none ∧
          x.outcomes (.backreference (.index 1)) .forward t = [t] := by
  intro source group element r x s
  have hparse : Regex.parse source .empty = .ok r := rfl
  have hempty : r.root.isEmptyReference [0, 0, 0, 0, 0] (.index 1) = true := by decide
  have hround : (x.round element .forward s).any
      (fun u => u.captures 1 == some (0, 1) && u.position == 1) = true := by decide +kernel
  obtain ⟨u, hu, hcaptured⟩ := List.any_eq_true.1 hround
  simp only [Bool.and_eq_true, beq_iff_eq] at hcaptured
  have hvisit : x.Visits r.root .forward s [0, 0, 0, 0, 0] (.backreference (.index 1)) .forward
      (u.forget element.groupNumbers) :=
    .down rfl .choice (.down rfl (.forward (List.mem_singleton_self s))
      (.down rfl (.quantifier (Steps.mem_forced_one.2 hu)) (.down rfl .choice
        (.down rfl (.forward (List.mem_singleton_self _)) .here))))
  refine ⟨hparse, hempty, u, hu, hcaptured.1, u.forget element.groupNumbers, hcaptured.2, hvisit, ?_⟩
  exact empty_of_isEmptyReference hparse rfl (Nat.zero_le _) (fun _ => rfl) hempty hvisit

end Regex

end RegexAudit
