import RegexAudit.Proofs.Numbering

/-!
# Runs

The reading of a pattern as steps along its source. A state is the text that is left, the groups and
lookarounds that are open, and whether an element was just read. A step takes a bar, a leaf, an
opening, a closing parenthesis, or what may come after an element:

    Run setting limit q σ labels τ

No step looks back, so a run can be taken apart at any state, and put together again from runs over
other texts. Runs to the end of the source are what the parser accepts:

    disjunction setting (limit + 1) ⟨source, 0, []⟩ reads all of the source
      ↔ Run setting limit q ⟨[], none, source⟩ labels ⟨[], none, []⟩ with distinct names

The labels are the names of the groups that are opened, or `none` where a group has no name; `q`
holds of all that stands in the leaves.
-/

namespace RegexAudit

open Node

/-- The groups of a tree by their names. -/
def Node.labels (n : Node) : List (Option (List Char)) := n.captures.map Prod.snd

theorem Node.labels_eq {n : Node} (h : n.capture? = none) :
    n.labels = n.children.flatMap labels := by
  rw [labels, captures_of_capture?_eq_none h, List.map_flatMap]
  rfl

namespace Pattern

variable {setting : Setting} {limit : Nat} {q : Node → Prop}

/-! ## Steps -/

/-- What may come after an element: nothing that could be a quantifier, or a quantifier where one may
stand. -/
inductive Passes (setting : Setting) : (repeats : Bool) → (text rest : List Char) → Prop
  | repeatable {r : List Char} : Lexeme.quantifier? setting r = .ok (none, r) →
    Passes setting true r r
  | unrepeatable {r : List Char} : Lexeme.atQuantifier r = false → Passes setting false r r
  | repeated {r rest : List Char} {read : Bounds × Bool} :
    Lexeme.quantifier? setting r = .ok (some read, rest) → Passes setting true r rest

theorem Ends.passes {element n : Node} {repeats : Bool} {text rest : List Char}
    (h : Ends setting element repeats text n rest) : Passes setting repeats text rest := by
  cases h with
  | repeatable h => exact .repeatable h
  | unrepeatable h => exact .unrepeatable h
  | repeated h => exact .repeated h

theorem Passes.ends {repeats : Bool} {text rest : List Char} (h : Passes setting repeats text rest)
    (element : Node) : ∃ n, Ends setting element repeats text n rest ∧
      (n = element ∨ ∃ bounds greedy lexeme, n = .quantifier bounds greedy lexeme element) := by
  cases h with
  | repeatable h => exact ⟨_, .repeatable h, .inl rfl⟩
  | unrepeatable h => exact ⟨_, .unrepeatable h, .inl rfl⟩
  | repeated h => exact ⟨_, .repeated h, .inr ⟨_, _, _, rfl⟩⟩

theorem Passes.suffix {repeats : Bool} {text rest : List Char}
    (h : Passes setting repeats text rest) : rest <:+ text := by
  cases h with
  | repeatable _ | unrepeatable _ => exact List.suffix_refl _
  | repeated h => exact Lexeme.suffix_quantifier? h

namespace Opening

/-- The group that is opened, if it is one. -/
def label : Opening → List (Option (List Char))
  | capture name => [name]
  | _ => []

/-- Whether this is read where `rest` follows it, if its name is new. -/
def Fits (rest : List Char) : Opening → Prop
  | capture none => rest.head? ≠ some '?'
  | capture (some name) => Lexeme.IsName name
  | _ => True

theorem allowed_iff {o : Opening} {s : Progress} {rest : List Char} :
    o.Allowed s rest ↔ o.Fits rest ∧ ∀ name, some name ∈ o.label → name ∉ s.names := by
  cases o with
  | capture name => cases name <;> simp [Allowed, Fits, label]
  | plain => simp [Allowed, Fits, label]
  | look _ _ => simp [Allowed, Fits, label]

theorem labels_node (o : Opening) (groups : Nat) (ns : List Node) :
    (o.node groups ns).labels = o.label ++ ns.flatMap labels := by
  rw [labels, captures_openings, List.map_append, List.map_flatMap]
  cases o <;> rfl

theorem names_enter (o : Opening) (s : Progress) (rest : List Char) :
    (o.enter s rest).names = o.label.filterMap id ++ s.names := by
  cases o with
  | capture name => cases name <;> rfl
  | _ => rfl

theorem opening_node (o : Opening) (groups : Nat) (ns : List Node) :
    (o.node groups ns).opening = o.text := by
  cases o with
  | capture name => cases name <;> rfl
  | _ => rfl

end Opening

/-- Where a reading stands: the groups and lookarounds that are open, the innermost first, each with
whether it may be repeated; and if an element was just read, whether that may be. -/
structure State where
  opened : List Bool
  pending : Option Bool
  rest : List Char

/-- The end of a source. -/
def State.finished : State := ⟨[], none, []⟩

/-- A step along a text. At most `limit` groups may stand in one another, and classes count too. -/
inductive Step (setting : Setting) (limit : Nat) (q : Node → Prop) :
    State → List (Option (List Char)) → State → Prop
  | bar {opened : List Bool} {r : List Char} :
    Step setting limit q ⟨opened, none, '|' :: r⟩ [] ⟨opened, none, r⟩
  | leaf {opened : List Bool} {text rest : List Char} {n : Node} {repeats : Bool} : ¬ AtEnd text →
    Leaf setting (Class.nested setting (limit - opened.length)) text n repeats rest →
    Throughout q n → Step setting limit q ⟨opened, none, text⟩ [] ⟨opened, some repeats, rest⟩
  | opening {opened : List Bool} {o : Opening} {r : List Char} : o.Fits r → opened.length < limit →
    Step setting limit q ⟨opened, none, o.text ++ r⟩ o.label ⟨o.repeats setting :: opened, none, r⟩
  | closing {opened : List Bool} {repeats : Bool} {r : List Char} :
    Step setting limit q ⟨repeats :: opened, none, ')' :: r⟩ [] ⟨opened, some repeats, r⟩
  | passing {opened : List Bool} {repeats : Bool} {text rest : List Char} :
    Passes setting repeats text rest →
    Step setting limit q ⟨opened, some repeats, text⟩ [] ⟨opened, none, rest⟩

/-- Steps one after the other, with the groups that they open. -/
inductive Run (setting : Setting) (limit : Nat) (q : Node → Prop) :
    State → List (Option (List Char)) → State → Prop
  | refl (σ : State) : Run setting limit q σ [] σ
  | step {σ σ1 τ : State} {ls ms : List (Option (List Char))} : Step setting limit q σ ls σ1 →
    Run setting limit q σ1 ms τ → Run setting limit q σ (ls ++ ms) τ

theorem Step.suffix {σ τ : State} {ls : List (Option (List Char))}
    (h : Step setting limit q σ ls τ) : τ.rest <:+ σ.rest := by
  cases h with
  | bar => exact List.suffix_cons _ _
  | leaf _ h _ => exact h.suffix
  | opening _ _ => exact List.suffix_append _ _
  | closing => exact List.suffix_cons _ _
  | passing h => exact h.suffix

theorem Step.mono {q' : Node → Prop} (hq : ∀ n, q n → q' n) {σ τ : State}
    {ls : List (Option (List Char))} (h : Step setting limit q σ ls τ) :
    Step setting limit q' σ ls τ := by
  cases h with
  | bar => exact .bar
  | leaf hend h hn => exact .leaf hend h fun m hm => hq m (hn m hm)
  | opening h hlimit => exact .opening h hlimit
  | closing => exact .closing
  | passing h => exact .passing h

/-- The same step with more groups around it. -/
theorem Step.surrounded {σ τ : State} {ls : List (Option (List Char))} (h : Step setting limit q σ ls τ)
    (base : List Bool) : Step setting (limit + base.length) q
      ⟨σ.opened ++ base, σ.pending, σ.rest⟩ ls ⟨τ.opened ++ base, τ.pending, τ.rest⟩ := by
  cases h with
  | bar => exact .bar
  | leaf hend h hq =>
    refine .leaf hend ?_ hq
    rw [List.length_append, Nat.add_sub_add_right]
    exact h
  | opening h hlimit =>
    refine .opening h ?_
    rw [List.length_append]
    exact Nat.add_lt_add_right hlimit _
  | closing => exact .closing
  | passing h => exact .passing h

namespace Run

variable {σ τ υ : State} {ls ms : List (Option (List Char))}

theorem single (h : Step setting limit q σ ls τ) : Run setting limit q σ ls τ := by
  rw [← List.append_nil ls]
  exact .step h (.refl τ)

theorem trans (h : Run setting limit q σ ls τ) (h' : Run setting limit q τ ms υ) :
    Run setting limit q σ (ls ++ ms) υ := by
  induction h with
  | refl => exact h'
  | step hstep _ ih =>
    rw [List.append_assoc]
    exact .step hstep (ih h')

theorem suffix (h : Run setting limit q σ ls τ) : τ.rest <:+ σ.rest := by
  induction h with
  | refl => exact List.suffix_refl _
  | step hstep _ ih => exact ih.trans hstep.suffix

theorem mono {q' : Node → Prop} (hq : ∀ n, q n → q' n) (h : Run setting limit q σ ls τ) :
    Run setting limit q' σ ls τ := by
  induction h with
  | refl => exact .refl _
  | step hstep _ ih => exact .step (hstep.mono hq) ih

theorem surrounded (h : Run setting limit q σ ls τ) (base : List Bool) :
    Run setting (limit + base.length) q
      ⟨σ.opened ++ base, σ.pending, σ.rest⟩ ls ⟨τ.opened ++ base, τ.pending, τ.rest⟩ := by
  induction h with
  | refl => exact .refl _
  | step hstep _ ih => exact .step (hstep.surrounded base) ih

end Run

/-! ## From readings to runs -/

section
variable {n : Node} {ns : List Node} {s s' : Progress} {depth : Nat}

/-- What is read at some depth is a run. -/
def ReadsRun (setting : Setting) (q : Node → Prop) (depth : Nat) : Prop :=
  ∀ {s s' : Progress} {ns : List Node}, disjunction setting depth s = .ok (ns, s') →
    (∀ n ∈ ns, Throughout q n) → ∃ limit, depth = limit + 1 ∧
      Run setting limit q ⟨[], none, s.rest⟩ (ns.flatMap labels) ⟨[], none, s'.rest⟩

theorem Leaf.labels {text rest : List Char} {repeats : Bool}
    (h : Leaf setting (Class.nested setting depth) text n repeats rest) : n.labels = [] := by
  rw [Node.labels, h.captures]
  rfl

theorem run_encloses {o : Opening} {r : List Char} {s1 : Progress}
    (hinner : ReadsRun setting q depth) (h : Encloses (disjunction setting depth) s s' o r ns s1)
    (hns : ∀ n ∈ ns, Throughout q n) : Run setting depth q ⟨[], none, s.rest⟩
      (o.label ++ ns.flatMap Node.labels) ⟨[], some (o.repeats setting), s'.rest⟩ := by
  obtain ⟨limit, rfl, hrun⟩ := hinner h.inside hns
  have hinside := hrun.surrounded [o.repeats setting]
  rw [o.rest_enter, h.closes] at hinside
  rw [h.opens]
  refine .step (.opening (Opening.allowed_iff.1 h.allowed).1 (Nat.succ_pos _)) ?_
  rw [← List.append_nil (ns.flatMap Node.labels)]
  exact hinside.trans (.single .closing)

theorem run_unquantified {repeats : Bool} (hinner : ReadsRun setting q depth)
    (h : unquantified setting (disjunction setting depth) (Class.nested setting depth) s =
      .ok ((n, repeats), s')) (hend : ¬ AtEnd s.rest) (hn : n.Throughout q) :
    Run setting depth q ⟨[], none, s.rest⟩ n.labels ⟨[], some repeats, s'.rest⟩ := by
  obtain ⟨rest, hleaf, rfl⟩ | ⟨o, r, ns, s1, hencloses, rfl, rfl⟩ := unquantified_iff.1 h
  · rw [hleaf.labels]
    exact .single (.leaf hend hleaf hn)
  · rw [o.labels_node]
    refine run_encloses hinner hencloses fun m hm => (throughout_iff.1 hn).2 m ?_
    rwa [o.children_node]

theorem run_term (hinner : ReadsRun setting q depth) (h : termAt setting depth s = .ok (n, s'))
    (hend : ¬ AtEnd s.rest) (hn : n.Throughout q) :
    Run setting depth q ⟨[], none, s.rest⟩ n.labels ⟨[], none, s'.rest⟩ := by
  obtain ⟨element, repeats, s1, rest, helement, hends, rfl⟩ := term_iff.1 h
  have hpass : Run setting depth q ⟨[], some repeats, s1.rest⟩ [] ⟨[], none, rest⟩ :=
    .single (.passing hends.passes)
  obtain ⟨hlabels, helementq⟩ : n.labels = element.labels ∧ element.Throughout q := by
    cases hends with
    | repeatable _ | unrepeatable _ => exact ⟨rfl, hn⟩
    | repeated _ =>
      have hchild := (throughout_iff.1 hn).2 element (List.mem_singleton_self _)
      refine ⟨?_, hchild⟩
      rw [labels_eq rfl]
      exact List.append_nil _
  rw [hlabels, ← List.append_nil element.labels]
  exact (run_unquantified hinner helement hend helementq).trans hpass

theorem run_row (hinner : ReadsRun setting q depth) (h : Row (termAt setting depth) s ns s')
    (hns : ∀ n ∈ ns, Throughout q n) :
    Run setting depth q ⟨[], none, s.rest⟩ (ns.flatMap labels) ⟨[], none, s'.rest⟩ := by
  induction h with
  | stop _ => exact .refl _
  | step hend hfirst _ ih =>
    rw [List.forall_mem_cons] at hns
    exact (run_term hinner hfirst hend hns.1).trans (ih hns.2)

theorem run_bars (hinner : ReadsRun setting q depth) (h : Bars (termAt setting depth) s ns s')
    (hns : ∀ n ∈ ns, Throughout q n) :
    Run setting depth q ⟨[], none, s.rest⟩ (ns.flatMap labels) ⟨[], none, s'.rest⟩ := by
  have hlabels (ns : List Node) : (Node.alternative ns).labels = ns.flatMap labels := labels_eq rfl
  induction h with
  | last hrow _ =>
    rw [List.forall_mem_singleton] at hns
    rw [List.flatMap_cons, List.flatMap_nil, List.append_nil, hlabels]
    exact run_row hinner hrow (throughout_iff.1 hns).2
  | more hrow hrest _ ih =>
    rw [List.forall_mem_cons] at hns
    have hfirst := run_row hinner hrow (throughout_iff.1 hns.1).2
    rw [hrest] at hfirst
    rw [List.flatMap_cons, hlabels]
    exact hfirst.trans (.step .bar (ih hns.2))

theorem reads_run (setting : Setting) (q : Node → Prop) (depth : Nat) :
    ReadsRun setting q depth := by
  induction depth with
  | zero =>
    intro s s' ns h
    cases h
  | succ depth ih =>
    intro s s' ns h hns
    exact ⟨depth, rfl, run_bars ih (disjunction_iff.1 h) hns⟩

end

/-! ## From runs to readings -/

/-- The rest of a pattern is read, where some groups are open: alternatives up to a closing
parenthesis, what may come after it, and so on up to the end. Groups of some names are known there. -/
def ReadsOn (setting : Setting) (limit : Nat) (q : Node → Prop) (known : List (List Char)) :
    List Bool → Progress → Prop
  | [], s => ∃ ns s', Bars (termAt setting limit) s ns s' ∧ (∀ n ∈ ns, Throughout q n) ∧
    s'.rest = [] ∧ ∀ name ∈ known, name ∈ s'.names
  | repeats :: opened, s => ∃ ns s' r rest,
    Bars (termAt setting (limit - (opened.length + 1))) s ns s' ∧ (∀ n ∈ ns, Throughout q n) ∧
      s'.rest = ')' :: r ∧ Passes setting repeats r rest ∧
        ReadsOn setting limit q known opened (s'.next rest)

/-- The same, if an element was just read. -/
def Continues (setting : Setting) (limit : Nat) (q : Node → Prop) (known : List (List Char))
    (opened : List Bool) (s : Progress) : (pending : Option Bool) → Prop
  | none => ReadsOn setting limit q known opened s
  | some repeats => ∃ rest, Passes setting repeats s.rest rest ∧
    ReadsOn setting limit q known opened (s.next rest)

section
variable {known : List (List Char)} {opened : List Bool} {s s1 : Progress}

theorem ReadsOn.of_bars
    (hbars : ∀ {ns s'}, Bars (termAt setting (limit - opened.length)) s1 ns s' →
      (∀ n ∈ ns, Throughout q n) → ∃ ms, Bars (termAt setting (limit - opened.length)) s ms s' ∧
        ∀ m ∈ ms, Throughout q m)
    (h : ReadsOn setting limit q known opened s1) : ReadsOn setting limit q known opened s := by
  cases opened with
  | nil =>
    obtain ⟨ns, s', hread, hns, hrest⟩ := h
    obtain ⟨ms, hread', hms⟩ := hbars hread hns
    exact ⟨ms, s', hread', hms, hrest⟩
  | cons repeats opened =>
    obtain ⟨ns, s', r, rest, hread, hns, hrest⟩ := h
    obtain ⟨ms, hread', hms⟩ := hbars hread hns
    exact ⟨ms, s', r, rest, hread', hms, hrest⟩

variable (hq : ∀ n : Node, n.isClassLevel = false → (∀ ref, n ≠ .backreference ref) → q n)

include hq

theorem throughout_of_children {n : Node} (hclass : n.isClassLevel = false)
    (href : ∀ ref, n ≠ .backreference ref) (h : ∀ c ∈ n.children, Throughout q c) :
    Throughout q n :=
  throughout_iff.2 ⟨hq n hclass href, h⟩

/-- A term stands at the front of an alternative. -/
theorem ReadsOn.of_term {n : Node} (hend : ¬ AtEnd s.rest) (hn : n.Throughout q)
    (hread : termAt setting (limit - opened.length) s = .ok (n, s1))
    (h : ReadsOn setting limit q known opened s1) : ReadsOn setting limit q known opened s := by
  have hfront {ns : List Node} (hns : ∀ m ∈ ns, Throughout q m) :
      (Node.alternative (n :: ns)).Throughout q :=
    throughout_of_children hq rfl nofun (List.forall_mem_cons.2 ⟨hn, hns⟩)
  refine h.of_bars fun hbars hns => ?_
  cases hbars with
  | last hrow hbar =>
    rw [List.forall_mem_singleton] at hns
    exact ⟨_, .last (.step hend hread hrow) hbar,
      List.forall_mem_singleton.2 (hfront (throughout_iff.1 hns).2)⟩
  | more hrow hrest hmore =>
    rw [List.forall_mem_cons] at hns
    exact ⟨_, .more (.step hend hread hrow) hrest hmore,
      List.forall_mem_cons.2 ⟨hfront (throughout_iff.1 hns.1).2, hns.2⟩⟩

theorem throughout_alternative_nil : (Node.alternative []).Throughout q :=
  throughout_of_children hq rfl nofun (List.forall_mem_nil _)

/-- What is read without its quantifier, and what comes after it, is a term. -/
theorem ReadsOn.of_unquantified {n : Node} {repeats : Bool} (hend : ¬ AtEnd s.rest)
    (hn : n.Throughout q)
    (hread : unquantified setting (disjunction setting (limit - opened.length))
      (Class.nested setting (limit - opened.length)) s = .ok ((n, repeats), s1))
    (h : Continues setting limit q known opened s1 (some repeats)) :
    ReadsOn setting limit q known opened s := by
  obtain ⟨rest, hpasses, h⟩ := h
  obtain ⟨m, hends, hm⟩ := hpasses.ends n
  have hterm : termAt setting (limit - opened.length) s = .ok (m, s1.next rest) :=
    term_iff.2 ⟨n, repeats, s1, rest, hread, hends, rfl⟩
  refine .of_term hq hend ?_ hterm h
  obtain rfl | ⟨_, _, _, rfl⟩ := hm
  · exact hn
  · exact throughout_of_children hq rfl nofun (List.forall_mem_singleton.2 hn)

/-- What stands between an opening and its closing parenthesis is read without its quantifier. -/
theorem ReadsOn.of_opening {o : Opening} {r : List Char} (hopens : s.rest = o.text ++ r)
    (hallowed : o.Allowed s r) (hlimit : opened.length < limit)
    (h : ReadsOn setting limit q known (o.repeats setting :: opened) (o.enter s r)) :
    ReadsOn setting limit q known opened s := by
  obtain ⟨ns, s1, r1, rest, hbars, hns, hcloses, hpasses, h⟩ := h
  have hdepth : limit - opened.length = limit - (opened.length + 1) + 1 := by omega
  have hencloses : Encloses (disjunction setting (limit - opened.length)) s (s1.next r1) o r ns s1 :=
    ⟨hopens, hallowed, by rw [hdepth]; exact disjunction_iff.2 hbars, hcloses, rfl⟩
  have hend : ¬ AtEnd s.rest := by
    obtain ⟨tail, htext⟩ := o.exists_text_cons
    rw [hopens, htext, List.cons_append]
    rintro (h | ⟨_, h | h⟩) <;> cases h
  have hn : (o.node s.groups ns).Throughout q := by
    refine throughout_of_children hq ?_ ?_ ?_
    · cases o <;> rfl
    · cases o <;> exact nofun
    · rwa [o.children_node]
  exact .of_unquantified hq hend hn (unquantified_iff.2 (.inr ⟨o, r, ns, s1, hencloses, rfl, rfl⟩))
    ⟨rest, hpasses, h⟩

/-- A run to the end is a reading. -/
theorem Run.continues {σ : State} {ls : List (Option (List Char))}
    (h : Run setting limit q σ ls .finished) (hrest : s.rest = σ.rest)
    (hdistinct : (ls.filterMap id ++ s.names).Nodup)
    (hknown : ∀ name ∈ known, name ∈ ls.filterMap id ++ s.names) :
    Continues setting limit q known σ.opened s σ.pending := by
  generalize hτ : State.finished = τ at h
  induction h generalizing s with
  | refl =>
    subst hτ
    refine ⟨_, s, .last (.stop (.inl hrest)) (fun r hr => ?_),
      List.forall_mem_singleton.2 (throughout_alternative_nil hq), hrest, hknown⟩
    cases hrest.symm.trans hr
  | step hstep hrun ih =>
    cases hstep with
    | bar =>
      have h := ih (s := s.next _) rfl hdistinct hknown hτ
      refine ReadsOn.of_bars (fun hbars hns => ⟨_, .more (.stop ?_) hrest hbars, ?_⟩) h
      · exact .inr ⟨_, .inl hrest⟩
      · exact List.forall_mem_cons.2 ⟨throughout_alternative_nil hq, hns⟩
    | leaf hend hleaf hn =>
      have h := ih (s := s.next _) rfl hdistinct hknown hτ
      dsimp only at hrest
      rw [← hrest] at hend hleaf
      exact .of_unquantified hq hend hn (unquantified_leaf hleaf) h
    | opening hfits hlimit =>
      rename_i ms opened o r
      have hperm : (ms.filterMap id ++ (o.enter s r).names).Perm
          ((o.label ++ ms).filterMap id ++ s.names) := by
        rw [o.names_enter, List.filterMap_append, ← List.append_assoc]
        exact List.perm_append_comm.append_right _
      have hallowed : o.Allowed s r := by
        refine Opening.allowed_iff.2 ⟨hfits, fun name hname hmem => ?_⟩
        refine List.disjoint_of_nodup_append hdistinct ?_ hmem
        exact List.mem_filterMap.2 ⟨_, List.mem_append_left _ hname, rfl⟩
      refine .of_opening hq hrest hallowed hlimit (ih (o.rest_enter s r) ?_ ?_ hτ)
      · exact hperm.nodup_iff.2 hdistinct
      · exact fun name hname => hperm.mem_iff.2 (hknown name hname)
    | closing =>
      obtain ⟨rest, hpasses, h⟩ := ih (s := s.next _) rfl hdistinct hknown hτ
      refine ⟨_, s, _, rest, .last (.stop (.inr ⟨_, .inr hrest⟩)) (fun r hr => ?_),
        List.forall_mem_singleton.2 (throughout_alternative_nil hq), hrest, hpasses, h⟩
      cases hrest.symm.trans hr
    | passing hpasses =>
      have h := ih (s := s.next _) rfl hdistinct hknown hτ
      dsimp only at hrest
      rw [← hrest] at hpasses
      exact ⟨_, hpasses, h⟩

end

/-! ## Parsed patterns -/

/-- What the parts of a pattern have to know about it, by its groups. -/
def settingFor (flags : Flags) (labels : List (Option (List Char))) : Setting :=
  ⟨flags, labels.length, labels.any Option.isSome⟩

/-- References are to groups that there are, and no string of a class holds a bare bracket. -/
structure Sound (labels : List (Option (List Char))) (n : Node) : Prop where
  index : ∀ k, n = .backreference (.index k) → k ≤ labels.length
  name : ∀ name, n = .backreference (.name name) → some name ∈ labels
  unbracketed : n.holdsBracket = false

theorem sound_of_not_reference {labels : List (Option (List Char))} {n : Node}
    (href : ∀ ref, n ≠ .backreference ref) (h : n.holdsBracket = false) : Sound labels n :=
  ⟨fun _ hk => absurd hk (href _), fun _ hname => absurd hname (href _), h⟩

theorem holdsBracket_of_not_classLevel {n : Node} (h : n.isClassLevel = false) :
    n.holdsBracket = false := by
  cases n <;> first | rfl | cases h

theorem Opening.map_snd_node (o : Opening) (groups : Nat) :
    (o.node groups []).capture?.toList.map Prod.snd = o.label := by
  cases o <;> rfl

/-- The search in advance counts the groups that a run opens. -/
theorem Run.counts {σ τ : State} {ls : List (Option (List Char))}
    (h : Run setting limit q σ ls τ) (hq : ∀ n, q n → n.holdsBracket = false) {found : Nat × Bool}
    (hτ : Lexeme.countGroups setting.flags.unicodeSets 0 τ.rest = found) :
    Lexeme.countGroups setting.flags.unicodeSets 0 σ.rest =
      (ls.length + found.1, ls.any Option.isSome || found.2) := by
  induction h with
  | refl => simp [hτ]
  | step hstep _ ih =>
    replace ih := ih hτ
    cases hstep with
    | bar => rw [Lexeme.countGroups_char rfl, ih, List.nil_append]
    | leaf _ hleaf hn => rw [hleaf.scans fun m hm => hq m (hn m hm), ih, List.nil_append]
    | opening hfits _ =>
      rename_i o r _ _
      have hallowed : o.Allowed ⟨r, 0, []⟩ r := Opening.allowed_iff.2 ⟨hfits, by simp⟩
      rw [Opening.scans hallowed _ 0, ih, tally, ← o.map_snd_node 0]
      simp [Nat.add_assoc, Bool.or_assoc, List.any_map, Function.comp_def]
    | closing => rw [Lexeme.countGroups_char rfl, ih, List.nil_append]
    | passing hpasses =>
      rw [List.nil_append, ← ih]
      cases hpasses with
      | repeatable _ | unrepeatable _ => rfl
      | repeated hquantifier =>
        obtain ⟨w, rfl, hw⟩ := (Lexeme.quantifier?_eq_some.1 hquantifier).quiet
        exact hw.countGroups _

variable {flags : Flags} {source : List Char} {labels : List (Option (List Char))} {r : Regex}

theorem Run.settingOf_eq (h : Run setting limit (Sound labels) ⟨[], none, source⟩ labels .finished)
    (hflags : setting.flags = flags) : settingOf flags source = settingFor flags labels := by
  have hcounts := h.counts (fun n hn => hn.unbracketed) rfl
  rw [hflags] at hcounts
  simp [settingOf, hcounts, State.finished, settingFor, Lexeme.countGroups]

/-- A run along a source is what the source is parsed as. -/
theorem Run.parses {limit : Nat} (hlimit : nestingLimit = limit + 1)
    (h : Run (settingFor flags labels) limit (Sound labels) ⟨[], none, source⟩ labels .finished)
    (hdistinct : (labels.filterMap id).Nodup) : ∃ r, Regex.parse source flags = .ok r := by
  have hsetting : settingOf flags source = settingFor flags labels := h.settingOf_eq rfl
  have hq (n : Node) (hclass : n.isClassLevel = false) (href : ∀ ref, n ≠ .backreference ref) :
      Sound labels n := sound_of_not_reference href (holdsBracket_of_not_classLevel hclass)
  rw [← hsetting] at h
  have hnames : labels.filterMap id ++ (⟨source, 0, []⟩ : Progress).names = labels.filterMap id :=
    List.append_nil _
  obtain ⟨ns, s', hbars, hns, hrest, hknown⟩ := h.continues hq (s := ⟨source, 0, []⟩) rfl
    (by rwa [hnames]) fun name hname => (by rwa [hnames] : name ∈ labels.filterMap id ++ _)
  have hread : disjunction (settingOf flags source) nestingLimit ⟨source, 0, []⟩ = .ok (ns, s') := by
    rw [hlimit]
    exact disjunction_iff.2 hbars
  refine ⟨_, Regex.parse_iff.2 ⟨ns, s', hread, hrest, fun name hpart => hknown name ?_, rfl⟩⟩
  have hsound : (choice .whole ns).Throughout (Sound labels) :=
    throughout_of_children hq rfl nofun hns
  exact List.mem_filterMap.2 ⟨_, (hsound _ hpart).name name rfl, rfl⟩

/-- No two groups of a parsed pattern have the same name. -/
theorem nodup_labels (h : Regex.parse source flags = .ok r) :
    (r.root.labels.filterMap id).Nodup := by
  obtain ⟨ns, s, hread, -, -, rfl⟩ := Regex.parse_iff.1 h
  have hopens := (kept_opens _).disjunction hread
  have hdistinct := hopens.distinct List.nodup_nil
  rw [hopens.names, List.append_nil, List.nodup_reverse] at hdistinct
  rw [labels, captures_of_capture?_eq_none rfl, List.filterMap_map]
  exact hdistinct

/-- Without bare brackets in strings, the references of a parsed pattern are to its groups. -/
theorem sound_of_parse (h : Regex.parse source flags = .ok r)
    (hbrackets : ∀ p ∈ r.walk, p.node.holdsBracket = false) :
    settingOf flags source = settingFor flags r.root.labels ∧
      r.root.Throughout (Sound r.root.labels) := by
  obtain ⟨ns, s, hread, hrest, hknown, rfl⟩ := Regex.parse_iff.1 h
  have hunbracketed : (choice .whole ns).Unbracketed := by
    intro m hm
    obtain ⟨q, hq, rfl⟩ := mem_walk_of_hasPart hm
    exact hbrackets q hq
  have hlabels : (choice .whole ns).labels = (ns.flatMap captures).map Prod.snd := by
    rw [labels, captures_of_capture?_eq_none rfl]
    rfl
  have hsetting : settingOf flags source = settingFor flags (choice .whole ns).labels := by
    rw [Regex.settingOf_eq hread hrest fun n hn => hunbracketed.child hn, hlabels, settingFor,
      List.length_map, List.any_map]
    rfl
  refine ⟨hsetting, fun m hm => ⟨?_, ?_, hunbracketed m hm⟩⟩
  · rintro k rfl
    have hrefers := refersWithin_of_children (n := choice .whole ns) nofun
      ((kept_refersWithin _).disjunction hread)
    have hle := (hrefers _ hm k rfl).2
    rwa [hsetting] at hle
  · rintro name rfl
    have hopens := (kept_opens _).disjunction hread
    have hname := hknown name hm
    rw [hopens.names, List.append_nil, List.mem_reverse, List.mem_filterMap] at hname
    obtain ⟨c, hc, hname⟩ := hname
    rw [hlabels]
    exact List.mem_map.2 ⟨c, hc, hname⟩

end Pattern

end RegexAudit
