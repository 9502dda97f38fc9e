import Mathlib.Data.List.Sort
import Mathlib.Data.Prod.Lex
import RegexAudit.CommandLine
import RegexAudit.Proofs.Duplicates
import RegexAudit.Proofs.KeptForms

/-!
# Sessions of the linter

To report the diagnostics of some rules only, one may run all rules and pick, or run these rules only:

    (lint rules subject).filter (wanted ·.rule.name) = lint (rules.filter (wanted ·.name)) subject

Rules share more than the list they report to. Canonical forms are kept by the number of the node they
are of (`Proofs.KeptForms`), and what one rule has kept the next one finds. `Session` runs the rules
one after the other with this memory. Whatever the rules before have left there, a rule reports the
same, because all that is kept is right (`Kept.Memo.Sound`):

    Session.lint rules subject = lint rules subject                             (lint_selected)
-/

namespace RegexAudit

/-! ## Stable sorting -/

section
variable {le : α → α → Bool} {p : α → Bool} {x : α} {xs : List α}

theorem insertBy_eq_orderedInsert :
    insertBy le x xs = xs.orderedInsert (fun a b => le a b = true) x := by
  induction xs with
  | nil => rfl
  | cons y ys ih => rw [insertBy, ih, List.orderedInsert_cons]

theorem sortBy_eq_insertionSort : sortBy le xs = xs.insertionSort fun a b => le a b = true := by
  induction xs with
  | nil => rfl
  | cons x xs ih => rw [sortBy, ih, insertBy_eq_orderedInsert, List.insertionSort_cons]

theorem insertBy_of_forall (h : ∀ y ∈ xs, le x y = true) : insertBy le x xs = x :: xs := by
  cases xs with
  | nil => rfl
  | cons y ys => exact if_pos (h y List.mem_cons_self)

theorem filter_insertBy_neg (hx : p x = false) : (insertBy le x xs).filter p = xs.filter p := by
  induction xs with
  | nil => simp [insertBy, hx]
  | cons y ys ih =>
    rw [insertBy]
    split
    · rw [List.filter_cons, hx, if_neg Bool.false_ne_true]
    · rw [List.filter_cons, List.filter_cons, ih]

variable [IsTrans α fun a b => le a b = true]

theorem filter_insertBy_pos (hx : p x = true) (hxs : xs.Pairwise fun a b => le a b = true) :
    (insertBy le x xs).filter p = insertBy le x (xs.filter p) := by
  induction xs with
  | nil => simp [insertBy, hx]
  | cons y ys ih =>
    obtain ⟨hy, hys⟩ := List.pairwise_cons.1 hxs
    rw [insertBy]
    split
    · rename_i hle
      rw [List.filter_cons_of_pos hx, insertBy_of_forall]
      intro z hz
      rcases List.mem_cons.1 (List.mem_filter.1 hz).1 with rfl | hz
      · exact hle
      · exact IsTrans.trans (r := fun a b => le a b = true) x y z hle (hy z hz)
    · rename_i hle
      cases hpy : p y with
      | true =>
        rw [List.filter_cons_of_pos hpy, List.filter_cons_of_pos hpy, insertBy, if_neg hle, ih hys]
      | false =>
        have hneg : ¬ p y = true := by rw [hpy]; exact Bool.false_ne_true
        rw [List.filter_cons_of_neg hneg, List.filter_cons_of_neg hneg, ih hys]

variable [Std.Total fun a b => le a b = true]

theorem sorted_sortBy (xs : List α) : (sortBy le xs).Pairwise fun a b => le a b = true := by
  rw [sortBy_eq_insertionSort]
  exact List.pairwise_insertionSort _ xs

/-- It makes no difference whether members are picked before or after they are put in order. -/
theorem filter_sortBy (p : α → Bool) (xs : List α) :
    (sortBy le xs).filter p = sortBy le (xs.filter p) := by
  induction xs with
  | nil => rfl
  | cons x xs ih =>
    rw [sortBy]
    cases hx : p x with
    | true => rw [filter_insertBy_pos hx (sorted_sortBy xs), ih, List.filter_cons_of_pos hx, sortBy]
    | false =>
      rw [filter_insertBy_neg hx, ih, List.filter_cons_of_neg (by rw [hx]; exact Bool.false_ne_true)]

end

/-! ## The order of diagnostics -/

namespace Diagnostic

/-- What diagnostics are ordered by. -/
def span (d : Diagnostic) : Nat ×ₗ Nat := toLex (d.finding.start, d.finding.stop)

variable {d e : Diagnostic}

theorem le_iff : le d e = true ↔ d.span ≤ e.span := by
  rw [span, span, Prod.Lex.toLex_le_toLex, le, Bool.or_eq_true, Bool.and_eq_true, decide_eq_true_iff,
    decide_eq_true_iff, beq_iff_eq]

instance : IsTrans Diagnostic fun d e => le d e = true where
  trans _ _ _ hde hef := le_iff.2 (le_trans (le_iff.1 hde) (le_iff.1 hef))

instance : Std.Total fun d e : Diagnostic => le d e = true where
  total d e := (le_total d.span e.span).imp le_iff.2 le_iff.2

end Diagnostic

/-- What a rule reports, in its order. -/
def Rule.reports [Properties] (subject : Subject) (rule : Rule) : List Diagnostic :=
  (rule.check subject).map (Diagnostic.mk rule)

section
variable [Properties] (rules : List Rule) (subject : Subject)

theorem lint_eq : lint rules subject = sortBy Diagnostic.le (rules.flatMap (Rule.reports subject)) :=
  rfl

theorem sorted_lint : (lint rules subject).Pairwise fun d e => d.span ≤ e.span :=
  (sorted_sortBy (rules.flatMap (Rule.reports subject))).imp Diagnostic.le_iff.1

/-- Diagnostics of one place come in the order they were reported in. -/
theorem filter_span_lint (span : Nat ×ₗ Nat) :
    (lint rules subject).filter (fun d => d.span = span) =
      (rules.flatMap (Rule.reports subject)).filter fun d => d.span = span := by
  rw [lint_eq, filter_sortBy, sortBy_eq_insertionSort]
  refine List.Pairwise.insertionSort_eq (List.pairwise_of_forall_mem_list fun d hd e he => ?_)
  have hd := of_decide_eq_true (List.mem_filter.1 hd).2
  have he := of_decide_eq_true (List.mem_filter.1 he).2
  exact Diagnostic.le_iff.2 (le_of_eq (hd.trans he.symm))

theorem filter_reports (wanted : String → Bool) (rule : Rule) :
    (rule.reports subject).filter (fun d => wanted d.rule.name) =
      if wanted rule.name then rule.reports subject else [] := by
  rw [Rule.reports, List.filter_map]
  show ((rule.check subject).filter fun _ => wanted rule.name).map _ = _
  cases wanted rule.name with
  | true => rw [List.filter_true, if_pos rfl]
  | false => rw [List.filter_false, if_neg Bool.false_ne_true, List.map_nil]

/-- The diagnostics of wanted rules are those of a run of these rules. -/
theorem filter_lint (wanted : String → Bool) :
    (lint rules subject).filter (fun d => wanted d.rule.name) =
      lint (rules.filter fun rule => wanted rule.name) subject := by
  rw [lint_eq, lint_eq, filter_sortBy]
  congr 1
  induction rules with
  | nil => rfl
  | cons rule rules ih =>
    rw [List.flatMap_cons, List.filter_append, filter_reports, ih, List.filter_cons]
    split
    · rw [List.flatMap_cons]
    · rw [List.nil_append]

theorem CommandLine.filter_isWanted (options : Options) :
    (lint rules subject).filter (isWanted options) =
      lint (rules.filter fun rule => options.rules.isEmpty || options.rules.contains rule.name)
        subject :=
  filter_lint rules subject fun name => options.rules.isEmpty || options.rules.contains name

end

/-! ## Useless alternatives with kept forms -/

open Kept in
/-- Whether one place covers another one, by their kept forms. -/
def Coverage.coversAt [Properties] (c : Coverage) (left right : Place) : StateM Memo Bool :=
  let equal := Comparison.equal { flags := c.flags, resolve? := c.resolve? }
  if equal left.node right.node then return true
  else do
    let l ← formAt c.flags left.position left.node
    let r ← formAt c.flags right.position right.node
    let (verdict, _) ←
      (within equal c.flags Cover.depthLimit).node l r c.loose Cover.stepBudget
    return verdict

namespace DuplicateAlternative

open Kept

/-- The alternatives before the one at a place, in the same group, with their places. -/
def earlierPlaces (p : Place) : List Place :=
  match p.trail with
  | s :: up =>
    if s.parent.alternatives.isEmpty then []
    else (Place.children ⟨s.parent, s.position, s.start, up⟩).take s.slot
  | [] => []

/-- The finding about the alternative at a place, by kept forms. -/
def findingAt [Properties]
    (regex : Regex) (subsets : Bool) (p : Place) : StateM Memo (Option Finding) :=
  let resolve? := some regex.resolve?
  let comparison : Comparison := { flags := regex.flags, resolve? }
  let coverage : Coverage := { flags := regex.flags, resolve? }
  match (earlierPlaces p).find? fun q => comparison.equal q.node p.node with
  | some q => return some (.about p (duplicateMessage q.node) (removal? p))
  | none =>
    if subsets then do
      let found ← (earlierPlaces p).findM? fun q => coverage.coversAt q p
      return found.map fun q => .about p (subsetMessage q.node) none
    else return none

variable {regex : Regex} {p q : Place}

theorem map_node_earlierPlaces (p : Place) : (earlierPlaces p).map Place.node = earlier p := by
  unfold earlierPlaces earlier
  cases p.trail with
  | nil => rfl
  | cons s up =>
    cases halternatives : s.parent.alternatives with
    | nil => simp [halternatives]
    | cons n ns =>
      have hmem : n ∈ s.parent.alternatives := by
        rw [halternatives]
        exact List.mem_cons_self
      obtain ⟨-, -, hchildren⟩ := alternatives_eq_children hmem
      show ((if s.parent.alternatives.isEmpty then [] else _).map Place.node) =
        s.parent.alternatives.take s.slot
      rw [halternatives, List.isEmpty_cons, if_neg Bool.false_ne_true, List.map_take,
        Place.map_node_children, ← hchildren, halternatives]

theorem mem_walk_of_mem_earlierPlaces (hp : p ∈ regex.walk) (hq : q ∈ earlierPlaces p) :
    q ∈ regex.walk := by
  obtain rfl | ⟨r, hr, hchild⟩ := Place.exists_parent_below (p := ⟨regex.root, 0, 0, []⟩) hp
  · cases hq
  · obtain ⟨i, -, htrail⟩ := Place.slot_of_mem_children hchild
    rw [earlierPlaces, htrail] at hq
    simp only at hq
    split at hq
    · cases hq
    · exact Place.mem_below_of_mem_children hr (List.mem_of_mem_take hq)

variable [Properties]

theorem recalls_coversAt {resolve? : Option (GroupRef → Option Nat)} {loose : Bool}
    (hp : p ∈ regex.walk) (hq : q ∈ regex.walk) :
    Recalls regex (Coverage.coversAt ⟨regex.flags, resolve?, loose⟩ p q)
      (Coverage.covers ⟨regex.flags, resolve?, loose⟩ p.node q.node) := by
  unfold Coverage.coversAt Coverage.covers
  simp only
  cases Comparison.equal { flags := regex.flags, resolve? } p.node q.node with
  | true => exact .pure true
  | false =>
    refine (gives_formAt hp).bind fun k hk => (gives_formAt hq).bind fun l hl => ?_
    exact (agrees_within Cover.depthLimit).node loose hk hl Cover.stepBudget |>.bind (.pure _)

theorem recalls_findM? {test : Place → StateM Memo Bool} {passes : Place → Bool} {qs : List Place}
    (h : ∀ q ∈ qs, Recalls regex (test q) (passes q)) :
    Recalls regex (qs.findM? test) (qs.find? passes) := by
  induction qs with
  | nil => exact .pure none
  | cons q qs ih =>
    rw [List.forall_mem_cons] at h
    rw [List.findM?, List.find?_cons]
    refine h.1.bind ?_
    cases passes q with
    | true => exact .pure (some q)
    | false => exact ih h.2

/-- The finding about a place, by kept forms or by new ones. -/
theorem recalls_findingAt (subsets : Bool) (hp : p ∈ regex.walk) :
    Recalls regex (findingAt regex subsets p) (finding? regex subsets p) := by
  unfold findingAt finding?
  simp only [← map_node_earlierPlaces, List.find?_map, Function.comp_def]
  cases (earlierPlaces p).find? fun q =>
      Comparison.equal { flags := regex.flags, resolve? := some regex.resolve? } q.node p.node with
  | some q => exact .pure _
  | none =>
    cases subsets with
    | false => exact .pure none
    | true =>
      simp only [if_true, Option.map_map]
      refine (recalls_findM? fun q hq => ?_).bind (.pure _)
      exact recalls_coversAt (mem_walk_of_mem_earlierPlaces hp hq) hp

end DuplicateAlternative

/-! ## Sessions -/

/-- What the rules of one run share: the kept forms, and what was reported so far. -/
structure Session where
  memo : Kept.Memo := []
  diagnostics : List Diagnostic := []

variable [Properties]

namespace Session

open Kept

/-- What a rule finds; one of the rules looks forms up. -/
def findings (subject : Subject) : Rule → StateM Memo (List Finding)
  | .duplicateAlternative subsets =>
    subject.regex.walk.filterMapM (DuplicateAlternative.findingAt subject.regex subsets)
  | rule => return rule.check subject

/-- Run one more rule. -/
def run (subject : Subject) (s : Session) (rule : Rule) : Session :=
  let (found, memo) := findings subject rule s.memo
  ⟨memo, s.diagnostics ++ found.map (Diagnostic.mk rule)⟩

/-- Run the rules one after the other, and put what they report in order. -/
def lint (rules : List Rule) (subject : Subject) : List Diagnostic :=
  sortBy Diagnostic.le (rules.foldl (run subject) {}).diagnostics

variable {α β : Type} {regex : Regex} {subject : Subject}

theorem recalls_filterMapM {f : α → StateM Memo (Option β)} {value : α → Option β} {xs : List α}
    (h : ∀ x ∈ xs, Recalls regex (f x) (value x)) :
    Recalls regex (xs.filterMapM f) (xs.filterMap value) := by
  induction xs with
  | nil => exact .pure []
  | cons x xs ih =>
    rw [List.forall_mem_cons] at h
    rw [List.filterMapM_cons, List.filterMap_cons]
    refine h.1.bind ?_
    cases value x with
    | none => exact ih h.2
    | some b => exact (ih h.2).bind (.pure _)

theorem recalls_findings (rule : Rule) :
    Recalls subject.regex (findings subject rule) (rule.check subject) := by
  cases rule with
  | duplicateAlternative subsets =>
    exact recalls_filterMapM fun p hp => DuplicateAlternative.recalls_findingAt subsets hp
  | _ => exact .pure _

/-- A rule adds what it reports, whatever forms the rules before it have kept. -/
theorem run_reports {s : Session} (h : s.memo.Sound subject.regex) (rule : Rule) :
    (run subject s rule).diagnostics = s.diagnostics ++ rule.reports subject ∧
      (run subject s rule).memo.Sound subject.regex := by
  obtain ⟨hvalue, hkept⟩ := recalls_findings rule s.memo h
  refine ⟨?_, hkept⟩
  show s.diagnostics ++ (findings subject rule s.memo).1.map _ = _
  rw [hvalue, Rule.reports]

theorem foldl_run (rules : List Rule) {s : Session} (h : s.memo.Sound subject.regex) :
    (rules.foldl (run subject) s).diagnostics =
      s.diagnostics ++ rules.flatMap (Rule.reports subject) := by
  induction rules generalizing s with
  | nil => exact (List.append_nil _).symm
  | cons rule rules ih =>
    obtain ⟨hreports, hkept⟩ := run_reports h rule
    rw [List.foldl_cons, ih hkept, hreports, List.append_assoc, List.flatMap_cons]

/-- The memory does not show. -/
theorem lint_eq_lint (rules : List Rule) (subject : Subject) :
    lint rules subject = RegexAudit.lint rules subject := by
  have hempty : Memo.Sound subject.regex [] := List.forall_mem_nil _
  rw [lint, foldl_run rules hempty, List.nil_append, lint_eq]

end Session

/-- To pick the diagnostics of wanted rules is to run these rules only. Diagnostics come in the order
of their places, those of one place in the order of the rules and then as they were reported; and they
are the same whether or not the rules share what they found out about forms. -/
theorem lint_selected (rules : List Rule) (subject : Subject) (wanted : String → Bool) :
    (lint rules subject).filter (fun d => wanted d.rule.name) =
        lint (rules.filter fun rule => wanted rule.name) subject ∧
      (lint rules subject).Pairwise (fun d e => d.span ≤ e.span) ∧
      (∀ span, (lint rules subject).filter (fun d => d.span = span) =
        (rules.flatMap fun rule => (rule.check subject).map (Diagnostic.mk rule)).filter
          fun d => d.span = span) ∧
      Session.lint rules subject = lint rules subject :=
  ⟨filter_lint rules subject wanted, sorted_lint rules subject, filter_span_lint rules subject,
    Session.lint_eq_lint rules subject⟩

end RegexAudit
