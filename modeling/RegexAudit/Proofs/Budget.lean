import RegexAudit.Analysis.Cover
import RegexAudit.CharSet.KnownProperties

/-!
# The budget of a coverage search

All branches of a search take their steps from one budget. A call that runs out of it answers
`false`, and so does everything after it up to the end of the whole search; so a call that ends with
steps left has never run out, and goes the same way with any larger budget:

    (call budget).1 = true → ∃ steps, ∀ more ≥ budget, call more = (true, more - steps)
    (call fuel).2 = 0 → (call fuel).1 = false                              (Call.verdict_of_budget)

`Steady` says both at once of one search and one number of steps. Every way to put searches together
keeps it, and from that it goes up through the rounds of a row and the levels of the search. The
bound on rounds plays no part: every round takes a step (`loop_of_le`).
-/

namespace RegexAudit.Cover

/-! ## Steady searches -/

/-- Started with `fuel` steps, the search runs out and fails, or it ends with steps left and does the
same with more of them. -/
inductive Steady (search : Search) (fuel : Nat) : Prop
  | exhausted : search fuel = (false, 0) → Steady search fuel
  | ended (verdict : Bool) (left : Nat) : 0 < left → left ≤ fuel →
    (∀ more, search (fuel + more) = (verdict, left + more)) → Steady search fuel

namespace Steady

variable {search : Search} {fuel : Nat}

/-- Steps are only taken. -/
theorem le (h : Steady search fuel) : (search fuel).2 ≤ fuel := by
  cases h with
  | exhausted h =>
    rw [h]
    exact Nat.zero_le fuel
  | ended verdict left _ hle h =>
    have h0 : search fuel = (verdict, left) := h 0
    rw [h0]
    exact hle

theorem fails (h : Steady search fuel) (hleft : (search fuel).2 = 0) : (search fuel).1 = false := by
  cases h with
  | exhausted h => rw [h]
  | ended verdict left hpos _ h =>
    have h0 : search fuel = (verdict, left) := h 0
    rw [h0] at hleft
    exact absurd hleft (Nat.ne_of_gt hpos)

theorem succeeds (h : Steady search fuel) (htrue : (search fuel).1 = true) :
    ∃ steps, steps < fuel ∧ ∀ more, fuel ≤ more → search more = (true, more - steps) := by
  cases h with
  | exhausted h =>
    rw [h] at htrue
    cases htrue
  | ended verdict left hpos hle h =>
    have h0 : search fuel = (verdict, left) := h 0
    rw [h0] at htrue
    obtain rfl : verdict = true := htrue
    refine ⟨fuel - left, by omega, fun more hmore => ?_⟩
    obtain ⟨k, rfl⟩ := Nat.exists_eq_add_of_le hmore
    rw [h k, show fuel + k - (fuel - left) = left + k by omega]

end Steady

section
variable {first second : Search} {fuel : Nat} {α : Type} {search : α → Search} {xs : List α}

theorem steady_tick {next : Search} (h : 1 < fuel → Steady next (fuel - 1)) :
    Steady (tick next) fuel := by
  by_cases hfuel : 1 < fuel
  · cases h hfuel with
    | exhausted h =>
      refine .exhausted ?_
      rw [tick, if_pos hfuel, h]
    | ended verdict left hpos hle h =>
      refine .ended verdict left hpos (by omega) fun more => ?_
      rw [tick, if_pos (by omega), show fuel + more - 1 = fuel - 1 + more by omega, h]
  · exact .exhausted (by rw [tick, if_neg hfuel])

theorem steady_done (verdict : Bool) (h : 0 < fuel) : Steady (done verdict) fuel :=
  .ended verdict fuel h (Nat.le_refl fuel) fun _ => rfl

theorem steady_fail (fuel : Nat) : Steady (done false) fuel := by
  cases fuel with
  | zero => exact .exhausted rfl
  | succ fuel => exact steady_done false (Nat.succ_pos fuel)

/-- The second search is only started if the first one succeeds, so with steps left. -/
theorem steady_andThen (h : Steady first fuel)
    (h' : ∀ left, 0 < left → left ≤ fuel → Steady second left) :
    Steady (andThen first second) fuel := by
  cases h with
  | exhausted h => exact .exhausted (by rw [andThen, h])
  | ended verdict left hpos hle h =>
    have h0 : first fuel = (verdict, left) := h 0
    cases verdict with
    | false => exact .ended false left hpos hle fun more => by rw [andThen, h]
    | true =>
      cases h' left hpos hle with
      | exhausted h' => exact .exhausted (by rw [andThen, h0]; exact h')
      | ended verdict left' hpos' hle' h' =>
        refine .ended verdict left' hpos' (Nat.le_trans hle' hle) fun more => ?_
        rw [andThen, h]
        exact h' more

/-- The second search is also started if the first one has used up all steps, and fails with it. -/
theorem steady_orElse (h : Steady first fuel) (h' : ∀ left, left ≤ fuel → Steady second left) :
    Steady (orElse first second) fuel := by
  cases h with
  | exhausted h =>
    cases h' 0 (Nat.zero_le fuel) with
    | exhausted h' => exact .exhausted (by rw [orElse, h]; exact h')
    | ended _ _ hpos hle _ => omega
  | ended verdict left hpos hle h =>
    have h0 : first fuel = (verdict, left) := h 0
    cases verdict with
    | true => exact .ended true left hpos hle fun more => by rw [orElse, h]
    | false =>
      cases h' left hle with
      | exhausted h' => exact .exhausted (by rw [orElse, h0]; exact h')
      | ended verdict left' hpos' hle' h' =>
        refine .ended verdict left' hpos' (Nat.le_trans hle' hle) fun more => ?_
        rw [orElse, h]
        exact h' more

theorem steady_everyOf (hfuel : 0 < fuel)
    (h : ∀ x ∈ xs, ∀ left, left ≤ fuel → Steady (search x) left) :
    Steady (everyOf search xs) fuel := by
  induction xs generalizing fuel with
  | nil => exact steady_done true hfuel
  | cons x xs ih =>
    rw [List.forall_mem_cons] at h
    refine steady_andThen (h.1 fuel (Nat.le_refl fuel)) fun left hpos hle => ?_
    exact ih hpos fun y hy left' hle' => h.2 y hy left' (Nat.le_trans hle' hle)

theorem steady_someOf (h : ∀ x ∈ xs, ∀ left, left ≤ fuel → Steady (search x) left) :
    Steady (someOf search xs) fuel := by
  induction xs generalizing fuel with
  | nil => exact steady_fail fuel
  | cons x xs ih =>
    rw [List.forall_mem_cons] at h
    refine steady_orElse (h.1 fuel (Nat.le_refl fuel)) fun left hle => ?_
    exact ih fun y hy left' hle' => h.2 y hy left' (Nat.le_trans hle' hle)

end

/-! ## One level of the search -/

/-- Both kinds of comparisons are steady, with any number of steps. -/
structure Inner.Steady (inner : Inner) : Prop where
  node (left right : Form) (loose : Bool) (fuel : Nat) : Cover.Steady (inner.node left right loose) fuel
  rows (left right : List Form) (loose : Bool) (fuel : Nat) :
    Cover.Steady (inner.rows left right loose) fuel

section
variable {inner : Inner} {loose : Bool} {fuel : Nat}

theorem unrollRight_eq (inner : Inner) (left right : List Form) (element : Form)
    (max : Option Nat) (loose : Bool) : unrollRight inner left right element max loose =
      andThen (inner.rows left right loose)
        (if element.canBeEmpty then done false
        else inner.rows left (element :: consOptional element (max.map (· - 1)) right) loose) := by
  funext fuel
  unfold unrollRight andThen
  rcases inner.rows left right loose fuel with ⟨verdict, left⟩
  cases verdict with
  | false => rfl
  | true => cases element.canBeEmpty <;> rfl

theorem steady_unrollRight (hin : inner.Steady) (left right : List Form) (element : Form)
    (max : Option Nat) (loose : Bool) (fuel : Nat) :
    Steady (unrollRight inner left right element max loose) fuel := by
  rw [unrollRight_eq]
  refine steady_andThen (hin.rows _ _ _ _) fun left _ _ => ?_
  split
  · exact steady_fail left
  · exact hin.rows _ _ _ _

theorem steady_optionalHeads (hin : inner.Steady) (l : Form) (m : Option Nat) (left : List Form)
    (r : Form) (n : Option Nat) (right : List Form) :
    Steady (optionalHeads inner l m left r n right loose) fuel := by
  refine steady_orElse (steady_andThen (hin.node _ _ _ _) fun steps _ _ => ?_) fun steps _ =>
    steady_unrollRight hin _ _ _ _ _ _
  split <;> exact hin.rows _ _ _ _

theorem steady_byHeads (hin : inner.Steady) {next : List Form → List Form → Search}
    (hfuel : 0 < fuel) (hnext : ∀ left right steps, steps ≤ fuel → Steady (next left right) steps)
    (left right : List Form) : Steady (byHeads inner next loose left right) fuel := by
  unfold byHeads
  split
  · exact steady_everyOf hfuel fun _ _ _ _ => hin.rows _ _ _ _
  · exact steady_someOf fun _ _ _ _ => hin.rows _ _ _ _
  · exact steady_done _ hfuel
  · exact steady_done _ hfuel
  · exact steady_optionalHeads hin _ _ _ _ _ _
  · exact steady_unrollRight hin _ _ _ _ _ _
  · rename_i l _ _ _ _ _
    cases l.canBeEmpty with
    | true =>
      simp only [if_true]
      have hfail : ∀ steps ≤ fuel, Steady (done false) steps := fun steps _ => steady_fail steps
      exact steady_orElse (hin.rows _ _ _ _) hfail
    | false =>
      simp only [Bool.false_eq_true, if_false]
      exact steady_orElse (hin.rows _ _ _ _) fun steps hle => hnext _ _ steps hle
  · exact steady_andThen (hin.node _ _ _ _) fun steps _ hle => hnext _ _ steps hle

/-- What goes on after the heads is only asked for with the steps that are left. -/
theorem byHeads_congr (hin : inner.Steady) {next next' : List Form → List Form → Search}
    (hnext : ∀ left right steps, steps ≤ fuel → next left right steps = next' left right steps)
    (left right : List Form) :
    byHeads inner next loose left right fuel = byHeads inner next' loose left right fuel := by
  unfold byHeads
  split
  · rfl
  · rfl
  · rfl
  · rfl
  · rfl
  · rfl
  · rename_i left _ _ _
    have hle := (hin.rows left right loose fuel).le
    rcases hrows : inner.rows left right loose fuel with ⟨verdict, steps⟩
    rw [hrows] at hle
    cases verdict with
    | true => rfl
    | false => simp only [hnext _ _ steps hle]
  · rename_i l _ r _ _ _ _ _ _
    have hle := (hin.node l r false fuel).le
    unfold andThen
    rcases hnode : inner.node l r false fuel with ⟨verdict, steps⟩
    rw [hnode] at hle
    cases verdict with
    | true => exact hnext _ _ steps hle
    | false => rfl

/-- Every round takes a step, so more rounds than steps are the same as any other number. -/
theorem loop_of_le (hin : inner.Steady) {rounds rounds' : Nat} (left right : List Form)
    (h : fuel ≤ rounds) (h' : fuel ≤ rounds') :
    loop inner loose rounds left right fuel = loop inner loose rounds' left right fuel := by
  induction rounds generalizing rounds' left right fuel with
  | zero =>
    obtain rfl : fuel = 0 := Nat.le_zero.1 h
    cases rounds' <;> rfl
  | succ rounds ih =>
    cases rounds' with
    | zero =>
      obtain rfl : fuel = 0 := Nat.le_zero.1 h'
      rfl
    | succ rounds' =>
      simp only [loop, tick]
      split
      · refine byHeads_congr hin (fun left right steps hle => ?_) _ _
        exact ih left right (by omega) (by omega)
      · rfl

/-- The rows of one level, compared by their heads and then by the rows that are left. -/
theorem loop_eq (hin : inner.Steady) (loose : Bool) (left right : List Form) :
    (fun fuel => loop inner loose fuel left right fuel) =
      tick (byHeads inner (fun left right fuel => loop inner loose fuel left right fuel) loose
        (exposedRow (if loose then withoutOptionalEnd left else left)) (exposedRow right)) := by
  funext fuel
  cases fuel with
  | zero => rfl
  | succ fuel =>
    simp only [loop, tick]
    split
    · refine byHeads_congr hin (fun left right steps hle => ?_) _ _
      exact loop_of_le hin left right (by omega) (Nat.le_refl steps)
    · rfl

theorem steady_loop (hin : inner.Steady) (loose : Bool) (left right : List Form) (fuel : Nat) :
    Steady (fun fuel => loop inner loose fuel left right fuel) fuel := by
  induction fuel using Nat.strongRecOn generalizing left right with
  | ind fuel ih =>
    rw [loop_eq hin]
    refine steady_tick fun hfuel => ?_
    refine steady_byHeads hin (by omega) (fun left right steps hle => ?_) _ _
    exact ih steps (by omega) left right

theorem steady_byForm (hin : inner.Steady) (equal : Node → Node → Bool)
    (forms : List Node → List Form) (left right : Form) (hfuel : 0 < fuel) :
    Steady (byForm equal forms inner left right loose) fuel := by
  unfold byForm
  split
  · exact steady_everyOf hfuel fun _ _ _ _ => hin.node _ _ _ _
  · exact steady_someOf fun _ _ _ _ => hin.node _ _ _ _
  · exact hin.rows _ _ _ _
  · exact hin.rows _ _ _ _
  · exact hin.rows _ _ _ _
  · exact hin.rows _ _ _ _
  · exact steady_done _ hfuel
  · exact steady_done _ hfuel
  · split
    · exact steady_everyOf hfuel fun _ _ _ _ => steady_someOf fun _ _ _ _ => hin.node _ _ _ _
    · exact steady_done _ hfuel
  · exact steady_done _ hfuel

end

/-! ## The whole search -/

/-- Every level of the search is steady. -/
theorem steady_within (equal : Node → Node → Bool) (forms : List Node → List Form) (depth : Nat) :
    (within equal forms depth).Steady := by
  induction depth with
  | zero => exact ⟨fun _ _ _ => steady_fail, fun _ _ _ => steady_fail⟩
  | succ depth ih =>
    constructor
    · intro left right loose fuel
      exact steady_tick fun hfuel => steady_byForm ih equal forms left right (by omega)
    · intro left right loose fuel
      exact steady_loop ih loose left right fuel

/-- A call of the search: two forms or two rows are compared, or the optional head of the right row
is unrolled. -/
inductive Call where
  | node (left right : Form) (loose : Bool)
  | rows (left right : List Form) (loose : Bool)
  | unrollRight (left right : List Form) (element : Form) (max : Option Nat) (loose : Bool)

/-- What a call does, with the comparisons one level further down. -/
def Call.search (inner : Inner) : Call → Search
  | node left right loose => inner.node left right loose
  | rows left right loose => inner.rows left right loose
  | unrollRight left right element max loose =>
    Cover.unrollRight inner left right element max loose

theorem Call.steady {inner : Inner} (hin : inner.Steady) (call : Call) (fuel : Nat) :
    Steady (call.search inner) fuel := by
  cases call with
  | node left right loose => exact hin.node left right loose fuel
  | rows left right loose => exact hin.rows left right loose fuel
  | unrollRight left right element max loose =>
    exact steady_unrollRight hin left right element max loose fuel

/-- Running out of steps can only turn `true` into `false`. A call that answers `true` with some
budget answers `true` with any larger one, after the same number of steps; and as steps are never
given back, a call that has none left at any moment ends with none, and answers `false`. -/
theorem Call.verdict_of_budget (equal : Node → Node → Bool) (forms : List Node → List Form)
    (depth : Nat) (call : Call) :
    (∀ budget, (call.search (within equal forms depth) budget).1 = true →
      ∃ steps, steps < budget ∧ ∀ more, budget ≤ more →
        call.search (within equal forms depth) more = (true, more - steps)) ∧
    ∀ fuel, (call.search (within equal forms depth) fuel).2 ≤ fuel ∧
      ((call.search (within equal forms depth) fuel).2 = 0 →
        (call.search (within equal forms depth) fuel).1 = false) := by
  have hsteady := call.steady (steady_within equal forms depth)
  exact ⟨fun budget => (hsteady budget).succeeds, fun fuel => ⟨(hsteady fuel).le, (hsteady fuel).fails⟩⟩

/-- That `a?[ab]*` covers `[ab]a{0,2}` is found in nine steps, with any budget above nine and with
no other. -/
theorem Call.verdict_of_budget_optional :
    let a : Form := .chars (.singleton 'a')
    let b : Form := .chars (.span 'a' 'b')
    let call : Call := .node (.seq [.optional a (some 1), .optional b none])
      (.seq [b, .optional a (some 2)]) false
    let search := call.search
      (within (Comparison.equal { flags := .empty }) (Form.ofNodes .empty) depthLimit)
    (search 10).1 = true ∧
      (∃ steps, steps < 10 ∧ ∀ more, 10 ≤ more → search more = (true, more - steps)) ∧
      (search 9).2 = 0 ∧ (search 9).1 = false := by
  intro a b call search
  have henough : (search 10).1 = true := by decide +kernel
  have hout : (search 9).2 = 0 := by decide +kernel
  have hbudget := verdict_of_budget (Comparison.equal { flags := .empty }) (Form.ofNodes .empty)
    depthLimit call
  exact ⟨henough, hbudget.1 10 henough, hout, (hbudget.2 9).2 hout⟩

end RegexAudit.Cover
