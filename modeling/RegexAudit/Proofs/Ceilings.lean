import Mathlib.Logic.Relation
import RegexAudit.CharSet.KnownProperties
import RegexAudit.Proofs.Budget
import RegexAudit.Proofs.Coverage
import RegexAudit.Proofs.FormShapes

/-!
# Ceilings of optional parts

A coverage search takes optional parts apart: it takes one repetition of a part, or as many from one
side as the other side may have. A part that may be repeated zero times would make these numbers
negative. No search that starts at canonical forms comes to such a part:

    Reached (Form.ofNodes flags) (.node (Form.ofNode flags left) (Form.ofNode flags right) loose) call →
      call.All Form.Positive                                                       (ceilings_positive)

`Makes` lists what the search turns to from a call, a round of the row loop included, whatever the
comparisons before it have found and however many steps are left. It lists everything: what a level of
the search answers to a call depends on nothing but the answers to the calls that it makes, one level
further down (`agreeOn_level`).
-/

namespace RegexAudit

namespace Form

/-- No optional part in the form may be repeated zero times only. -/
def Positive (f : Form) : Prop :=
  ∀ element max, f.HasPart (optional element max) → ∀ m, max = some m → 1 ≤ m

theorem Fits.parts {p : Node → Prop} {f : Form} (h : f.Fits p) : ∀ g ∈ f.parts, g.Fits p := by
  cases f with
  | seq items => exact (fits_seq items).1 h
  | choice alternatives => exact (fits_choice alternatives).1 h
  | optional element max => exact List.forall_mem_singleton.2 ((fits_optional element max).1 h).2
  | other _ | chars _ | look _ _ _ => nofun

theorem Fits.positive {p : Node → Prop} {f : Form} (h : f.Fits p) : f.Positive := by
  have hparts {g : Form} (hg : f.HasPart g) : g.Fits p := by
    induction hg with
    | self => exact h
    | part _ hmem ih => exact ih.parts _ hmem
  rintro element max hpart m rfl
  have hmax : some m ≠ some 0 := ((fits_optional element _).1 (hparts hpart)).1
  exact Nat.one_le_iff_ne_zero.2 fun hm => hmax (congrArg some hm)

end Form

namespace Cover

/-- What a search turns to from a call: the comparisons it makes, the rows of a round once their
heads are taken apart, and those of the round after it. -/
inductive Makes (forms : List Node → List Form) : Call → Call → Prop
  | rightOf {left r : Form} {rs : List Form} {loose : Bool} : r ∈ rs →
    Makes forms (.node left (.choice rs) loose) (.node left r loose)
  | leftOf {l right : Form} {ls : List Form} {loose : Bool} : l ∈ ls →
    Makes forms (.node (.choice ls) right loose) (.node l right loose)
  | asRows {left right : Form} {loose : Bool} :
    Makes forms (.node left right loose) (.rows left.items right.items loose)
  | looks {l r : Form} {xs ys : List Node} {d : Direction} {loose : Bool} :
    l ∈ forms xs → r ∈ forms ys →
    Makes forms (.node (.look d false xs) (.look d false ys) loose) (.node l r (d == .forward))
  | ready {left right : List Form} {loose : Bool} :
    Makes forms (.rows left right loose)
      (.rows (exposedRow (if loose then withoutOptionalEnd left else left)) (exposedRow right) loose)
  | rightHead {left right rs : List Form} {r : Form} {loose : Bool} : r ∈ rs →
    Makes forms (.rows left (.choice rs :: right) loose) (.rows left (r :: right) loose)
  | leftHead {left right ls : List Form} {l : Form} {loose : Bool} : l ∈ ls →
    Makes forms (.rows (.choice ls :: left) right loose) (.rows (l :: left) right loose)
  | heads {left right : List Form} {l r : Form} {loose : Bool} :
    Makes forms (.rows (l :: left) (r :: right) loose) (.node l r false)
  | tails {left right : List Form} {l r : Form} {loose : Bool} :
    Makes forms (.rows (l :: left) (r :: right) loose) (.rows left right loose)
  | optionals {left right : List Form} {l r : Form} {m n : Option Nat} {loose : Bool} :
    Makes forms (.rows (.optional l m :: left) (.optional r n :: right) loose) (.node l r false)
  | moreOnLeft {left right : List Form} {l r : Form} {m n : Option Nat} {loose : Bool} :
    atLeast m n = true →
    Makes forms (.rows (.optional l m :: left) (.optional r n :: right) loose)
      (.rows (consOptional l (less m n) left) right loose)
  | moreOnRight {left right : List Form} {l r : Form} {m n : Option Nat} {loose : Bool} :
    atLeast m n = false →
    Makes forms (.rows (.optional l m :: left) (.optional r n :: right) loose)
      (.rows left (consOptional r (less n m) right) loose)
  | unroll {left right : List Form} {r : Form} {n : Option Nat} {loose : Bool} :
    Makes forms (.rows left (.optional r n :: right) loose) (.unrollRight left right r n loose)
  | leaveRight {left right : List Form} {r : Form} {n : Option Nat} {loose : Bool} :
    Makes forms (.unrollRight left right r n loose) (.rows left right loose)
  | takeRight {left right : List Form} {r : Form} {n : Option Nat} {loose : Bool} :
    Makes forms (.unrollRight left right r n loose)
      (.rows left (r :: consOptional r (n.map (· - 1)) right) loose)
  | leaveLeft {left right : List Form} {l : Form} {m : Option Nat} {loose : Bool} :
    Makes forms (.rows (.optional l m :: left) right loose) (.rows left right loose)
  | takeLeft {left right : List Form} {l : Form} {m : Option Nat} {loose : Bool} :
    Makes forms (.rows (.optional l m :: left) right loose)
      (.rows (l :: consOptional l (m.map (· - 1)) left) right loose)

/-- What a search that starts with a call comes to. -/
def Reached (forms : List Node → List Form) : Call → Call → Prop :=
  Relation.ReflTransGen (Makes forms)

/-! ## Nothing else is asked for -/

/-- Two searches answer the same to some calls. -/
structure AgreeOn (S : Call → Prop) (inner inner' : Inner) : Prop where
  node : ∀ left right loose, S (.node left right loose) →
    inner.node left right loose = inner'.node left right loose
  rows : ∀ left right loose, S (.rows left right loose) →
    inner.rows left right loose = inner'.rows left right loose

/-- One level of the search above another. -/
def level (equal : Node → Node → Bool) (forms : List Node → List Form) (inner : Inner) : Inner :=
  ⟨fun left right loose fuel => tick (byForm equal forms inner left right loose) fuel,
   fun left right loose fuel => loop inner loose fuel left right fuel⟩

theorem within_succ (equal : Node → Node → Bool) (forms : List Node → List Form) (depth : Nat) :
    within equal forms (depth + 1) = level equal forms (within equal forms depth) := rfl

section
variable {α : Type} {search search' : α → Search} {xs : List α} {fuel : Nat}

theorem everyOf_congr (h : ∀ x ∈ xs, search x = search' x) :
    everyOf search xs = everyOf search' xs := by
  induction xs with
  | nil => rfl
  | cons x xs ih =>
    rw [List.forall_mem_cons] at h
    funext fuel
    rw [everyOf, everyOf, h.1, ih h.2]

theorem someOf_congr (h : ∀ x ∈ xs, search x = search' x) :
    someOf search xs = someOf search' xs := by
  induction xs with
  | nil => rfl
  | cons x xs ih =>
    rw [List.forall_mem_cons] at h
    funext fuel
    rw [someOf, someOf, h.1, ih h.2]

end

section
variable {S : Call → Prop} {forms : List Node → List Form} {inner inner' : Inner} {loose : Bool}

theorem AgreeOn.unrollRight (hin : AgreeOn S inner inner')
    (hS : ∀ c d, S c → Makes forms c d → S d) {left right : List Form} {r : Form} {n : Option Nat}
    (h : S (.unrollRight left right r n loose)) :
    Cover.unrollRight inner left right r n loose = Cover.unrollRight inner' left right r n loose := by
  funext fuel
  unfold Cover.unrollRight
  rw [hin.rows _ _ _ (hS _ _ h .leaveRight), hin.rows _ _ _ (hS _ _ h .takeRight)]

theorem AgreeOn.byForm (hin : AgreeOn S inner inner') (hS : ∀ c d, S c → Makes forms c d → S d)
    (equal : Node → Node → Bool) {left right : Form} (h : S (.node left right loose)) (fuel : Nat) :
    byForm equal forms inner left right loose fuel =
      byForm equal forms inner' left right loose fuel := by
  unfold Cover.byForm
  split
  · exact congrFun (everyOf_congr fun r hr => hin.node _ _ _ (hS _ _ h (.rightOf hr))) fuel
  · exact congrFun (someOf_congr fun l hl => hin.node _ _ _ (hS _ _ h (.leftOf hl))) fuel
  · rw [hin.rows _ _ _ (hS _ _ h .asRows)]
  · rw [hin.rows _ _ _ (hS _ _ h .asRows)]
  · rw [hin.rows _ _ _ (hS _ _ h .asRows)]
  · rw [hin.rows _ _ _ (hS _ _ h .asRows)]
  · rfl
  · rfl
  · split
    · rename_i hsame
      simp only [Bool.and_eq_true, Bool.not_eq_true', beq_iff_eq] at hsame
      obtain ⟨⟨rfl, rfl⟩, rfl⟩ := hsame
      refine congrFun (everyOf_congr fun r hr => ?_) fuel
      exact someOf_congr fun l hl => hin.node _ _ _ (hS _ _ h (.looks hl hr))
    · rfl
  · rfl

theorem AgreeOn.byHeads (hin : AgreeOn S inner inner') (hS : ∀ c d, S c → Makes forms c d → S d)
    {next next' : List Form → List Form → Search}
    (hnext : ∀ left right, S (.rows left right loose) → next left right = next' left right)
    {left right : List Form} (h : S (.rows left right loose)) (fuel : Nat) :
    byHeads inner next loose left right fuel = byHeads inner' next' loose left right fuel := by
  unfold Cover.byHeads
  split
  · exact congrFun (everyOf_congr fun r hr => hin.rows _ _ _ (hS _ _ h (.rightHead hr))) fuel
  · exact congrFun (someOf_congr fun l hl => hin.rows _ _ _ (hS _ _ h (.leftHead hl))) fuel
  · rfl
  · rfl
  · rename_i l m left r n right
    have hrows : (if atLeast m n then inner.rows (consOptional l (less m n) left) right loose
          else inner.rows left (consOptional r (less n m) right) loose) =
        if atLeast m n then inner'.rows (consOptional l (less m n) left) right loose
          else inner'.rows left (consOptional r (less n m) right) loose := by
      cases hmn : atLeast m n with
      | true => exact hin.rows _ _ _ (hS _ _ h (.moreOnLeft hmn))
      | false => exact hin.rows _ _ _ (hS _ _ h (.moreOnRight hmn))
    rw [optionalHeads, optionalHeads, hrows, hin.node _ _ _ (hS _ _ h .optionals),
      hin.unrollRight hS (hS _ _ h .unroll)]
  · rw [hin.unrollRight hS (hS _ _ h .unroll)]
  · rw [hin.rows _ _ _ (hS _ _ h .leaveLeft), hnext _ _ (hS _ _ h .takeLeft)]
  · rw [hin.node _ _ _ (hS _ _ h .heads), hnext _ _ (hS _ _ h .tails)]

theorem AgreeOn.loop (hin : AgreeOn S inner inner') (hS : ∀ c d, S c → Makes forms c d → S d)
    (rounds : Nat) {left right : List Form} (h : S (.rows left right loose)) :
    loop inner loose rounds left right = loop inner' loose rounds left right := by
  induction rounds generalizing left right with
  | zero => rfl
  | succ rounds ih =>
    funext fuel
    simp only [Cover.loop, tick]
    rw [hin.byHeads hS (fun _ _ hrows => ih hrows) (hS _ _ h .ready)]

/-- What a level answers to a call depends on the calls that it makes only. -/
theorem agreeOn_level (hS : ∀ c d, S c → Makes forms c d → S d) (equal : Node → Node → Bool)
    (hin : AgreeOn S inner inner') : AgreeOn S (level equal forms inner) (level equal forms inner') where
  node left right loose h := by
    funext fuel
    simp only [level, tick]
    rw [hin.byForm hS equal h]
  rows left right loose h := by
    funext fuel
    exact congrFun (hin.loop hS fuel h) fuel

end

/-! ## Ceilings -/

/-- All forms of a call have the property. An optional part that is unrolled is one of them. -/
def Call.All (P : Form → Prop) : Call → Prop
  | node left right _ => P left ∧ P right
  | rows left right _ => (∀ f ∈ left, P f) ∧ ∀ g ∈ right, P g
  | unrollRight left right element max _ =>
    (∀ f ∈ left, P f) ∧ ∀ g ∈ Form.optional element max :: right, P g

theorem Call.All.mono {P Q : Form → Prop} (h : ∀ f, P f → Q f) : {call : Call} →
    call.All P → call.All Q
  | .node .., hP => ⟨h _ hP.1, h _ hP.2⟩
  | .rows .., hP => ⟨fun f hf => h f (hP.1 f hf), fun g hg => h g (hP.2 g hg)⟩
  | .unrollRight .., hP => ⟨fun f hf => h f (hP.1 f hf), fun g hg => h g (hP.2 g hg)⟩

section
variable {flags : Flags}

/-- Forms whose optional parts all have repetitions left, whatever nodes they hold. -/
abbrev Fit : Form → Prop := Form.Fits fun _ => True

variable [Properties]

/-- What a search turns to holds the parts of what it comes from, and optional parts of which some
repetitions are left. -/
theorem fits_of_makes {c d : Call} (h : Makes (Form.ofNodes flags) c d) (hc : c.All Fit) :
    d.All Fit := by
  have hforms (ns : List Node) : ∀ f ∈ Form.ofNodes flags ns, Fit f :=
    Form.fits_ofNodes (fun _ _ _ _ _ => trivial) flags ns fun _ _ => trivial
  have helement {f : Form} {max : Option Nat} (h : Fit (.optional f max)) : Fit f :=
    ((Form.fits_optional f max).1 h).2
  cases h with
  | rightOf hr => exact ⟨hc.1, (Form.fits_choice _).1 hc.2 _ hr⟩
  | leftOf hl => exact ⟨(Form.fits_choice _).1 hc.1 _ hl, hc.2⟩
  | asRows => exact ⟨Form.fits_items hc.1, Form.fits_items hc.2⟩
  | looks hl hr => exact ⟨hforms _ _ hl, hforms _ _ hr⟩
  | ready =>
    refine ⟨fits_exposedRow _ ?_, fits_exposedRow _ hc.2⟩
    split
    · exact fits_withoutOptionalEnd hc.1
    · exact hc.1
  | rightHead hr =>
    obtain ⟨hchoice, hrest⟩ := List.forall_mem_cons.1 hc.2
    exact ⟨hc.1, List.forall_mem_cons.2 ⟨(Form.fits_choice _).1 hchoice _ hr, hrest⟩⟩
  | leftHead hl =>
    obtain ⟨hchoice, hrest⟩ := List.forall_mem_cons.1 hc.1
    exact ⟨List.forall_mem_cons.2 ⟨(Form.fits_choice _).1 hchoice _ hl, hrest⟩, hc.2⟩
  | heads => exact ⟨hc.1 _ (List.mem_cons_self ..), hc.2 _ (List.mem_cons_self ..)⟩
  | tails => exact ⟨(List.forall_mem_cons.1 hc.1).2, (List.forall_mem_cons.1 hc.2).2⟩
  | optionals =>
    exact ⟨helement (hc.1 _ (List.mem_cons_self ..)), helement (hc.2 _ (List.mem_cons_self ..))⟩
  | moreOnLeft _ =>
    obtain ⟨hl, hleft⟩ := List.forall_mem_cons.1 hc.1
    exact ⟨fits_consOptional (helement hl) _ hleft, (List.forall_mem_cons.1 hc.2).2⟩
  | moreOnRight _ =>
    obtain ⟨hr, hright⟩ := List.forall_mem_cons.1 hc.2
    exact ⟨(List.forall_mem_cons.1 hc.1).2, fits_consOptional (helement hr) _ hright⟩
  | unroll => exact hc
  | leaveRight => exact ⟨hc.1, (List.forall_mem_cons.1 hc.2).2⟩
  | takeRight =>
    obtain ⟨hr, hright⟩ := List.forall_mem_cons.1 hc.2
    exact ⟨hc.1, List.forall_mem_cons.2 ⟨helement hr, fits_consOptional (helement hr) _ hright⟩⟩
  | leaveLeft => exact ⟨(List.forall_mem_cons.1 hc.1).2, hc.2⟩
  | takeLeft =>
    obtain ⟨hl, hleft⟩ := List.forall_mem_cons.1 hc.1
    exact ⟨List.forall_mem_cons.2 ⟨helement hl, fits_consOptional (helement hl) _ hleft⟩, hc.2⟩

theorem positive_of_reached {left right : Node} {loose : Bool} {call : Call}
    (h : Reached (Form.ofNodes flags)
      (.node (Form.ofNode flags left) (Form.ofNode flags right) loose) call) :
    call.All Form.Positive := by
  have hstart (n : Node) : Fit (Form.ofNode flags n) :=
    Form.fits_ofNode (fun _ _ _ _ _ => trivial) flags n trivial
  -- What `Positive` says of all parts of a form is kept part by part.
  suffices hfits : call.All Fit from hfits.mono fun _ hf => Form.Fits.positive hf
  induction h with
  | refl => exact ⟨hstart left, hstart right⟩
  | tail _ hmakes ih => exact fits_of_makes hmakes ih

end

/-- The repetitions left of the first number once the second are taken, if there are so many; of a
number of repetitions not all can be taken. -/
def less? : Option Nat → Option Nat → Option (Option Nat)
  | none, _ => some none
  | some _, none => none
  | some a, some b => if b ≤ a then some (some (a - b)) else none

theorem less?_of_atLeast {m n : Option Nat} (h : atLeast m n = true) :
    less? m n = some (less m n) := by
  match m, n with
  | none, _ => rfl
  | some a, some b => rw [less?, if_pos (of_decide_eq_true h), less]

theorem less?_of_not_atLeast {m n : Option Nat} (h : atLeast m n = false) :
    less? n m = some (less n m) := by
  match m, n with
  | some a, none => rfl
  | some a, some b =>
    rw [less?, if_pos (Nat.le_of_lt (Nat.lt_of_not_le (of_decide_eq_false h))), less]

theorem less?_one {f : Form} {m : Option Nat} (h : (Form.optional f m).Positive) :
    less? m (some 1) = some (m.map (· - 1)) := by
  cases m with
  | none => rfl
  | some k => rw [less?, if_pos (h f (some k) .self k rfl), Option.map_some]

/-- No call that a search for two nodes comes to has an optional part, at any depth in it, that may be
repeated zero times only. So all that is taken from numbers of repetitions was there: the one
repetition that is taken of a part, and the smaller of the numbers of two parts. And the calls are all
that count: a search that answers them as a level does makes the next level answer them as it does. -/
theorem ceilings_positive [Properties] (flags : Flags) (left right : Node) (loose : Bool) :
    let forms := Form.ofNodes flags
    let start : Call := .node (Form.ofNode flags left) (Form.ofNode flags right) loose
    (∀ call, Reached forms start call → call.All Form.Positive) ∧
    (∀ l m left right loose, Reached forms start (.rows (.optional l m :: left) right loose) →
      less? m (some 1) = some (m.map (· - 1))) ∧
    (∀ left right r n loose, Reached forms start (.unrollRight left right r n loose) →
      less? n (some 1) = some (n.map (· - 1))) ∧
    (∀ l m left r n right loose,
      Reached forms start (.rows (.optional l m :: left) (.optional r n :: right) loose) →
      (atLeast m n = true → less? m n = some (less m n)) ∧
        (atLeast m n = false → less? n m = some (less n m))) ∧
    ∀ equal depth inner, AgreeOn (Reached forms start) inner (within equal forms depth) →
      AgreeOn (Reached forms start) (level equal forms inner) (within equal forms (depth + 1)) := by
  intro forms start
  refine ⟨fun call => positive_of_reached, fun l m left right loose h => ?_,
    fun left right r n loose h => ?_, fun _ _ _ _ _ _ _ _ => ?_, fun equal depth inner hin => ?_⟩
  · exact less?_one ((positive_of_reached h).1 _ (List.mem_cons_self ..))
  · exact less?_one ((positive_of_reached h).2 _ (List.mem_cons_self ..))
  · exact ⟨less?_of_atLeast, less?_of_not_atLeast⟩
  · rw [within_succ]
    exact agreeOn_level (fun c d hc hd => hc.tail hd) equal hin

/-- That `a{0,3}` covers `a{0,2}` is found by taking the two repetitions of the right side from the
three of the left side, and one of what is left then. -/
theorem ceilings_positive_letters :
    let a : Node := .character ⟨97, ['a']⟩
    let repeats (m : Nat) : Node := .quantifier ⟨0, some m, by simp⟩ true [] a
    let start : Call :=
      .node (Form.ofNode .empty (repeats 3)) (Form.ofNode .empty (repeats 2)) false
    let l : Form := Form.ofNode .empty a
    Reached (Form.ofNodes .empty) start (.rows [.optional l (some 3)] [.optional l (some 2)] false) ∧
      less? (some 3) (some 2) = some (less (some 3) (some 2)) ∧
      Reached (Form.ofNodes .empty) start (.rows [.optional l (some 1)] [] false) ∧
      less? (some 1) (some 1) = some ((some 1).map (· - 1)) := by
  intro a repeats start l
  have hrows : Reached (Form.ofNodes .empty) start
      (.rows [.optional l (some 3)] [.optional l (some 2)] false) := .single .asRows
  have hleft : Reached (Form.ofNodes .empty) start (.rows [.optional l (some 1)] [] false) :=
    hrows.tail (.moreOnLeft rfl)
  have hpositive := ceilings_positive .empty (repeats 3) (repeats 2) false
  refine ⟨hrows, (hpositive.2.2.2.1 _ _ _ _ _ _ _ hrows).1 rfl, hleft, ?_⟩
  exact hpositive.2.1 _ _ _ _ _ hleft

end Cover

end RegexAudit
