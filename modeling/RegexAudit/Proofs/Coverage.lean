import Mathlib.Data.List.TakeWhile
import RegexAudit.Analysis.Cover
import RegexAudit.CharSet.KnownProperties
import RegexAudit.Proofs.Forms

/-!
# Coverage is sound

A search that answers `true` is right: what the right side matches is matched by the left side, and
if the search is loose, the left side matches at least a beginning of it.

The proof follows the search. `Finds` says that a search answers `true` with some number of steps,
so the budget plays no part; `Covered` is what such an answer has to mean. Each way to take two rows
apart is one lemma about `Covered`, and `Inner.Sound` carries the claim from one depth to the next.
-/

namespace RegexAudit

/-- `P` matches everything that `Q` matches, or a beginning of it if `loose`. -/
def Span.Covered (loose : Bool) (P Q : Span) : Prop :=
  ∀ i j, Q i j → ∃ k, P i k ∧ (k = j ∨ (loose = true ∧ k ≤ j))

namespace Span

variable {loose : Bool} {P P' Q Q' : Span}

theorem Covered.of_eq (h : P = Q) : Covered loose P Q := by
  intro i j hij
  exact ⟨j, h ▸ hij, Or.inl rfl⟩

theorem covered_iff : Covered false P Q ↔ ∀ i j, Q i j → P i j := by
  constructor
  · intro h i j hij
    obtain ⟨k, hk, rfl | ⟨h0, -⟩⟩ := h i j hij
    · exact hk
    · cases h0
  · intro h i j hij
    exact ⟨j, h i j hij, Or.inl rfl⟩

theorem Covered.mono (h : Covered loose P Q) (hP : ∀ i j, P i j → P' i j)
    (hQ : ∀ i j, Q' i j → Q i j) : Covered loose P' Q' := by
  intro i j hij
  obtain ⟨k, hk, hkj⟩ := h i j (hQ i j hij)
  exact ⟨k, hP i k hk, hkj⟩

/-- The first parts are covered exactly, the rest in any way. -/
theorem Covered.andThen (h : Covered false P Q) (h' : Covered loose P' Q') :
    Covered loose (P.andThen P') (Q.andThen Q') := by
  rintro i j ⟨k, hk, hkj⟩
  obtain ⟨l, hl, hlj⟩ := h' k j hkj
  exact ⟨l, ⟨k, covered_iff.1 h i k hk, hl⟩, hlj⟩

theorem covered_power (h : Covered false P Q) (k : Nat) :
    Covered false (P.power k) (Q.power k) := by
  induction k with
  | zero => exact .of_eq rfl
  | succ k ih => exact h.andThen ih

/-- If `P` covers `Q`, up to `n` times `Q` are covered as long as no fewer times `P` are allowed. -/
theorem covered_optional_of_le {m n : Option Nat} {R S : Span} (hPQ : Covered false P Q)
    (hmn : Cover.atLeast m n = true)
    (h : Covered loose ((repeated 0 (Cover.less m n) P).andThen R) S) :
    Covered loose ((repeated 0 m P).andThen R) ((repeated 0 n Q).andThen S) := by
  rintro i j ⟨k, ⟨a, -, ha, hk⟩, hkj⟩
  obtain ⟨l, ⟨b, ⟨c, -, hc, hb⟩, hl⟩, hlj⟩ := h k j hkj
  refine ⟨l, ⟨b, ⟨a + c, Nat.zero_le _, fun max hmax => ?_, ?_⟩, hl⟩, hlj⟩
  · subst hmax
    cases n with
    | none => cases hmn
    | some n =>
      have h1 := ha n rfl
      have h2 := hc (max - n) rfl
      have h3 : n ≤ max := of_decide_eq_true hmn
      omega
  · rw [power_add]
    exact ⟨k, covered_iff.1 (covered_power hPQ a) i k hk, hb⟩

/-- If `P` covers `Q`, what is left of more `Q` than `P` goes to the rest. -/
theorem covered_optional_of_gt {m n : Option Nat} {R S : Span} (hPQ : Covered false P Q)
    (hmn : Cover.atLeast m n = false)
    (h : Covered loose R ((repeated 0 (Cover.less n m) Q).andThen S)) :
    Covered loose ((repeated 0 m P).andThen R) ((repeated 0 n Q).andThen S) := by
  obtain ⟨m, rfl⟩ : ∃ m', m = some m' := by
    cases m with
    | none => cases hmn
    | some m => exact ⟨m, rfl⟩
  rintro i j ⟨k, ⟨a, -, ha, hk⟩, hkj⟩
  -- the first `min a m` repetitions go to `P`, the others to the rest
  rw [show a = min a m + (a - min a m) by omega, power_add] at hk
  obtain ⟨b, hib, hbk⟩ := hk
  have hrest : ((repeated 0 (Cover.less n (some m)) Q).andThen S) b j := by
    refine ⟨k, ⟨a - min a m, Nat.zero_le _, fun max hmax => ?_, hbk⟩, hkj⟩
    cases n with
    | none => cases hmax
    | some n =>
      have := ha n rfl
      cases hmax
      omega
  obtain ⟨l, hl, hlj⟩ := h b j hrest
  refine ⟨l, ⟨b, ⟨min a m, Nat.zero_le _, fun max hmax => ?_, ?_⟩, hl⟩, hlj⟩
  · cases hmax
    exact Nat.min_le_right a m
  · exact covered_iff.1 (covered_power hPQ _) i b hib

/-- Something optional is left out, or taken once more. -/
theorem repeated_zero_iff {max : Option Nat} (hmax : max ≠ some 0) (i j : Nat) :
    repeated 0 max P i j ↔ i = j ∨ (P.andThen (repeated 0 (max.map (· - 1)) P)) i j := by
  constructor
  · rintro ⟨k, -, hk, h⟩
    cases k with
    | zero => exact Or.inl h
    | succ k =>
      obtain ⟨l, hl, hlj⟩ := h
      refine Or.inr ⟨l, hl, k, Nat.zero_le _, fun m hm => ?_, hlj⟩
      obtain ⟨m', hm', rfl⟩ := Option.map_eq_some_iff.1 hm
      have := hk m' hm'
      omega
  · rintro (rfl | ⟨l, hl, k, -, hk, h⟩)
    · exact ⟨0, Nat.le_refl 0, fun _ _ => Nat.zero_le _, rfl⟩
    · refine ⟨k + 1, Nat.zero_le _, fun m hm => ?_, ⟨l, hl, h⟩⟩
      have h1 := hk (m - 1) (by rw [hm]; rfl)
      have h2 : m ≠ 0 := by
        rintro rfl
        exact hmax hm
      omega

end Span

namespace Cover

/-! ## Searches that succeed -/

/-- The search answers `true` with some number of steps left. -/
def Finds (search : Search) : Prop := ∃ fuel, (search fuel).1 = true

theorem finds_tick {next : Search} (h : Finds (tick next)) : Finds next := by
  obtain ⟨fuel, h⟩ := h
  unfold tick at h
  split at h
  · exact ⟨_, h⟩
  · cases h

theorem finds_orElse {first second : Search} (h : Finds (orElse first second)) :
    Finds first ∨ Finds second := by
  obtain ⟨fuel, h⟩ := h
  unfold orElse at h
  split at h
  · rename_i heq
    exact Or.inl ⟨fuel, by rw [heq]⟩
  · exact Or.inr ⟨_, h⟩

theorem finds_andThen {first second : Search} (h : Finds (andThen first second)) :
    Finds first ∧ Finds second := by
  obtain ⟨fuel, h⟩ := h
  unfold andThen at h
  split at h
  · rename_i heq
    exact ⟨⟨fuel, by rw [heq]⟩, ⟨_, h⟩⟩
  · cases h

theorem finds_everyOf {α : Type} {search : α → Search} {xs : List α}
    (h : Finds (everyOf search xs)) : ∀ x ∈ xs, Finds (search x) := by
  induction xs with
  | nil => simp
  | cons x xs ih =>
    have h' : Finds (andThen (search x) (everyOf search xs)) := h
    obtain ⟨hx, hxs⟩ := finds_andThen h'
    rw [List.forall_mem_cons]
    exact ⟨hx, ih hxs⟩

theorem finds_someOf {α : Type} {search : α → Search} {xs : List α}
    (h : Finds (someOf search xs)) : ∃ x ∈ xs, Finds (search x) := by
  induction xs with
  | nil =>
    obtain ⟨fuel, h⟩ := h
    cases h
  | cons x xs ih =>
    have h' : Finds (orElse (search x) (someOf search xs)) := h
    rcases finds_orElse h' with hx | hxs
    · exact ⟨x, by simp, hx⟩
    · obtain ⟨y, hy, h⟩ := ih hxs
      exact ⟨y, List.mem_cons_of_mem _ hy, h⟩

/-! ## Rows -/

section
variable (flags : Flags) (x : Input)

mutual

theorem rowSpans_exposed [Properties]
    : (f : Form) → Form.rowSpans flags x (exposed f) = f.spans flags x
  | .seq items => by rw [exposed, rowSpans_exposedRow items, Form.spans, Form.rowSpans]
  | .other _ | .chars _ | .choice _ | .look .. | .optional .. => by
    rw [exposed, Form.rowSpans_cons, Form.rowSpans_nil, Span.andThen_empty]
    simp

theorem rowSpans_exposedRow [Properties] :
    (fs : List Form) → Form.rowSpans flags x (exposedRow fs) = Form.rowSpans flags x fs
  | [] => by rw [exposedRow]
  | f :: rest => by
    have hf := rowSpans_exposed f
    rw [exposedRow, Form.rowSpans_cons, ← hf]
    split
    · rename_i h
      rw [h, rowSpans_exposedRow rest, Form.rowSpans_nil, Span.empty_andThen]
    · rw [Form.rowSpans_append]

end

/-- What is optional at the end of a row can match nothing. -/
theorem rowSpans_of_optional [Properties]
    {fs : List Form} (h : ∀ f ∈ fs, f.isOptional = true) (i : Nat) :
    Form.rowSpans flags x fs i i := by
  induction fs with
  | nil => rfl
  | cons f fs ih =>
    rw [List.forall_mem_cons] at h
    refine ⟨i, ?_, ih h.2⟩
    cases f with
    | optional element max =>
      rw [Form.spans]
      exact ⟨0, Nat.le_refl 0, fun _ _ => Nat.zero_le _, rfl⟩
    | other _ | chars _ | seq _ | choice _ | look _ _ _ => cases h.1

theorem withoutOptionalEnd_append (fs : List Form) :
    ∃ gs, fs = withoutOptionalEnd fs ++ gs ∧ ∀ g ∈ gs, g.isOptional = true := by
  refine ⟨(fs.reverse.takeWhile Form.isOptional).reverse, ?_, fun g hg => ?_⟩
  · rw [withoutOptionalEnd, ← List.reverse_append, List.takeWhile_append_dropWhile,
      List.reverse_reverse]
  · rw [List.mem_reverse] at hg
    exact List.mem_takeWhile_imp hg

variable [Properties]

theorem rowSpans_withoutOptionalEnd {fs : List Form} {i j : Nat}
    (h : Form.rowSpans flags x (withoutOptionalEnd fs) i j) : Form.rowSpans flags x fs i j := by
  obtain ⟨gs, hfs, hgs⟩ := withoutOptionalEnd_append fs
  rw [hfs, Form.rowSpans_append]
  exact ⟨j, h, rowSpans_of_optional flags x hgs j⟩

theorem rowSpans_consOptional (f : Form) (max : Option Nat) (fs : List Form) :
    Form.rowSpans flags x (consOptional f max fs)
      = (Span.repeated 0 max (f.spans flags x)).andThen (Form.rowSpans flags x fs) := by
  unfold consOptional
  split
  · rename_i h
    rw [beq_iff_eq.1 h, Span.repeated_zero, Span.empty_andThen]
  · rw [Form.rowSpans_cons, Form.spans]

end

section
variable {p : Node → Prop}

mutual

theorem fits_exposed : (f : Form) → f.Fits p → ∀ g ∈ exposed f, g.Fits p
  | .seq items, h => by
    rw [exposed]
    exact fits_exposedRow items ((Form.fits_seq items).1 h)
  | .other _, h | .chars _, h | .choice _, h | .look .., h | .optional .., h => by
    simpa [exposed] using h

theorem fits_exposedRow :
    (fs : List Form) → (∀ f ∈ fs, f.Fits p) → ∀ g ∈ exposedRow fs, g.Fits p
  | [], _ => by simp [exposedRow]
  | f :: rest, h => by
    rw [List.forall_mem_cons] at h
    intro g hg
    rw [exposedRow] at hg
    split at hg
    · exact fits_exposedRow rest h.2 g hg
    · rcases List.mem_append.1 hg with hg | hg
      · exact fits_exposed f h.1 g hg
      · exact h.2 g hg

end

theorem fits_withoutOptionalEnd {fs : List Form} (h : ∀ f ∈ fs, f.Fits p) :
    ∀ g ∈ withoutOptionalEnd fs, g.Fits p := by
  obtain ⟨gs, hfs, -⟩ := withoutOptionalEnd_append fs
  intro g hg
  apply h
  rw [hfs]
  exact List.mem_append_left _ hg

theorem fits_consOptional {f : Form} (hf : f.Fits p) (max : Option Nat) {fs : List Form}
    (h : ∀ g ∈ fs, g.Fits p) : ∀ g ∈ consOptional f max fs, g.Fits p := by
  unfold consOptional
  split
  · exact h
  · rename_i hmax
    rw [List.forall_mem_cons, Form.fits_optional]
    exact ⟨⟨fun h0 => hmax (beq_iff_eq.2 h0), hf⟩, h⟩

end

/-! ## One level of the search -/

/-- The comparisons are right about forms that are made of nodes with `p` on the left side and with
`q` on the right side. -/
structure Inner.Sound [Properties]
    (flags : Flags) (x : Input) (p q : Node → Prop) (inner : Inner) : Prop where
  node : ∀ {f g loose}, f.Fits p → g.Fits q → Finds (inner.node f g loose) →
    Span.Covered loose (f.spans flags x) (g.spans flags x)
  rows : ∀ {fs gs loose}, (∀ f ∈ fs, f.Fits p) → (∀ g ∈ gs, g.Fits q) →
    Finds (inner.rows fs gs loose) →
    Span.Covered loose (Form.rowSpans flags x fs) (Form.rowSpans flags x gs)

section
variable {flags : Flags} {x : Input} {p q : Node → Prop} {inner : Inner} {loose : Bool}

theorem finds_unrollRight {left right : List Form} {element : Form} {max : Option Nat}
    (h : Finds (unrollRight inner left right element max loose)) :
    Finds (inner.rows left right loose) ∧
      Finds (inner.rows left (element :: consOptional element (max.map (· - 1)) right) loose) := by
  obtain ⟨fuel, h⟩ := h
  unfold unrollRight at h
  split at h
  · cases h
  · rename_i heq
    split at h
    · cases h
    · exact ⟨⟨fuel, by rw [heq]⟩, ⟨_, h⟩⟩

variable [Properties]

/-- An optional head of the right row is left out or taken once more; both are covered. -/
theorem covered_unrollRight (hin : inner.Sound flags x p q) {left right : List Form}
    {element : Form} {max : Option Nat} (hleft : ∀ f ∈ left, f.Fits p)
    (helement : (Form.optional element max).Fits q) (hright : ∀ g ∈ right, g.Fits q)
    (h : Finds (unrollRight inner left right element max loose)) :
    Span.Covered loose (Form.rowSpans flags x left)
      (Form.rowSpans flags x (.optional element max :: right)) := by
  obtain ⟨hmax, helement⟩ := (Form.fits_optional _ _).1 helement
  obtain ⟨hout, hmore⟩ := finds_unrollRight h
  have hmoreFits : ∀ g ∈ element :: consOptional element (max.map (· - 1)) right, g.Fits q := by
    rw [List.forall_mem_cons]
    exact ⟨helement, fits_consOptional helement _ hright⟩
  have hout := hin.rows hleft hright hout
  have hmore := hin.rows hleft hmoreFits hmore
  rw [Form.rowSpans_cons, rowSpans_consOptional] at hmore
  rintro i j ⟨k, hk, hkj⟩
  rw [Form.spans, Span.repeated_zero_iff hmax] at hk
  rcases hk with rfl | ⟨l, hl, hlk⟩
  · exact hout i j hkj
  · exact hmore i j ⟨l, hl, k, hlk, hkj⟩

theorem covered_optionalHeads (hin : inner.Sound flags x p q) {l r : Form} {m n : Option Nat}
    {left right : List Form} (hl : (Form.optional l m).Fits p) (hleft : ∀ f ∈ left, f.Fits p)
    (hr : (Form.optional r n).Fits q) (hright : ∀ g ∈ right, g.Fits q)
    (h : Finds (optionalHeads inner l m left r n right loose)) :
    Span.Covered loose (Form.rowSpans flags x (.optional l m :: left))
      (Form.rowSpans flags x (.optional r n :: right)) := by
  have h' : Finds (orElse _ (unrollRight inner (.optional l m :: left) right r n loose)) := h
  rcases finds_orElse h' with h | h
  · obtain ⟨hnode, hrest⟩ := finds_andThen h
    have hlr := hin.node ((Form.fits_optional _ _).1 hl).2 ((Form.fits_optional _ _).1 hr).2 hnode
    rw [Form.rowSpans_cons, Form.rowSpans_cons, Form.spans, Form.spans]
    split at hrest
    · rename_i hmn
      apply Span.covered_optional_of_le hlr hmn
      have := hin.rows (fits_consOptional ((Form.fits_optional _ _).1 hl).2 _ hleft) hright hrest
      rwa [rowSpans_consOptional] at this
    · rename_i hmn
      apply Span.covered_optional_of_gt hlr (Bool.eq_false_iff.2 hmn)
      have := hin.rows hleft (fits_consOptional ((Form.fits_optional _ _).1 hr).2 _ hright) hrest
      rwa [rowSpans_consOptional] at this
  · refine covered_unrollRight hin ?_ hr hright h
    rw [List.forall_mem_cons]
    exact ⟨hl, hleft⟩

/-- An optional head of the left row may be left out, or taken once more. -/
theorem covered_consOptional_left {l : Form} {m : Option Nat} {left : List Form} {Q : Span}
    (hm : m ≠ some 0)
    (h : Span.Covered loose (Form.rowSpans flags x left) Q ∨
      Span.Covered loose
        (Form.rowSpans flags x (l :: consOptional l (m.map (· - 1)) left)) Q) :
    Span.Covered loose (Form.rowSpans flags x (.optional l m :: left)) Q := by
  rw [Form.rowSpans_cons, Form.spans]
  rcases h with h | h
  · refine h.mono (fun i j hij => ⟨i, ?_, hij⟩) (fun _ _ => id)
    exact (Span.repeated_zero_iff hm i i).2 (Or.inl rfl)
  · refine h.mono (fun i j hij => ?_) (fun _ _ => id)
    rw [Form.rowSpans_cons, rowSpans_consOptional, ← Span.andThen_assoc] at hij
    obtain ⟨k, hk, hkj⟩ := hij
    exact ⟨k, (Span.repeated_zero_iff hm i k).2 (Or.inr hk), hkj⟩

theorem covered_byHeads (hin : inner.Sound flags x p q) {next : List Form → List Form → Search}
    (hnext : ∀ {left right}, (∀ f ∈ left, f.Fits p) → (∀ g ∈ right, g.Fits q) →
      Finds (next left right) →
      Span.Covered loose (Form.rowSpans flags x left) (Form.rowSpans flags x right))
    {left right : List Form} (hleft : ∀ f ∈ left, f.Fits p) (hright : ∀ g ∈ right, g.Fits q)
    (h : Finds (byHeads inner next loose left right)) :
    Span.Covered loose (Form.rowSpans flags x left) (Form.rowSpans flags x right) := by
  obtain ⟨fuel, h⟩ := h
  unfold byHeads at h
  split at h
  · -- a choice on the right: every alternative is covered
    rename_i alternatives right
    rw [List.forall_mem_cons, Form.fits_choice] at hright
    have hevery := finds_everyOf ⟨fuel, h⟩
    rintro i j ⟨k, hk, hkj⟩
    rw [Form.spans] at hk
    obtain ⟨r, hr, hk⟩ := Form.mem_oneOf.1 hk
    have hrow : ∀ g ∈ r :: right, g.Fits q := by
      rw [List.forall_mem_cons]
      exact ⟨hright.1 r hr, hright.2⟩
    exact hin.rows hleft hrow (hevery r hr) i j ⟨k, hk, hkj⟩
  · -- a choice on the left: some alternative covers
    rename_i alternatives left _
    rw [List.forall_mem_cons, Form.fits_choice] at hleft
    obtain ⟨l, hl, hsome⟩ := finds_someOf ⟨fuel, h⟩
    have hrow : ∀ f ∈ l :: left, f.Fits p := by
      rw [List.forall_mem_cons]
      exact ⟨hleft.1 l hl, hleft.2⟩
    refine (hin.rows hrow hright hsome).mono ?_ (fun _ _ => id)
    rintro i j ⟨k, hk, hkj⟩
    refine ⟨k, ?_, hkj⟩
    rw [Form.spans]
    exact Form.mem_oneOf.2 ⟨l, hl, hk⟩
  · rintro i j rfl
    refine ⟨i, rowSpans_of_optional flags x ?_ i, Or.inl rfl⟩
    exact List.all_eq_true.1 h
  · intro i j hij
    have hle := (Form.within_rowSpans flags x _ i j hij).1
    exact ⟨i, rfl, Or.inr ⟨h, hle⟩⟩
  · rw [List.forall_mem_cons] at hleft hright
    exact covered_optionalHeads hin hleft.1 hleft.2 hright.1 hright.2 ⟨fuel, h⟩
  · rw [List.forall_mem_cons] at hright
    exact covered_unrollRight hin hleft hright.1 hright.2 ⟨fuel, h⟩
  · rename_i l m left _ _ _
    rw [List.forall_mem_cons, Form.fits_optional] at hleft
    obtain ⟨⟨hm, hl⟩, hleft⟩ := hleft
    apply covered_consOptional_left hm
    split at h
    · rename_i heq
      exact Or.inl (hin.rows hleft hright ⟨fuel, by rw [heq]⟩)
    · split at h
      · cases h
      · have hrow : ∀ f ∈ l :: consOptional l (m.map (· - 1)) left, f.Fits p := by
          rw [List.forall_mem_cons]
          exact ⟨hl, fits_consOptional hl _ hleft⟩
        exact Or.inr (hnext hrow hright ⟨_, h⟩)
  · rw [List.forall_mem_cons] at hleft hright
    obtain ⟨hnode, hrest⟩ := finds_andThen ⟨fuel, h⟩
    rw [Form.rowSpans_cons, Form.rowSpans_cons]
    exact (hin.node hleft.1 hright.1 hnode).andThen (hnext hleft.2 hright.2 hrest)

/-- Taking the heads apart and leaving out an optional end only makes the left side match less. -/
theorem rowSpans_of_prepared {left : List Form} {i j : Nat}
    (h : Form.rowSpans flags x (exposedRow (if loose then withoutOptionalEnd left else left)) i j) :
    Form.rowSpans flags x left i j := by
  rw [rowSpans_exposedRow] at h
  split at h
  · exact rowSpans_withoutOptionalEnd flags x h
  · exact h

/-- Any number of rounds. -/
theorem covered_loop (hin : inner.Sound flags x p q) (rounds : Nat) :
    ∀ {left right : List Form}, (∀ f ∈ left, f.Fits p) → (∀ g ∈ right, g.Fits q) →
      Finds (loop inner loose rounds left right) →
      Span.Covered loose (Form.rowSpans flags x left) (Form.rowSpans flags x right) := by
  induction rounds with
  | zero =>
    rintro left right - - ⟨fuel, h⟩
    cases h
  | succ rounds ih =>
    intro left right hleft hright h
    have h' : Finds (tick (byHeads inner (loop inner loose rounds) loose
      (exposedRow (if loose then withoutOptionalEnd left else left)) (exposedRow right))) := h
    have hprepared : ∀ f ∈ if loose then withoutOptionalEnd left else left, f.Fits p := by
      split
      · exact fits_withoutOptionalEnd hleft
      · exact hleft
    have hheads := covered_byHeads hin ih (fits_exposedRow _ hprepared) (fits_exposedRow _ hright)
      (finds_tick h')
    rw [rowSpans_exposedRow flags x right] at hheads
    exact hheads.mono (fun i j => rowSpans_of_prepared) (fun _ _ => id)

/-- Two lookarounds that look the same way and are not negated: what one sees the other sees. A
lookahead needs only a beginning of what the other one sees. -/
theorem covered_look (hin : inner.Sound flags x p q) (hp : Node.Hereditary p)
    (hq : Node.Hereditary q) {d : Direction} {xs ys : List Node} (hxs : p (.look d false xs))
    (hys : q (.look d false ys))
    (h : ∀ r ∈ Form.ofNodes flags ys, ∃ l ∈ Form.ofNodes flags xs,
      Finds (inner.node l r (d == .forward))) :
    Span.Covered loose ((Node.look d false xs).spans flags x)
      ((Node.look d false ys).spans flags x) := by
  have hcover : ∀ r ∈ Form.ofNodes flags ys, ∃ l ∈ Form.ofNodes flags xs,
      Span.Covered (d == .forward) (l.spans flags x) (r.spans flags x) := by
    intro r hr
    obtain ⟨l, hl, hfinds⟩ := h r hr
    exact ⟨l, hl, hin.node (Form.fits_ofNodes hp flags xs (hp _ hxs rfl) l hl)
      (Form.fits_ofNodes hq flags ys (hq _ hys rfl) r hr) hfinds⟩
  rw [Node.spans, Node.spans, ← Form.spansAll_ofNodes, ← Form.spansAll_ofNodes]
  rintro i j ⟨rfl, hseen⟩
  have hseen := hseen.2 rfl
  suffices (Span.oneOf (Form.spansAll flags x (Form.ofNodes flags xs))).seen d i from
    ⟨i, ⟨rfl, fun _ => rfl, fun _ => this⟩, Or.inl rfl⟩
  cases d with
  | forward =>
    obtain ⟨j, hj⟩ := hseen
    obtain ⟨r, hr, hrj⟩ := Form.mem_oneOf.1 hj
    obtain ⟨l, hl, hcovered⟩ := hcover r hr
    obtain ⟨k, hk, -⟩ := hcovered i j hrj
    exact ⟨k, Form.mem_oneOf.2 ⟨l, hl, hk⟩⟩
  | backward =>
    obtain ⟨k, hk⟩ := hseen
    obtain ⟨r, hr, hkr⟩ := Form.mem_oneOf.1 hk
    obtain ⟨l, hl, hcovered⟩ := hcover r hr
    exact ⟨k, Form.mem_oneOf.2 ⟨l, hl, Span.covered_iff.1 hcovered k i hkr⟩⟩

theorem covered_byForm (hin : inner.Sound flags x p q) (hp : Node.Hereditary p)
    (hq : Node.Hereditary q) {equal : Node → Node → Bool}
    (hequal : ∀ a b, p a → q b → equal a b = true → a.spans flags x = b.spans flags x)
    {f g : Form} (hf : f.Fits p) (hg : g.Fits q)
    (h : Finds (byForm equal (Form.ofNodes flags) inner f g loose)) :
    Span.Covered loose (f.spans flags x) (g.spans flags x) := by
  have hrows (h : Finds (inner.rows f.items g.items loose)) :
      Span.Covered loose (f.spans flags x) (g.spans flags x) := by
    have := hin.rows (Form.fits_items hf) (Form.fits_items hg) h
    rwa [Form.rowSpans_items, Form.rowSpans_items] at this
  obtain ⟨fuel, h⟩ := h
  unfold byForm at h
  split at h
  · rename_i alternatives
    rw [Form.fits_choice] at hg
    have hevery := finds_everyOf ⟨fuel, h⟩
    intro i j hij
    rw [Form.spans] at hij
    obtain ⟨r, hr, hij⟩ := Form.mem_oneOf.1 hij
    exact hin.node hf (hg r hr) (hevery r hr) i j hij
  · rename_i alternatives _
    rw [Form.fits_choice] at hf
    obtain ⟨l, hl, hsome⟩ := finds_someOf ⟨fuel, h⟩
    refine (hin.node (hf l hl) hg hsome).mono ?_ (fun _ _ => id)
    intro i j hij
    rw [Form.spans]
    exact Form.mem_oneOf.2 ⟨l, hl, hij⟩
  · exact hrows ⟨fuel, h⟩
  · exact hrows ⟨fuel, h⟩
  · exact hrows ⟨fuel, h⟩
  · exact hrows ⟨fuel, h⟩
  · rename_i s t
    rintro i j ⟨rfl, c, hc, htext⟩
    exact ⟨i + 1, ⟨rfl, c, CharSet.mem_of_isSubset h hc, htext⟩, Or.inl rfl⟩
  · rw [Form.spans, Form.spans]
    exact .of_eq (hequal _ _ hf hg h)
  · split at h
    · rename_i hsame
      simp only [Bool.and_eq_true, Bool.not_eq_true', beq_iff_eq] at hsame
      obtain ⟨⟨rfl, rfl⟩, rfl⟩ := hsame
      rw [Form.spans, Form.spans]
      refine covered_look hin hp hq hf hg fun r hr => ?_
      exact finds_someOf (finds_everyOf ⟨fuel, h⟩ r hr)
    · rw [Form.spans, Form.spans]
      exact .of_eq (hequal _ _ hf hg h)
  · cases h

/-- The search is right at every depth. -/
theorem sound_within (hp : Node.Hereditary p) (hq : Node.Hereditary q)
    {equal : Node → Node → Bool}
    (hequal : ∀ a b, p a → q b → equal a b = true → a.spans flags x = b.spans flags x)
    (depth : Nat) : (within equal (Form.ofNodes flags) depth).Sound flags x p q := by
  induction depth with
  | zero =>
    constructor
    · rintro f g loose - - ⟨fuel, h⟩
      cases h
    · rintro fs gs loose - - ⟨fuel, h⟩
      cases h
  | succ depth ih =>
    constructor
    · intro f g loose hf hg h
      exact covered_byForm ih hp hq hequal hf hg (finds_tick h)
    · rintro fs gs loose hfs hgs ⟨fuel, h⟩
      exact covered_loop ih fuel hfs hgs ⟨fuel, h⟩

end

end Cover

/-! ## The check -/

/-- What a check for two nodes means, if nodes that count as equal match the same. Only the nodes of
the two trees outside of classes are ever asked about. -/
theorem Coverage.covered_of_covers [Properties] {c : Coverage} {left right : Node} {x : Input}
    (hequal : ∀ a b, left.HasTerm a → right.HasTerm b →
      Comparison.equal { flags := c.flags, resolve? := c.resolve? } a b = true →
      a.spans c.flags x = b.spans c.flags x)
    (h : c.covers left right = true) :
    Span.Covered c.loose (left.spans c.flags x) (right.spans c.flags x) := by
  unfold Coverage.covers at h
  rcases Bool.or_eq_true_iff.1 h with h | h
  · exact .of_eq (hequal left right .self .self h)
  · have hl := Form.fits_ofNode (Node.hereditary_hasTerm left) c.flags left .self
    have hr := Form.fits_ofNode (Node.hereditary_hasTerm right) c.flags right .self
    have hsound := Cover.sound_within (Node.hereditary_hasTerm left)
      (Node.hereditary_hasTerm right) hequal Cover.depthLimit
    have := hsound.node hl hr ⟨_, h⟩
    rwa [Form.spans_ofNode, Form.spans_ofNode] at this

/-- Coverage is sound: every stretch that the right node matches is matched by the left node, and of
a loose check at least a beginning of it. Nodes that count as equal are taken to match the same. -/
theorem Coverage.covers_sound [Properties]
    (flags : Flags) (resolve? : Option (GroupRef → Option Nat))
    (left right : Node) (x : Input)
    (hequal : ∀ a b, left.HasTerm a → right.HasTerm b →
      Comparison.equal { flags, resolve? } a b = true → a.spans flags x = b.spans flags x) :
    (Coverage.covers { flags, resolve? } left right = true →
      ∀ i j, right.spans flags x i j → left.spans flags x i j) ∧
    (Coverage.covers { flags, resolve?, loose := true } left right = true →
      ∀ i j, right.spans flags x i j → ∃ k, k ≤ j ∧ left.spans flags x i k) := by
  constructor
  · intro h
    have hcovered := covered_of_covers (c := { flags, resolve? }) hequal h
    exact Span.covered_iff.1 hcovered
  · intro h i j hij
    have hcovered := covered_of_covers (c := { flags, resolve?, loose := true }) hequal h
    obtain ⟨k, hk, rfl | ⟨-, hkj⟩⟩ := hcovered i j hij
    · exact ⟨k, Nat.le_refl k, hk⟩
    · exact ⟨k, hkj, hk⟩

/-- One word character or more, `\w+`, cover two digits, `\d\d`. -/
theorem Coverage.covers_sound_digits :
    let words : Node := .quantifier ⟨1, none, nofun⟩ true ['+'] (.shorthand (.word false))
    let digits : Node := .alternative [.shorthand (.digit false), .shorthand (.digit false)]
    Coverage.covers { flags := .empty } words digits = true ∧
      ∀ (x : Input) (i j : Nat), digits.spans .empty x i j → words.spans .empty x i j := by
  intro words digits
  have hcovers : Coverage.covers { flags := .empty } words digits = true := by decide +kernel
  refine ⟨hcovers, fun x => (covers_sound .empty none words digits x ?_).1 hcovers⟩
  intro a b ha hb hab
  exfalso
  have hleaf (set : Shorthand) (n : Node) : (Node.shorthand set).HasPart n ↔ n = .shorthand set :=
    Node.hasPart_leaf rfl
  replace ha := Node.hasPart_iff.1 ha.hasPart
  replace hb := Node.hasPart_iff.1 hb.hasPart
  simp only [words, digits, Node.children, List.mem_cons, List.not_mem_nil, or_false, or_self,
    exists_eq_left, hleaf] at ha hb
  revert hab
  rcases ha with rfl | rfl <;> rcases hb with rfl | rfl <;> decide +kernel

end RegexAudit
