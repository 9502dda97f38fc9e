import RegexAudit.Proofs.Terms

/-!
# Readings

The loops of the reader of patterns, without their bounds: a bound as large as the text is none.
`Row` reads terms one after the other, and `Bars` rows with bars between them.

    disjunction setting (depth + 1) s = .ok (ns, s')  ↔  Bars (termAt setting depth) s ns s'

What every step of a reading keeps, the reading of a pattern keeps (`Kept.disjunction`).
-/

namespace RegexAudit

namespace Pattern

open Node

variable {setting : Setting} {n : Node} {s s' : Progress}

/-! ## Loops -/

/-- Where an alternative ends. -/
def AtEnd (r : List Char) : Prop := r = [] ∨ ∃ after, r = '|' :: after ∨ r = ')' :: after

theorem AtEnd.of_append {w u : List Char} (h : AtEnd (w ++ u)) : AtEnd w := by
  cases w with
  | nil => exact .inl rfl
  | cons c w =>
    rcases h with h | ⟨after, h | h⟩
    · cases h
    · exact .inr ⟨w, .inl (by rw [(List.cons.inj h).1])⟩
    · exact .inr ⟨w, .inr (by rw [(List.cons.inj h).1])⟩

/-- More text does not undo an end, unless the end was that of the text. -/
theorem AtEnd.append {w u : List Char} (h : AtEnd w) (hw : w ≠ []) : AtEnd (w ++ u) := by
  rcases h with rfl | ⟨after, rfl | rfl⟩
  · exact absurd rfl hw
  · exact .inr ⟨after ++ u, .inl rfl⟩
  · exact .inr ⟨after ++ u, .inr rfl⟩

section
variable {reader : NodeReader}

theorem elements_atEnd (k : Nat) (h : AtEnd s.rest) : elements reader k s = .ok ([], s) := by
  cases k with
  | zero => rfl
  | succ k => rcases h with h | ⟨after, h | h⟩ <;> simp only [elements, h]

theorem elements_go {k : Nat} {ns : List Node} (h : ¬ AtEnd s.rest) :
    elements reader (k + 1) s = .ok (ns, s') ↔ ∃ first s1 more,
      reader s = .ok (first, s1) ∧ elements reader k s1 = .ok (more, s') ∧ ns = first :: more := by
  rw [elements]
  split
  · exact absurd (.inl ‹_›) h
  · exact absurd (.inr ⟨_, .inl ‹_›⟩) h
  · exact absurd (.inr ⟨_, .inr ‹_›⟩) h
  · constructor
    · intro hread
      obtain ⟨⟨first, s1⟩, hfirst, hread⟩ := bind_eq_ok.1 hread
      obtain ⟨⟨more, s2⟩, hmore, hread⟩ := bind_eq_ok.1 hread
      cases hread
      exact ⟨first, s1, more, hfirst, hmore, rfl⟩
    · rintro ⟨first, s1, more, hfirst, hmore, rfl⟩
      exact bind_eq_ok.2 ⟨_, hfirst, bind_eq_ok.2 ⟨_, hmore, rfl⟩⟩

theorem alternatives_iff {k : Nat} {ns : List Node} :
    alternatives reader k s = .ok (ns, s') ↔ ∃ first s1, alternative reader s = .ok (first, s1) ∧
      (((k = 0 ∨ ∀ r, s1.rest ≠ '|' :: r) ∧ ns = [first] ∧ s' = s1) ∨
        ∃ j r more, k = j + 1 ∧ s1.rest = '|' :: r ∧
          alternatives reader j (s1.next r) = .ok (more, s') ∧ ns = first :: more) := by
  cases k with
  | zero =>
    rw [alternatives, bind_eq_ok]
    constructor
    · rintro ⟨⟨first, s1⟩, hfirst, h⟩
      cases h
      exact ⟨first, _, hfirst, .inl ⟨.inl rfl, rfl, rfl⟩⟩
    · rintro ⟨first, s1, hfirst, ⟨-, rfl, rfl⟩ | ⟨j, r, more, hj, -⟩⟩
      · exact ⟨_, hfirst, rfl⟩
      · cases hj
  | succ k =>
    rw [alternatives, bind_eq_ok]
    constructor
    · rintro ⟨⟨first, s1⟩, hfirst, h⟩
      simp only at h
      split at h
      · rename_i r hrest
        obtain ⟨⟨more, s2⟩, hmore, h⟩ := bind_eq_ok.1 h
        cases h
        exact ⟨first, s1, hfirst, .inr ⟨k, r, more, rfl, hrest, hmore, rfl⟩⟩
      · rename_i hbar
        cases h
        exact ⟨first, _, hfirst, .inl ⟨.inr hbar, rfl, rfl⟩⟩
    · rintro ⟨first, s1, hfirst, ⟨hbar, rfl, rfl⟩ | ⟨j, r, more, hj, hrest, hmore, rfl⟩⟩
      · refine ⟨_, hfirst, ?_⟩
        simp only
        split
        · exact absurd ‹_› (hbar.resolve_left (Nat.succ_ne_zero k) _)
        · rfl
      · cases hj
        refine ⟨_, hfirst, ?_⟩
        simp only [hrest]
        exact bind_eq_ok.2 ⟨_, hmore, rfl⟩

end

/-- Terms one after the other, up to the end of the alternative. -/
inductive Row (reader : NodeReader) : Progress → List Node → Progress → Prop
  | stop {s : Progress} : AtEnd s.rest → Row reader s [] s
  | step {s s1 s' : Progress} {n : Node} {ns : List Node} : ¬ AtEnd s.rest →
    reader s = .ok (n, s1) → Row reader s1 ns s' → Row reader s (n :: ns) s'

/-- Rows with bars between them. -/
inductive Bars (reader : NodeReader) : Progress → List Node → Progress → Prop
  | last {s s' : Progress} {ns : List Node} : Row reader s ns s' → (∀ r, s'.rest ≠ '|' :: r) →
    Bars reader s [.alternative ns] s'
  | more {s s1 s' : Progress} {ns ms : List Node} {r : List Char} : Row reader s ns s1 →
    s1.rest = '|' :: r → Bars reader (s1.next r) ms s' → Bars reader s (.alternative ns :: ms) s'

section
variable {reader : NodeReader}
  (htail : ∀ {s s' n}, reader s = .ok (n, s') → ∃ c tail, s.rest = c :: tail ∧ s'.rest <:+ tail)

/-- A row is read as far as it goes. -/
theorem Row.atEnd {ns : List Node} (h : Row reader s ns s') : AtEnd s'.rest := by
  induction h with
  | stop hend => exact hend
  | step _ _ _ ih => exact ih

include htail in
/-- The loop over terms reads what `Row` allows, if its bound covers the text. -/
theorem elements_iff {k : Nat} {ns : List Node} (hk : s.rest.length ≤ k) :
    elements reader k s = .ok (ns, s') ↔ Row reader s ns s' := by
  constructor
  · intro h
    induction k generalizing s ns with
    | zero =>
      cases h
      exact .stop (.inl (List.length_eq_zero_iff.1 (Nat.le_zero.1 hk)))
    | succ k ih =>
      by_cases hend : AtEnd s.rest
      · rw [elements_atEnd _ hend] at h
        cases h
        exact .stop hend
      · obtain ⟨first, s1, more, hfirst, hmore, rfl⟩ := (elements_go hend).1 h
        obtain ⟨c, tail, hrest, hsuffix⟩ := htail hfirst
        have hlength := hsuffix.length_le
        rw [hrest, List.length_cons] at hk
        exact .step hend hfirst (ih (by omega) hmore)
  · intro h
    induction h generalizing k with
    | stop hend => exact elements_atEnd k hend
    | step hend hfirst _ ih =>
      obtain ⟨c, tail, hrest, hsuffix⟩ := htail hfirst
      have hlength := hsuffix.length_le
      rw [hrest, List.length_cons] at hk
      obtain ⟨k, rfl⟩ : ∃ j, k = j + 1 := ⟨k - 1, by omega⟩
      exact (elements_go hend).2 ⟨_, _, _, hfirst, ih (by omega), rfl⟩

include htail in
theorem Row.suffix {ns : List Node} (h : Row reader s ns s') : s'.rest <:+ s.rest := by
  induction h with
  | stop _ => exact List.suffix_refl _
  | step _ hfirst _ ih =>
    obtain ⟨c, tail, hrest, hsuffix⟩ := htail hfirst
    rw [hrest]
    exact (ih.trans hsuffix).trans (List.suffix_cons _ _)

include htail in
theorem Bars.suffix {ns : List Node} (h : Bars reader s ns s') : s'.rest <:+ s.rest := by
  induction h with
  | last hrow _ => exact hrow.suffix htail
  | more hrow hrest _ ih =>
    rename_i s s1 _ _ _ r _
    have hr : r <:+ s1.rest := hrest ▸ List.suffix_cons _ _
    exact (ih.trans hr).trans (hrow.suffix htail)

include htail in
/-- An alternative is the row that is read for it. -/
theorem alternative_iff : alternative reader s = .ok (n, s') ↔
    ∃ ns, Row reader s ns s' ∧ n = .alternative ns := by
  rw [alternative, bind_eq_ok]
  constructor
  · rintro ⟨⟨ns, s1⟩, hns, h⟩
    cases h
    exact ⟨ns, (elements_iff htail (Nat.le_refl _)).1 hns, rfl⟩
  · rintro ⟨ns, hns, rfl⟩
    exact ⟨_, (elements_iff htail (Nat.le_refl _)).2 hns, rfl⟩

include htail in
/-- The loop over alternatives reads what `Bars` allows, if its bound covers the text. -/
theorem alternatives_iff_bars {k : Nat} {ns : List Node} (hk : s.rest.length ≤ k) :
    alternatives reader k s = .ok (ns, s') ↔ Bars reader s ns s' := by
  constructor
  · intro h
    induction k generalizing s ns with
    | zero =>
      obtain ⟨first, s1, hfirst, ⟨-, rfl, rfl⟩ | ⟨_, _, _, hj, -⟩⟩ := alternatives_iff.1 h
      · obtain ⟨ns, hns, rfl⟩ := (alternative_iff htail).1 hfirst
        refine .last hns fun r hr => ?_
        have hlength := (hns.suffix htail).length_le
        rw [hr, List.length_cons] at hlength
        omega
      · cases hj
    | succ k ih =>
      obtain ⟨first, s1, hfirst, ⟨hbar, rfl, rfl⟩ | ⟨j, r, more, hj, hrest, hmore, rfl⟩⟩ :=
        alternatives_iff.1 h
      · obtain ⟨ns, hns, rfl⟩ := (alternative_iff htail).1 hfirst
        exact .last hns (hbar.resolve_left (Nat.succ_ne_zero k))
      · cases hj
        obtain ⟨ns, hns, rfl⟩ := (alternative_iff htail).1 hfirst
        have hlength := (hns.suffix htail).length_le
        rw [hrest, List.length_cons] at hlength
        have hnext : (s1.next r).rest.length = r.length := rfl
        exact .more hns hrest (ih (by omega) hmore)
  · intro h
    induction h generalizing k with
    | last hns hbar =>
      exact alternatives_iff.2
        ⟨_, _, (alternative_iff htail).2 ⟨_, hns, rfl⟩, .inl ⟨.inr hbar, rfl, rfl⟩⟩
    | more hns hrest _ ih =>
      rename_i s s1 _ _ _ r _
      have hlength := (hns.suffix htail).length_le
      rw [hrest, List.length_cons] at hlength
      have hnext : (s1.next r).rest.length = r.length := rfl
      obtain ⟨k, rfl⟩ : ∃ j, k = j + 1 := ⟨k - 1, by omega⟩
      exact alternatives_iff.2 ⟨_, _, (alternative_iff htail).2 ⟨_, hns, rfl⟩,
        .inr ⟨k, r, _, rfl, hrest, ih (by omega), rfl⟩⟩

end

/-- The reader of terms at most `depth` deep. -/
abbrev termAt (setting : Setting) (depth : Nat) : NodeReader :=
  term setting (disjunction setting depth) (Class.nested setting depth)

theorem suffix_disjunction {depth : Nat} {ns : List Node}
    (h : disjunction setting depth s = .ok (ns, s')) : s'.rest <:+ s.rest := by
  induction depth generalizing s s' ns with
  | zero => cases h
  | succ depth ih =>
    have htail : ∀ {s s' n}, termAt setting depth s = .ok (n, s') →
        ∃ c tail, s.rest = c :: tail ∧ s'.rest <:+ tail := fun h => term_tail ih h
    exact ((alternatives_iff_bars htail (Nat.le_refl _)).1 h).suffix htail

/-- A term takes a character at least. -/
theorem termAt_tail {depth : Nat} (h : termAt setting depth s = .ok (n, s')) :
    ∃ c tail, s.rest = c :: tail ∧ s'.rest <:+ tail :=
  term_tail suffix_disjunction h

/-- A disjunction reads alternatives whose groups lie one level deeper. -/
theorem disjunction_iff {depth : Nat} {ns : List Node} :
    disjunction setting (depth + 1) s = .ok (ns, s') ↔ Bars (termAt setting depth) s ns s' :=
  alternatives_iff_bars termAt_tail (Nat.le_refl _)

/-! ## What every reading keeps -/

section
variable {reader : NodeReader} {p : Node → Prop} {ns : List Node}

theorem Row.forall (hreader : ∀ {s s' n}, reader s = .ok (n, s') → p n) (h : Row reader s ns s') :
    ∀ n ∈ ns, p n := by
  induction h with
  | stop _ => exact List.forall_mem_nil _
  | step _ hfirst _ ih => exact List.forall_mem_cons.2 ⟨hreader hfirst, ih⟩

theorem Bars.forall (hrow : ∀ {s s' ns}, Row reader s ns s' → p (.alternative ns))
    (h : Bars reader s ns s') : ∀ n ∈ ns, p n := by
  induction h with
  | last hfirst _ => exact List.forall_mem_singleton.2 (hrow hfirst)
  | more hfirst _ _ ih => exact List.forall_mem_cons.2 ⟨hrow hfirst, ih⟩

end

/-- A relation between nodes and the progress before and after them that every step of a reading
keeps. -/
structure Kept (setting : Setting) (R : Progress → List Node → Progress → Prop) : Prop where
  refl (s : Progress) : R s [] s
  trans {s s1 s' : Progress} {ns ms : List Node} : R s ns s1 → R s1 ms s' → R s (ns ++ ms) s'
  leaf {s : Progress} {n : Node} {repeats : Bool} {rest : List Char} {depth : Nat} :
    Leaf setting (Class.nested setting depth) s.rest n repeats rest → R s [n] (s.next rest)
  enclosed {s s1 : Progress} {o : Opening} {r rest : List Char} {ns : List Node} :
    s.rest = o.text ++ r → o.Allowed s r → R (o.enter s r) ns s1 → s1.rest = ')' :: rest →
      R s [o.node s.groups ns] (s1.next rest)
  repeated {s s1 : Progress} {element : Node} {bounds : Bounds} {greedy : Bool}
    {rest : List Char} : R s [element] s1 →
      Lexeme.quantifier? setting s1.rest = .ok (some (bounds, greedy), rest) →
      R s [.quantifier bounds greedy (textBefore s1.rest rest) element] (s1.next rest)
  alternative {s s' : Progress} {ns : List Node} : R s ns s' → R s [.alternative ns] s'
  bar {s : Progress} {r : List Char} : s.rest = '|' :: r → R s [] (s.next r)

namespace Kept

variable {R : Progress → List Node → Progress → Prop} (hR : Kept setting R)

include hR

theorem row {reader : NodeReader} {ns : List Node}
    (hreader : ∀ {s n s'}, reader s = .ok (n, s') → R s [n] s') (h : Row reader s ns s') :
    R s ns s' := by
  induction h with
  | stop _ => exact hR.refl _
  | step _ hfirst _ ih => exact hR.trans (hreader hfirst) ih

theorem bars {reader : NodeReader} {ns : List Node}
    (hreader : ∀ {s n s'}, reader s = .ok (n, s') → R s [n] s') (h : Bars reader s ns s') :
    R s ns s' := by
  induction h with
  | last hrow _ => exact hR.alternative (hR.row hreader hrow)
  | more hrow hrest _ ih =>
    have hfirst := hR.trans (hR.alternative (hR.row hreader hrow)) (hR.bar hrest)
    exact hR.trans hfirst ih

/-- What holds of the inside of a group holds of the term that it is. -/
theorem term {depth : Nat}
    (hinner : ∀ {s ns s'}, disjunction setting depth s = .ok (ns, s') → R s ns s')
    (h : termAt setting depth s = .ok (n, s')) : R s [n] s' := by
  obtain ⟨element, repeats, s1, rest, hread, hends, rfl⟩ := term_iff.1 h
  have helement : R s [element] s1 := by
    rcases unquantified_iff.1 hread with ⟨rest', hleaf, rfl⟩ | ⟨o, r, ns, s2, henclosed, rfl, -⟩
    · exact hR.leaf hleaf
    · rw [henclosed.progress]
      exact hR.enclosed henclosed.opens henclosed.allowed (hinner henclosed.inside)
        henclosed.closes
  generalize htext : s1.rest = text at hends
  cases hends with
  | repeatable _ =>
    rw [← htext]
    exact helement
  | unrepeatable _ =>
    rw [← htext]
    exact helement
  | repeated hquantifier =>
    subst htext
    exact hR.repeated helement hquantifier

/-- What every step keeps, the reading of alternatives keeps at every depth. -/
theorem disjunction {depth : Nat} {ns : List Node}
    (h : Pattern.disjunction setting depth s = .ok (ns, s')) : R s ns s' := by
  induction depth generalizing s ns s' with
  | zero => cases h
  | succ depth ih => exact hR.bars (fun hread => hR.term ih hread) (disjunction_iff.1 h)

end Kept

end Pattern

end RegexAudit
