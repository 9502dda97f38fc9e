import RegexAudit.Proofs.Calls
import RegexAudit.Proofs.Spelling

/-!
# Loops

The loops of the readers are bounded by the length of the text they start at. No loop reaches its
bound: two bounds that are as large as the text give the same (`elements_congr` and its like). So a
loop that goes on is the same loop, started at what is left.

    Again setting t u → t.outcome setting = u.outcome setting                  (Again.outcome_eq)
-/

namespace RegexAudit

/-! ## Bounds of loops in patterns -/

namespace Pattern

open Lexeme

section
variable {reader : NodeReader} {s s' : Progress} {n : Node} {k j : Nat}
  (hreader : ∀ {s s' n}, reader s = .ok (n, s') → Follows s.rest s'.rest)

/-- A row that is not at its end reads one term and goes on. -/
theorem elements_succ (h : ¬ AtEnd s.rest) : elements reader (k + 1) s =
    reader s >>= fun (first, s) => elements reader k s >>= fun (more, s) =>
      .ok (first :: more, s) := by
  rw [elements]
  split
  · exact absurd (.inl ‹_›) h
  · exact absurd (.inr ⟨_, .inl ‹_›⟩) h
  · exact absurd (.inr ⟨_, .inr ‹_›⟩) h
  · rfl

theorem length_pos_of_not_atEnd {r : List Char} (h : ¬ AtEnd r) : 0 < r.length :=
  List.length_pos_iff.2 fun hr => h (.inl hr)

include hreader in
/-- A term takes a character at least, so a bound that is as large as the text is never reached. -/
theorem elements_congr (hk : s.rest.length ≤ k) (hj : s.rest.length ≤ j) :
    elements reader k s = elements reader j s := by
  induction k generalizing j s with
  | zero =>
    have hend : AtEnd s.rest := .inl (List.length_eq_zero_iff.1 (Nat.le_zero.1 hk))
    rw [elements_atEnd _ hend, elements_atEnd _ hend]
  | succ k ih =>
    by_cases hend : AtEnd s.rest
    · rw [elements_atEnd _ hend, elements_atEnd _ hend]
    have hpos := length_pos_of_not_atEnd hend
    obtain ⟨j, rfl⟩ : ∃ i, j = i + 1 := ⟨j - 1, by omega⟩
    rw [elements_succ hend, elements_succ hend]
    cases hread : reader s with
    | error f => rfl
    | ok read =>
      have hlength := (hreader hread).length_lt
      simp only [bind, Except.bind]
      rw [ih (by omega : read.2.rest.length ≤ k) (by omega : _ ≤ j)]

theorem alternatives_error {f : Fault} (h : alternative reader s = .error f) :
    alternatives reader k s = .error f := by
  cases k <;> rw [alternatives, h] <;> rfl

theorem alternatives_last (h : alternative reader s = .ok (n, s'))
    (hrest : ∀ r, s'.rest ≠ '|' :: r) : alternatives reader k s = .ok ([n], s') :=
  alternatives_iff.2 ⟨n, s', h, .inl ⟨.inr hrest, rfl, rfl⟩⟩

theorem alternatives_bar {r : List Char} (h : alternative reader s = .ok (n, s'))
    (hrest : s'.rest = '|' :: r) : alternatives reader (k + 1) s =
      alternatives reader k (s'.next r) >>= fun (more, s) => .ok (n :: more, s) := by
  rw [alternatives, h]
  simp only [bind, Except.bind, hrest]

include hreader in
/-- The bar between two alternatives is a character that the bound counts. -/
theorem alternatives_congr (hk : s.rest.length ≤ k) (hj : s.rest.length ≤ j) :
    alternatives reader k s = alternatives reader j s := by
  induction hn : s.rest.length using Nat.strong_induction_on generalizing k j s with
  | _ size ih =>
    cases hread : alternative reader s with
    | error f => rw [alternatives_error hread, alternatives_error hread]
    | ok read =>
      by_cases hbar : ∃ r, read.2.rest = '|' :: r
      · obtain ⟨r, hr⟩ := hbar
        obtain ⟨ns, hrow, -⟩ := (alternative_iff hreader).1 hread
        have hlength := (hrow.suffix hreader).length_le
        have hnext : (read.2.next r).rest.length = r.length := rfl
        rw [hr, List.length_cons] at hlength
        obtain ⟨k, rfl⟩ : ∃ i, k = i + 1 := ⟨k - 1, by omega⟩
        obtain ⟨j, rfl⟩ : ∃ i, j = i + 1 := ⟨j - 1, by omega⟩
        rw [alternatives_bar hread hr, alternatives_bar hread hr,
          ih _ (by omega) (by omega : _ ≤ k) (by omega : _ ≤ j) hnext]
      · have hrest (r : List Char) : read.2.rest ≠ '|' :: r := fun hr => hbar ⟨r, hr⟩
        rw [alternatives_last hread hrest, alternatives_last hread hrest]

end

end Pattern

/-! ## Bounds of loops in classes -/

namespace Class

variable {setting : Setting} {start text r : List Char} {k j : Nat}

theorem items_succ (hclose : text.head? ≠ some ']') (htext : text ≠ []) :
    items setting start (k + 1) text = item setting text >>= fun (ns, r) =>
      items setting start k r >>= fun (more, r) => .ok (ns ++ more, r) := by
  obtain ⟨c, tail, rfl⟩ := List.exists_cons_of_ne_nil htext
  rw [items]
  · rintro r h
    cases h
    exact hclose rfl
  · exact htext

/-- An item takes a character at least. -/
theorem items_congr (hk : text.length ≤ k) (hj : text.length ≤ j) :
    items setting start k text = items setting start j text := by
  induction k generalizing j text with
  | zero =>
    obtain rfl := List.length_eq_zero_iff.1 (Nat.le_zero.1 hk)
    cases j <;> rfl
  | succ k ih =>
    by_cases htext : text = []
    · subst htext
      cases j <;> rfl
    by_cases hclose : text.head? = some ']'
    · obtain ⟨r, rfl⟩ := List.head?_eq_some_iff.1 hclose
      cases j <;> rfl
    have hpos := List.length_pos_iff.2 htext
    obtain ⟨j, rfl⟩ : ∃ i, j = i + 1 := ⟨j - 1, by omega⟩
    rw [items_succ hclose htext, items_succ hclose htext]
    cases hread : item setting text with
    | error f => rfl
    | ok read =>
      have hlength := (Pattern.follows_item hread).length_lt
      simp only [bind, Except.bind]
      rw [ih (by omega : read.2.length ≤ k) (by omega : _ ≤ j)]

theorem letters_escape : letters setting start (k + 1) ('\\' :: r) =
    Lexeme.characterEscape setting true r >>= fun (value, after) =>
      letters setting start k after >>= fun (more, after') =>
        .ok (⟨value, '\\' :: textBefore r after⟩ :: more, after') := rfl

theorem letters_cons {c : Char} (hc : c ∉ ['|', '}', '\\']) :
    letters setting start (k + 1) (c :: r) =
      letters setting start k r >>= fun (more, r) => .ok (⟨c.toNat, [c]⟩ :: more, r) := by
  simp only [List.mem_cons, List.not_mem_nil, or_false, not_or] at hc
  rw [letters]
  · exact hc.1
  · exact hc.2.1
  · exact hc.2.2

theorem letters_congr (hk : text.length ≤ k) (hj : text.length ≤ j) :
    letters setting start k text = letters setting start j text := by
  induction k generalizing j text with
  | zero =>
    obtain rfl := List.length_eq_zero_iff.1 (Nat.le_zero.1 hk)
    cases j <;> rfl
  | succ k ih =>
    cases text with
    | nil => cases j <;> rfl
    | cons c r =>
      rw [List.length_cons] at hk hj
      obtain ⟨j, rfl⟩ : ∃ i, j = i + 1 := ⟨j - 1, by omega⟩
      by_cases hescape : c = '\\'
      · subst hescape
        rw [letters_escape, letters_escape]
        cases hread : Lexeme.characterEscape setting true r with
        | error f => rfl
        | ok read =>
          have hlength := (Lexeme.suffix_characterEscape hread).length_le
          simp only [bind, Except.bind]
          rw [ih (by omega : read.2.length ≤ k) (by omega : _ ≤ j)]
      · by_cases hc : c ∈ ['|', '}']
        · simp only [List.mem_cons, List.not_mem_nil, or_false] at hc
          rcases hc with rfl | rfl <;> rfl
        · have hletter : c ∉ ['|', '}', '\\'] := by simp_all
          rw [letters_cons hletter, letters_cons hletter,
            ih (by omega : r.length ≤ k) (by omega : _ ≤ j)]

/-- The loop over strings runs once even where nothing is left, so its bound is larger by one. -/
theorem strings_congr (hk : text.length < k) (hj : text.length < j) :
    strings setting start k text = strings setting start j text := by
  induction k generalizing j text with
  | zero => exact absurd hk (Nat.not_lt_zero _)
  | succ k ih =>
    obtain ⟨j, rfl⟩ : ∃ i, j = i + 1 := ⟨j - 1, by omega⟩
    rw [strings, strings]
    cases hread : letters setting start text.length text with
    | error f => rfl
    | ok read =>
      have hlength := (Letters.of_ok hread).stop.1.length_le
      simp only [bind, Except.bind]
      split
      · rename_i r hrest
        rw [hrest, List.length_cons] at hlength
        rw [ih (by omega : r.length < k) (by omega : _ < j)]
      · rfl

section
variable {operand : List Char → Except Fault (Node × List Char)}
  (hoperand : Shortens operand)

include hoperand in
/-- The operator itself is what a round of this loop takes. -/
theorem operations_congr {operator : SetOperator} {left : Node} (hk : text.length ≤ k)
    (hj : text.length ≤ j) :
    operations operand operator k left text = operations operand operator j left text := by
  have hstop {i : Nat} {left : Node} {text : List Char}
      (h : Text.strip? operator.text text = none) :
      operations operand operator i left text = .ok (left, text) := by
    cases i with
    | zero => rfl
    | succ i => rw [operations, h]
  induction k generalizing j left text with
  | zero =>
    obtain rfl := List.length_eq_zero_iff.1 (Nat.le_zero.1 hk)
    rw [hstop (strip?_operator_nil operator), hstop (strip?_operator_nil operator)]
  | succ k ih =>
    cases hstrip : Text.strip? operator.text text with
    | none => rw [hstop hstrip, hstop hstrip]
    | some r =>
      have hlength := congrArg List.length (strip?_iff.1 hstrip)
      have hpos : 0 < operator.text.length := by cases operator <;> exact Nat.zero_lt_succ _
      rw [List.length_append] at hlength
      obtain ⟨j, rfl⟩ : ∃ i, j = i + 1 := ⟨j - 1, by omega⟩
      rw [operations, operations, hstrip]
      simp only
      cases hread : operand r with
      | error f => rfl
      | ok read =>
        have hless := Pattern.Follows.length_lt (hoperand hread)
        simp only [bind, Except.bind]
        exact ih (by omega) (by omega)

theorem elements_succ (hclose : text.head? ≠ some ']') (htext : text ≠ [])
    (hoperator : operator? text = none) : elements operand start (k + 1) text =
      rangeOrOperand operand text >>= fun (n, r) =>
        elements operand start k r >>= fun (more, r) => .ok (n :: more, r) := by
  obtain ⟨c, tail, rfl⟩ := List.exists_cons_of_ne_nil htext
  rw [elements]
  · rw [hoperator]
    rfl
  · rintro r h
    cases h
    exact hclose rfl
  · exact htext

/-- An operator between elements is at fault where it stands. -/
theorem elements_operator (hclose : text.head? ≠ some ']') (htext : text ≠ [])
    (hoperator : (operator? text).isSome = true) :
    elements operand start (k + 1) text = .error ⟨.setOperation, text⟩ := by
  obtain ⟨c, tail, rfl⟩ := List.exists_cons_of_ne_nil htext
  rw [elements, if_pos hoperator]
  · rintro r h
    cases h
    exact hclose rfl
  · exact htext

include hoperand in
theorem elements_congr (hk : text.length ≤ k) (hj : text.length ≤ j) :
    elements operand start k text = elements operand start j text := by
  induction k generalizing j text with
  | zero =>
    obtain rfl := List.length_eq_zero_iff.1 (Nat.le_zero.1 hk)
    cases j <;> rfl
  | succ k ih =>
    by_cases htext : text = []
    · subst htext
      cases j <;> rfl
    by_cases hclose : text.head? = some ']'
    · obtain ⟨r, rfl⟩ := List.head?_eq_some_iff.1 hclose
      cases j <;> rfl
    have hpos := List.length_pos_iff.2 htext
    obtain ⟨j, rfl⟩ : ∃ i, j = i + 1 := ⟨j - 1, by omega⟩
    cases hoperator : operator? text with
    | some operator =>
      have hsome : (operator? text).isSome = true := by rw [hoperator]; rfl
      rw [elements_operator hclose htext hsome, elements_operator hclose htext hsome]
    | none =>
      rw [elements_succ hclose htext hoperator, elements_succ hclose htext hoperator]
      cases hread : rangeOrOperand operand text with
      | error f => rfl
      | ok read =>
        have hlength := Pattern.Follows.length_lt ((rangeOrOperand_iff.1 hread).tail hoperand)
        simp only [bind, Except.bind]
        rw [ih (by omega : read.2.length ≤ k) (by omega : _ ≤ j)]

end

end Class

/-! ## Loops that go on -/

namespace Pattern

open Lexeme

variable {setting : Setting}

/-- A loop that goes on stops where it would stop if it were started there, or with its fault. -/
theorem Again.outcome_eq {t u : Task} (h : Again setting t u) :
    t.outcome setting = u.outcome setting := by
  -- A round of the loop adds to what was read and leaves the text that the others have left.
  cases h with
  | bar hread hrest =>
    rename_i depth s s' n r
    have hlength := (Follows.of_cons (hrest ▸ (forward_alternative hread).suffix)).length_lt
    obtain ⟨k, hk⟩ : ∃ k, s.rest.length = k + 1 := ⟨s.rest.length - 1, by omega⟩
    have hnext : (s'.next r).rest.length ≤ k := show r.length ≤ k by omega
    show (alternatives _ s.rest.length s).map _ = (alternatives _ r.length (s'.next r)).map _
    rw [hk, alternatives_bar hread hrest,
      alternatives_congr termAt_tail hnext (Nat.le_refl r.length)]
    cases alternatives (termAt setting depth) r.length (s'.next r) <;> rfl
  | element hend hread =>
    rename_i depth s s' n
    have hfollows : Follows s.rest s'.rest := termAt_tail hread
    have hlength := hfollows.length_lt
    obtain ⟨k, hk⟩ : ∃ k, s.rest.length = k + 1 := ⟨s.rest.length - 1, by omega⟩
    have hnext : s'.rest.length ≤ k := by omega
    show (elements _ s.rest.length s).map _ = (elements _ s'.rest.length s').map _
    rw [hk, elements_succ hend, hread, ← elements_congr termAt_tail hnext (Nat.le_refl _)]
    simp only [bind, Except.bind]
    cases elements (termAt setting depth) k s' <;> rfl
  | item hclose hread =>
    rename_i start text r ns
    have hlength := (follows_item hread).length_lt
    have htext := List.ne_nil_of_length_pos (Nat.zero_lt_of_lt hlength)
    obtain ⟨k, hk⟩ : ∃ k, text.length = k + 1 := ⟨text.length - 1, by omega⟩
    have hnext : r.length ≤ k := by omega
    show (Class.items _ _ text.length text).map _ = (Class.items _ _ r.length r).map _
    rw [hk, Class.items_succ hclose htext, hread, ← Class.items_congr hnext (Nat.le_refl _)]
    simp only [bind, Except.bind]
    cases Class.items setting start k r <;> rfl
  | operation hstrip hread =>
    rename_i depth operator left right text r r'
    have hsuffix : r <:+ text := ⟨_, (Class.strip?_iff.1 hstrip).symm⟩
    have hlength := (Follows.of_suffix hsuffix (follows_operandAt hread)).length_lt
    obtain ⟨k, hk⟩ : ∃ k, text.length = k + 1 := ⟨text.length - 1, by omega⟩
    have hnext : r'.length ≤ k := by omega
    show (Class.operations _ _ text.length left text).map _ =
      (Class.operations _ _ r'.length _ r').map _
    rw [hk, Class.operations, hstrip,
      ← Class.operations_congr (Class.shortens_operand depth) hnext (Nat.le_refl _)]
    simp only [hread, bind, Except.bind]
  | member hclose hoperator hread =>
    rename_i depth start text r n
    have hlength := (follows_rangeOrOperand hread).length_lt
    have htext := List.ne_nil_of_length_pos (Nat.zero_lt_of_lt hlength)
    obtain ⟨k, hk⟩ : ∃ k, text.length = k + 1 := ⟨text.length - 1, by omega⟩
    have hnext : r.length ≤ k := by omega
    show (Class.elements _ _ text.length text).map _ = (Class.elements _ _ r.length r).map _
    rw [hk, Class.elements_succ hclose htext hoperator, hread,
      ← Class.elements_congr (Class.shortens_operand depth) hnext (Nat.le_refl _)]
    simp only [bind, Except.bind]
    cases Class.elements (operandAt setting depth) start k r <;> rfl
  | string hread =>
    rename_i start text r found
    have hlength := (Class.Letters.of_ok hread).stop.1.length_le
    rw [List.length_cons] at hlength
    have hnext : r.length < text.length := by omega
    show (Class.strings _ _ (text.length + 1) text).map _ =
      (Class.strings _ _ (r.length + 1) r).map _
    rw [Class.strings, hread, ← Class.strings_congr hnext (Nat.lt_succ_self _)]
    simp only [bind, Except.bind]
    cases Class.strings setting start text.length r <;> rfl
  | letter hc =>
    rename_i start r c
    show (Class.letters _ _ (r.length + 1) (c :: r)).map _ = (Class.letters _ _ r.length r).map _
    rw [Class.letters_cons hc]
    cases Class.letters setting start r.length r <;> rfl
  | escapedLetter hread =>
    rename_i start r r' value
    have hlength := (suffix_characterEscape hread).length_le
    show (Class.letters _ _ (r.length + 1) ('\\' :: r)).map _ =
      (Class.letters _ _ r'.length r').map _
    rw [Class.letters_escape, hread, ← Class.letters_congr hlength (Nat.le_refl _)]
    simp only [bind, Except.bind]
    cases Class.letters setting start r.length r' <;> rfl

end Pattern

end RegexAudit
