import RegexAudit.Proofs.Loops

/-!
# Faults

Where faults are reported. A fault of the small readers is at an end of their text. A class and a
string that are not closed are reported at their opening, which was read before: `Task.origin` is where
the text with that opening begins. Any other fault comes from a call.

    t.outcome setting = .error f → f.rest <:+ t.text ∨ f.rest = t.origin ∨
      ∃ u, Calls setting t u ∧ u.outcome setting = .error f                            (arises)

So the tree of calls holds every call that may fail.
-/

namespace RegexAudit

theorem bind_eq_error {ε α β : Type} {x : Except ε α} {f : α → Except ε β} {e : ε} :
    x >>= f = .error e ↔ x = .error e ∨ ∃ a, x = .ok a ∧ f a = .error e := by
  cases x <;> simp [bind, Except.bind]

theorem map_eq_error {ε α β : Type} {x : Except ε α} {f : α → β} {e : ε} :
    x.map f = .error e ↔ x = .error e := by
  cases x <;> simp [Except.map]

variable {setting : Setting} {r : List Char} {f : Fault}

/-! ## Faults of lexemes -/

namespace Lexeme

/-- A name is reported where it should start, or where it breaks off. -/
theorem fault_groupName (h : groupName r = .error f) : f.rest <:+ r := by
  unfold groupName at h
  split at h
  · cases h
    exact List.suffix_refl _
  · split at h
    · split at h
      · cases h
      · cases h
        exact (List.dropWhile_suffix _).trans (List.suffix_cons _ _)
    · cases h
      exact List.suffix_refl _

theorem fault_property {negate : Bool} (h : property setting negate r = .error f) :
    f.rest <:+ r := by
  unfold property at h
  split at h
  · split at h
    · split at h
      · cases h
        exact List.suffix_cons _ _
      · cases h
    · cases h
      exact List.suffix_cons _ _
  · cases h
    exact List.suffix_refl _

/-- A brace that starts no counts is reported where it stands. -/
theorem fault_counts? (h : counts? setting r = .error f) : f.rest = r := by
  unfold counts? at h
  split at h
  · cases h
  · cases h
  · cases h
  · split at h
    · cases h
    · split at h
      · cases h
        rfl
      · cases h
  · cases h

theorem fault_quantifier? (h : quantifier? setting r = .error f) : f.rest <:+ r := by
  rcases bind_eq_error.1 h with hcounts | ⟨⟨counts, r1⟩, hcounts, h⟩
  · exact fault_counts? hcounts ▸ List.suffix_refl _
  · cases counts with
    | none => cases h
    | some counts =>
      simp only at h
      split at h
      · cases h
        obtain ⟨c, tail, rfl, hsuffix⟩ := (counts?_eq_some.1 hcounts).tail
        exact hsuffix.trans (List.suffix_cons _ _)
      · split at h <;> cases h

theorem fault_shorthand? (h : shorthand? setting r = .error f) : f.rest <:+ r := by
  cases r with
  | nil => cases h
  | cons c r =>
    rcases shorthand?_cons c with ⟨set, -, hread⟩ | ⟨-, hread⟩
    · rw [hread] at h
      cases h
    · rw [hread] at h
      split at h
      · exact (fault_property (map_eq_error.1 h)).trans (List.suffix_cons _ _)
      · cases h

theorem fault_fourDigits (h : fourDigits setting r = .error f) : f.rest = r := by
  unfold fourDigits at h
  split at h
  · split at h
    · cases h
      rfl
    · cases h
  · split at h
    · split at h <;> cases h
    · cases h

/-- What is wrong behind a `u` is reported right behind it. -/
theorem fault_unicodeEscape (h : unicodeEscape setting r = .error f) : f.rest = r := by
  unfold unicodeEscape at h
  split at h
  · split at h
    · split at h
      · cases h
      · cases h
        rfl
    · exact fault_fourDigits h
  · exact fault_fourDigits h

theorem fault_controlEscape {inClass : Bool} {text : List Char}
    (h : controlEscape setting inClass text r = .error f) : f.rest = r := by
  unfold controlEscape at h
  split at h
  · split at h
    · cases h
    · split at h
      · cases h
        rfl
      · cases h
  · split at h
    · cases h
      rfl
    · cases h

/-- An escape is reported at its letter or behind it. -/
theorem fault_characterEscape {inClass : Bool} (h : characterEscape setting inClass r = .error f) :
    f.rest <:+ r := by
  unfold characterEscape at h
  split at h
  · cases h
    exact List.suffix_refl _
  · cases h
  · cases h
  · cases h
  · cases h
  · cases h
  · rw [fault_controlEscape h]
    exact List.suffix_cons _ _
  · split at h
    · cases h
    · split at h
      · cases h
        exact List.suffix_cons _ _
      · cases h
  · rw [fault_unicodeEscape h]
    exact List.suffix_cons _ _
  · split at h
    · cases h
    · split at h
      · split at h
        · cases h
          exact List.suffix_refl _
        · cases h
      · split at h
        · cases h
        · split at h
          · split at h
            · cases h
            · cases h
              exact List.suffix_refl _
          · split at h
            · cases h
              exact List.suffix_refl _
            · cases h

end Lexeme

theorem Class.fault_escaped (h : Class.escaped setting r = .error f) : f.rest <:+ r := by
  rcases bind_eq_error.1 h with hset | ⟨⟨set, after⟩, hset, h⟩
  · exact Lexeme.fault_shorthand? hset
  · cases set with
    | some set => cases h
    | none =>
      rcases bind_eq_error.1 h with hvalue | ⟨⟨value, rest⟩, -, h⟩
      · exact Lexeme.fault_characterEscape hvalue
      · cases h

/-- A range out of order is reported where the range starts. -/
theorem Class.fault_makeRange {start : List Char} {otherwise : Except Fault (List Node)}
    {min max : Node} (h : Class.makeRange start otherwise min max = .error f) :
    f.rest = start ∨ otherwise = .error f := by
  unfold Class.makeRange at h
  split at h
  · split at h
    · cases h
      exact .inl rfl
    · cases h
  · exact .inr h

namespace Pattern

open Lexeme Node

theorem fault_escaped (h : escaped setting r = .error f) : f.rest <:+ r := by
  rcases bind_eq_error.1 h with hset | ⟨⟨set, after⟩, hset, h⟩
  · exact Lexeme.fault_shorthand? hset
  cases set with
  | some set => cases h
  | none =>
    simp only at h
    split at h
    · cases h
      exact List.suffix_refl _
    · split at h
      · split at h
        · rcases bind_eq_error.1 h with hname | ⟨⟨name, rest⟩, -, h⟩
          · exact (Lexeme.fault_groupName hname).trans (List.suffix_append [_, '<'] _)
          · cases h
        · cases h
          exact List.suffix_cons _ _
      · split at h
        · split at h
          · split at h
            · cases h
            · split at h
              · cases h
                exact List.suffix_refl _
              · cases h
          · cases h
            exact List.suffix_refl _
        · rcases bind_eq_error.1 h with hvalue | ⟨⟨value, rest⟩, -, h⟩
          · exact Lexeme.fault_characterEscape hvalue
          · cases h

/-! ## Where faults arise -/

/-- A fault of a task is reported at an end of its text or at its origin, or it is the fault of a
task that is called. -/
inductive Arises (setting : Setting) (t : Task) (f : Fault) : Prop
  | here : f.rest <:+ t.text → Arises setting t f
  | origin : f.rest = t.origin → Arises setting t f
  | call {u : Task} : Calls setting t u → u.outcome setting = .error f → Arises setting t f

section
variable {depth : Nat} {start text : List Char}

/-! ### In classes -/

theorem arises_classAtom (h : Class.atom setting text = .error f) :
    Arises setting (.classAtom text) f := by
  unfold Class.atom at h
  split at h
  · cases h
    exact .here (List.suffix_refl _)
  · exact .call .atomEscape (map_eq_error.2 h)
  · cases h

/-- The two ends of a range are read by calls; only the range itself can be at fault here. -/
theorem arises_item (h : Class.item setting text = .error f) : Arises setting (.item text) f := by
  rcases bind_eq_error.1 h with hfirst | ⟨⟨min, r⟩, hfirst, h⟩
  · exact .call .first (map_eq_error.2 hfirst)
  simp only at h
  split at h
  · split at h
    · cases h
    · rename_i c r' hc
      rcases bind_eq_error.1 h with hlast | ⟨⟨max, r⟩, -, h⟩
      · exact .call (.last hfirst (by simpa using hc)) (map_eq_error.2 hlast)
      rcases bind_eq_error.1 h with hrange | ⟨ns, -, h⟩
      · rcases Class.fault_makeRange hrange with hstart | hother
        · exact .here (hstart ▸ List.suffix_refl _)
        · split at hother
          · cases hother
            exact .here (List.suffix_refl _)
          · cases hother
      · cases h
  · cases h

/-- A class that is not closed is reported at its opening, and every other fault of the loop is one of
an item, or of the loop that goes on behind it. -/
theorem arises_items (h : Class.items setting start text.length text = .error f) :
    Arises setting (.items start text) f := by
  by_cases htext : text = []
  · subst htext
    cases h
    exact .origin rfl
  by_cases hclose : text.head? = some ']'
  · obtain ⟨r, rfl⟩ := List.head?_eq_some_iff.1 hclose
    cases h
  cases hread : Class.item setting text with
  | error f' =>
    have hpos := List.length_pos_iff.2 htext
    obtain ⟨k, hk⟩ : ∃ k, text.length = k + 1 := ⟨text.length - 1, by omega⟩
    rw [hk, Class.items_succ hclose htext, hread] at h
    cases h
    exact .call (.item hclose htext) (map_eq_error.2 hread)
  | ok read =>
    have hagain : Again setting (.items start text) (.items start read.2) := .item hclose hread
    exact .call (.again hagain) (hagain.outcome_eq ▸ map_eq_error.2 h)

theorem arises_letters (h : Class.letters setting start text.length text = .error f) :
    Arises setting (.letters start text) f := by
  cases text with
  | nil =>
    cases h
    exact .origin rfl
  | cons c r =>
    by_cases hescape : c = '\\'
    · subst hescape
      cases hread : characterEscape setting true r with
      | error f' =>
        rw [List.length_cons, Class.letters_escape, hread] at h
        cases h
        exact .call .letterEscape (map_eq_error.2 hread)
      | ok read =>
        have hagain : Again setting (.letters start ('\\' :: r)) (.letters start read.2) :=
          .escapedLetter hread
        exact .call (.again hagain) (hagain.outcome_eq ▸ map_eq_error.2 h)
    · by_cases hstop : c ∈ ['|', '}']
      · simp only [List.mem_cons, List.not_mem_nil, or_false] at hstop
        rcases hstop with rfl | rfl <;> cases h
      · have hagain : Again setting (.letters start (c :: r)) (.letters start r) :=
          .letter (by simp_all)
        exact .call (.again hagain) (hagain.outcome_eq ▸ map_eq_error.2 h)

theorem arises_strings (h : Class.strings setting start (text.length + 1) text = .error f) :
    Arises setting (.strings start text) f := by
  cases hread : Class.letters setting start text.length text with
  | error f' =>
    rw [Class.strings, hread] at h
    cases h
    exact .call .letters (map_eq_error.2 hread)
  | ok read =>
    by_cases hbar : ∃ r, read.2 = '|' :: r
    · obtain ⟨r, hr⟩ := hbar
      have hread : Class.letters setting start text.length text = .ok (read.1, '|' :: r) := by
        rw [hread, ← hr]
      have hagain : Again setting (.strings start text) (.strings start r) := .string hread
      exact .call (.again hagain) (hagain.outcome_eq ▸ map_eq_error.2 h)
    · rw [Class.strings, hread] at h
      simp only [bind, Except.bind] at h
      split at h
      · exact absurd ⟨_, ‹_›⟩ hbar
      · cases h

theorem arises_operand (h : operandAt setting depth text = .error f) :
    Arises setting (.operand depth text) f := by
  unfold operandAt Class.operand at h
  split at h
  · cases h
    exact .here (List.suffix_refl _)
  · exact .call .inner (map_eq_error.2 h)
  · rcases bind_eq_error.1 h with hstrings | ⟨⟨found, r⟩, -, h⟩
    · exact .call .strings (map_eq_error.2 hstrings)
    · cases h
  · rename_i r hstrings
    exact .call (.operandEscape fun r' hr => hstrings r' (by rw [hr])) (map_eq_error.2 h)
  · split at h
    · cases h
      exact .here (List.suffix_refl _)
    · cases h

theorem arises_rangeOrOperand
    (h : Class.rangeOrOperand (operandAt setting depth) text = .error f) :
    Arises setting (.rangeOrOperand depth text) f := by
  rcases bind_eq_error.1 h with hlower | ⟨⟨min, r⟩, hlower, h⟩
  · exact .call .lower (map_eq_error.2 hlower)
  simp only at h
  split at h
  · cases h
  · rename_i r hhyphen
    rcases bind_eq_error.1 h with hupper | ⟨⟨max, r'⟩, -, h⟩
    · refine .call (.upper hlower fun hr => ?_) (map_eq_error.2 hupper)
      obtain ⟨r', rfl⟩ := List.head?_eq_some_iff.1 hr
      exact hhyphen _ rfl
    rcases bind_eq_error.1 h with hrange | ⟨ns, -, h⟩
    · rcases Class.fault_makeRange hrange with hstart | hother
      · exact .here (hstart ▸ List.suffix_refl _)
      · cases hother
        exact .here (List.suffix_refl _)
    · cases h
  · cases h

theorem arises_operations {operator : SetOperator} {left : Node}
    (h : Class.operations (operandAt setting depth) operator text.length left text = .error f) :
    Arises setting (.operations depth operator left text) f := by
  cases hlength : text.length with
  | zero =>
    rw [hlength] at h
    cases h
  | succ k =>
    cases hstrip : Text.strip? operator.text text with
    | none =>
      rw [hlength, Class.operations, hstrip] at h
      cases h
    | some r =>
      cases hread : operandAt setting depth r with
      | error f' =>
        rw [hlength, Class.operations, hstrip] at h
        simp only [hread] at h
        cases h
        exact .call (.right hstrip) (map_eq_error.2 hread)
      | ok read =>
        have hagain : Again setting (.operations depth operator left text)
            (.operations depth operator (.classOperation operator left read.1) read.2) :=
          .operation hstrip hread
        exact .call (.again hagain) (hagain.outcome_eq ▸ map_eq_error.2 h)

theorem arises_members
    (h : Class.elements (operandAt setting depth) start text.length text = .error f) :
    Arises setting (.members depth start text) f := by
  by_cases htext : text = []
  · subst htext
    cases h
    exact .origin rfl
  by_cases hclose : text.head? = some ']'
  · obtain ⟨r, rfl⟩ := List.head?_eq_some_iff.1 hclose
    cases h
  have hpos := List.length_pos_iff.2 htext
  obtain ⟨k, hk⟩ : ∃ k, text.length = k + 1 := ⟨text.length - 1, by omega⟩
  cases hoperator : Class.operator? text with
  | some operator =>
    rw [hk, Class.elements_operator hclose htext (by rw [hoperator]; rfl)] at h
    cases h
    exact .here (List.suffix_refl _)
  | none =>
    cases hread : Class.rangeOrOperand (operandAt setting depth) text with
    | error f' =>
      rw [hk, Class.elements_succ hclose htext hoperator, hread] at h
      cases h
      exact .call (.member hclose htext hoperator) (map_eq_error.2 hread)
    | ok read =>
      have hagain : Again setting (.members depth start text) (.members depth start read.2) :=
        .member hclose hoperator hread
      exact .call (.again hagain) (hagain.outcome_eq ▸ map_eq_error.2 h)

/-- The fault of a class in a class is that of a part of it, except for classes that are nested too
deeply and for operators where none may stand. -/
theorem arises_nested (h : Class.nested setting depth text = .error f) :
    Arises setting (.nested depth text) f := by
  cases depth with
  | zero =>
    cases h
    exact .here (List.suffix_refl _)
  | succ depth =>
    rw [Class.nested, Class.body] at h
    simp only at h
    split at h
    · cases h
    · rename_i hclose
      have hnegation := Class.suffix_negation text
      rcases bind_eq_error.1 h with hfirst | ⟨⟨first, after⟩, hfirst, h⟩
      · refine .call (.body fun hr => ?_) (map_eq_error.2 hfirst)
        obtain ⟨r, hr⟩ := List.head?_eq_some_iff.1 hr
        exact hclose _ hr
      simp only at h
      split at h
      · rename_i operator hoperator
        split at h
        · cases h
          exact .here hnegation
        · rename_i hrange
          rcases bind_eq_error.1 h with hmore | ⟨⟨expression, r⟩, hmore, h⟩
          · exact .call (.operations hfirst hoperator (by simpa using hrange))
              (map_eq_error.2 hmore)
          · simp only at h
            split at h
            · cases h
            · cases h
              have hsuffix :=
                (Class.Operations.of_ok hmore).suffix (Class.shortens_operand depth)
              exact .here (hsuffix.trans ((follows_rangeOrOperand hfirst).suffix.trans hnegation))
      · rename_i hoperator
        rcases bind_eq_error.1 h with hmore | ⟨⟨more, r⟩, -, h⟩
        · exact .call (.members hfirst hoperator) (map_eq_error.2 hmore)
        · cases h

/-! ### In patterns -/

variable {s : Progress}

/-- What opens a group or a lookaround calls the reader of what is in it, and a parenthesis that is
missing is reported where that reader stopped. -/
theorem arises_opened {o : Opening} {r : List Char} (hopens : s.rest = o.text ++ r)
    (hallowed : o.Allowed s r)
    (h : unquantified setting (disjunction setting depth) (Class.nested setting depth) s =
      .error f) : Arises setting (.term depth s) f := by
  rw [unquantified_open hopens hallowed] at h
  rcases bind_eq_error.1 (map_eq_error.1 h) with hinside | ⟨⟨ns, s1⟩, hinside, h⟩
  · exact .call (.opened hopens hallowed) (map_eq_error.2 hinside)
  · have hforward : s.Forward s1 :=
      (Progress.Forward.enter hopens).trans ((kept_forward setting).disjunction hinside)
    simp only at h
    split at h
    · cases h
    · cases h
      exact .here hforward.suffix

/-- The name of a group is read by a call. A name that is taken is reported at the parenthesis. -/
theorem arises_group {r : List Char} (hrest : s.rest = '(' :: r)
    (hother : opensAssertion s.rest = false)
    (hread : unquantified setting (disjunction setting depth) (Class.nested setting depth) s =
      .error f)
    (h : group (disjunction setting depth) ('(' :: r) (s.next r) = .error f) :
    Arises setting (.term depth s) f := by
  unfold group at h
  split at h
  · rename_i hmark
    exact arises_opened (o := .plain) (hrest.trans (congrArg _ hmark)) trivial hread
  · rename_i r1 hmark
    have hopens : s.rest = '(' :: '?' :: '<' :: r1 := hrest.trans (congrArg _ hmark)
    rw [hopens] at hother
    rcases bind_eq_error.1 h with hname | ⟨⟨name, r2⟩, hname, hgroup⟩
    · refine .call (.name hopens (fun hr => ?_) fun hr => ?_) (map_eq_error.2 hname)
      · obtain ⟨r2, rfl⟩ := List.head?_eq_some_iff.1 hr
        cases hother
      · obtain ⟨r2, rfl⟩ := List.head?_eq_some_iff.1 hr
        cases hother
    · obtain ⟨hisName, rfl⟩ := Lexeme.groupName_iff.1 hname
      simp only at hgroup
      split at hgroup
      · cases hgroup
        exact .here (hrest ▸ List.suffix_refl _)
      · rename_i hnew
        have hnew : name ∉ s.names := by simpa [Progress.next] using hnew
        refine arises_opened (o := .capture (some name)) (r := r2) ?_ ⟨hisName, hnew⟩ hread
        rw [hopens]
        simp [Opening.text, Frame.opening]
  · rename_i r1 _ _ hmark
    cases h
    have hopens : s.rest = '(' :: '?' :: r1 := hrest.trans (congrArg _ hmark)
    refine .here (?_ : '?' :: r1 <:+ s.rest)
    rw [hopens]
    exact List.suffix_cons _ _
  · rename_i hmark
    refine arises_opened (o := .capture none) (r := r) hrest (fun hr => ?_) hread
    obtain ⟨r1, rfl⟩ := List.head?_eq_some_iff.1 hr
    exact hmark _ rfl

theorem arises_atom (hother : opensAssertion s.rest = false)
    (hread : unquantified setting (disjunction setting depth) (Class.nested setting depth) s =
      .error f)
    (h : atom setting (disjunction setting depth) (Class.nested setting depth) s = .error f) :
    Arises setting (.term depth s) f := by
  unfold atom at h
  split at h
  · cases h
    exact .here (List.nil_suffix)
  · cases h
  · rename_i r hrest
    exact arises_group hrest hother hread h
  · rename_i r hrest
    simp only at h
    split at h
    · rename_i hsets
      rcases bind_eq_error.1 h with hclass | ⟨⟨node, r1⟩, -, h⟩
      · exact .call (.nested hrest hsets) (map_eq_error.2 hclass)
      · cases h
    · rename_i hsets
      rcases bind_eq_error.1 h with hclass | ⟨⟨node, r1⟩, -, h⟩
      · exact .call (.listed hrest (by simpa using hsets)) (map_eq_error.2 hclass)
      · cases h
  · rename_i r hrest
    rw [hrest] at hother
    rcases bind_eq_error.1 h with hescape | ⟨⟨node, r1⟩, -, h⟩
    · refine .call (.escape hrest (fun hr => ?_) fun hr => ?_) (map_eq_error.2 hescape)
      · obtain ⟨r1, rfl⟩ := List.head?_eq_some_iff.1 hr
        cases hother
      · obtain ⟨r1, rfl⟩ := List.head?_eq_some_iff.1 hr
        cases hother
    · cases h
  · rename_i hrest
    split at h
    · cases h
      exact .here (hrest ▸ List.suffix_refl _)
    · cases h

/-- An edge has no faults. Any other fault is that of an atom or of what opens, or it is a quantifier
with nothing in front of it. -/
theorem arises_unquantified
    (h : unquantified setting (disjunction setting depth) (Class.nested setting depth) s =
      .error f) : Arises setting (.term depth s) f := by
  have hread := h
  cases hopens : opensAssertion s.rest with
  | false =>
    rw [unquantified_of_atom _ _ _ hopens] at h
    split at h
    · cases h
      exact .here (List.suffix_refl _)
    · split at h
      · cases h
        exact .here (List.suffix_refl _)
      · exact arises_atom hopens hread (map_eq_error.1 h)
  | true =>
    obtain ⟨e, r, hrest⟩ | ⟨direction, negate, r, hrest⟩ := opensAssertion_cases hopens
    · have hleaf : Leaf setting (Class.nested setting depth) s.rest (.edge e) false r :=
        hrest ▸ .edge e r
      rw [unquantified_leaf hleaf] at h
      cases h
    · exact arises_opened (o := .look direction negate) hrest trivial hread

/-- Once an element is read, only a quantifier can be at fault: by itself, or since it stands where
nothing can be repeated. -/
theorem fault_finish {element : Node} {repeats : Bool}
    (h : finish setting element repeats s = .error f) :
    (repeats = true ∧ quantifier? setting s.rest = .error f) ∨ f.rest = s.rest := by
  cases repeats with
  | true =>
    rcases bind_eq_error.1 (show quantified setting element s = _ from h) with hread | ⟨read, -, h⟩
    · exact .inl ⟨rfl, hread⟩
    · simp only at h
      split at h <;> cases h
  | false =>
    have h : unrepeatable element s = _ := h
    unfold unrepeatable at h
    split at h
    · cases h
      exact .inr rfl
    · cases h

/-- The fault of a term is that of its element, or of the quantifier behind it. -/
theorem arises_term (h : termAt setting depth s = .error f) :
    Arises setting (.term depth s) f := by
  rw [termAt, term_eq_finish] at h
  rcases bind_eq_error.1 h with hread | ⟨⟨⟨element, repeats⟩, s1⟩, hread, hfinish⟩
  · exact arises_unquantified hread
  · rcases fault_finish hfinish with ⟨rfl, hquantifier⟩ | hrest
    · exact .call (.quantifier hread) (map_eq_error.2 hquantifier)
    · exact .here (hrest ▸ (follows_unquantified hread).suffix)

theorem arises_elements (h : elements (termAt setting depth) s.rest.length s = .error f) :
    Arises setting (.elements depth s) f := by
  by_cases hend : AtEnd s.rest
  · rw [elements_atEnd _ hend] at h
    cases h
  cases hread : termAt setting depth s with
  | error f' =>
    have hpos := length_pos_of_not_atEnd hend
    obtain ⟨k, hk⟩ : ∃ k, s.rest.length = k + 1 := ⟨s.rest.length - 1, by omega⟩
    rw [hk, elements_succ hend, hread] at h
    cases h
    exact .call (.term hend) (map_eq_error.2 hread)
  | ok read =>
    have hagain : Again setting (.elements depth s) (.elements depth read.2) := .element hend hread
    exact .call (.again hagain) (hagain.outcome_eq ▸ map_eq_error.2 h)

theorem arises_alternatives
    (h : alternatives (termAt setting depth) s.rest.length s = .error f) :
    Arises setting (.alternatives depth s) f := by
  cases hread : alternative (termAt setting depth) s with
  | error f' =>
    rw [alternatives_error hread] at h
    cases h
    rcases bind_eq_error.1 hread with helements | ⟨read, -, h⟩
    · exact .call .elements (map_eq_error.2 helements)
    · cases h
  | ok read =>
    by_cases hbar : ∃ r, read.2.rest = '|' :: r
    · obtain ⟨r, hr⟩ := hbar
      have hagain : Again setting (.alternatives depth s) (.alternatives depth (read.2.next r)) :=
        .bar hread hr
      exact .call (.again hagain) (hagain.outcome_eq ▸ map_eq_error.2 h)
    · rw [alternatives_last hread fun r hr => hbar ⟨r, hr⟩] at h
      cases h

end

/-- A fault is the task's own, or it comes from a call. -/
theorem arises {t : Task} (h : t.outcome setting = .error f) : Arises setting t f := by
  cases t with
  | disjunction depth s =>
    cases depth with
    | zero =>
      cases h
      exact .here (List.suffix_refl _)
    | succ depth => exact .call .alternatives h
  | alternatives depth s => exact arises_alternatives (map_eq_error.1 h)
  | elements depth s => exact arises_elements (map_eq_error.1 h)
  | term depth s => exact arises_term (map_eq_error.1 h)
  | escape r => exact .here (fault_escaped (map_eq_error.1 h))
  | quantifier r => exact .here (fault_quantifier? (map_eq_error.1 h))
  | braces r => cases h
  | decimal r => cases h
  | groupName r => exact .here (fault_groupName (map_eq_error.1 h))
  | property negate r => exact .here (fault_property (map_eq_error.1 h))
  | characterEscape inClass r => exact .here (fault_characterEscape (map_eq_error.1 h))
  | octal r => cases h
  | hex digits r => cases h
  | unicodeEscape r =>
    exact .here (fault_unicodeEscape (map_eq_error.1 h) ▸ List.suffix_refl _)
  | bracedCode r => cases h
  | fourDigits r => exact .here (fault_fourDigits (map_eq_error.1 h) ▸ List.suffix_refl _)
  | trailSurrogate r => cases h
  | listed r =>
    rcases bind_eq_error.1 (map_eq_error.1 h) with hitems | ⟨read, -, h⟩
    · exact .call .items (map_eq_error.2 hitems)
    · cases h
  | items start r => exact arises_items (map_eq_error.1 h)
  | item r => exact arises_item (map_eq_error.1 h)
  | classAtom r => exact arises_classAtom (map_eq_error.1 h)
  | classEscape r => exact .here (Class.fault_escaped (map_eq_error.1 h))
  | nested depth r => exact arises_nested (map_eq_error.1 h)
  | rangeOrOperand depth r => exact arises_rangeOrOperand (map_eq_error.1 h)
  | operand depth r => exact arises_operand (map_eq_error.1 h)
  | operations depth operator left r => exact arises_operations (map_eq_error.1 h)
  | members depth start r => exact arises_members (map_eq_error.1 h)
  | strings start r => exact arises_strings (map_eq_error.1 h)
  | letters start r => exact arises_letters (map_eq_error.1 h)

end Pattern

end RegexAudit
