import RegexAudit.Proofs.Classes
import RegexAudit.Proofs.Fences

/-!
# Classes before other texts

A class ends with a bracket, so it is read the same whatever comes after it:

    listed setting text = .ok (n, rest) →
      text = w ++ rest  and  listed setting' (w ++ rest') = .ok (n, rest') for every rest'

With nothing after it, a class is read from its own text alone. What stands in a class is read the
same before two texts `u` and `u'` if both end the class there, and mostly also if `u'` is empty.
-/

namespace RegexAudit

theorem textBefore_alone (w r u : List Char) : textBefore (w ++ u) (r ++ u) = textBefore w r := by
  unfold textBefore
  rw [List.length_append, List.length_append, Nat.add_sub_add_right,
    List.take_append_of_le_length (by omega)]

namespace Class

open Lexeme

/-- The second reader reads before `u'` what the first one reads before `u`. -/
def AgreesBefore (u u' : List Char) (reader reader' : List Char → Except Fault (Node × List Char)) :
    Prop :=
  ∀ ⦃w r : List Char⦄ ⦃n : Node⦄, reader (w ++ u) = .ok (n, r ++ u) →
    reader' (w ++ u') = .ok (n, r ++ u')

/-- The second reader reads before any text what the first one reads before one. -/
def Agrees (reader reader' : List Char → Except Fault (Node × List Char)) : Prop :=
  ∀ ⦃text rest : List Char⦄ ⦃n : Node⦄, reader text = .ok (n, rest) →
    ∃ w, text = w ++ rest ∧ ∀ rest', reader' (w ++ rest') = .ok (n, rest')

theorem Agrees.before {reader reader' : List Char → Except Fault (Node × List Char)}
    (h : Agrees reader reader') (u u' : List Char) : AgreesBefore u u' reader reader' := by
  intro w r n hread
  obtain ⟨x, hx, hagrees⟩ := h hread
  rw [← List.append_assoc] at hx
  obtain rfl := List.append_cancel_right hx
  rw [List.append_assoc]
  exact hagrees _

variable {setting setting' : Setting} (hnarrows : setting'.Narrows setting) {w r u u' : List Char}
  {n : Node} {ns : List Node}

include hnarrows

section
variable (hu' : Fence u')

include hu'

/-! ## Characters and shorthands -/

theorem Escape.before (hend : Delimited setting r u) (h : Escape setting (w ++ u) n (r ++ u)) :
    Escape setting' (w ++ u') n (r ++ u') := by
  cases h with
  | shorthand h => exact .shorthand (shorthand?_joined hnarrows u' h)
  | character hset h =>
    have hw := ne_nil_of_characterEscape hend h
    have hvalue := characterEscape_fence hu' hnarrows hw h
    obtain ⟨c, w, rfl⟩ := List.exists_cons_of_ne_nil hw
    rw [textBefore_alone, ← textBefore_alone _ _ u']
    exact .character (shorthand?_none_joined hnarrows _ hset) hvalue

theorem Atom.before (hend : Delimited setting r u) (h : Atom setting (w ++ u) n (r ++ u)) :
    Atom setting' (w ++ u') n (r ++ u') := by
  generalize htext : w ++ u = text at h
  generalize hrest : r ++ u = rest at h
  cases h with
  | escape h =>
    obtain ⟨w, rfl, rfl⟩ := exists_cons_of_suffix htext (hrest ▸ h.suffix)
    subst hrest
    exact .escape (h.before hnarrows hu' hend)
  | self hc _ =>
    subst hrest
    obtain ⟨w, rfl, heq⟩ := exists_cons_of_suffix htext (List.suffix_refl _)
    obtain rfl := List.append_cancel_right heq
    exact .self hc _

/-! ## Strings -/

theorem Letters.before {found : List Letter} (h : Letters setting (w ++ u) found (r ++ u))
    (hr : r ≠ []) : Letters setting' (w ++ u') found (r ++ u') := by
  obtain ⟨d, r, rfl⟩ := List.exists_cons_of_ne_nil hr
  generalize htext : w ++ u = text at h
  generalize hrest : d :: r ++ u = rest at h
  induction h generalizing w with
  | bar t =>
    obtain rfl := List.append_cancel_right (htext.trans hrest.symm)
    obtain ⟨rfl, -⟩ := List.cons.inj hrest
    exact .bar _
  | brace t =>
    obtain rfl := List.append_cancel_right (htext.trans hrest.symm)
    obtain ⟨rfl, -⟩ := List.cons.inj hrest
    exact .brace _
  | @escape t after _ _ _ hvalue hmore ih =>
    have hleft : d :: r ++ u <:+ after := hrest ▸ hmore.stop.1
    have hread := suffix_characterEscape hvalue
    obtain ⟨w, rfl, rfl⟩ := exists_cons_of_suffix htext (hleft.trans hread)
    obtain ⟨front, hfront⟩ := hleft
    obtain rfl : front ++ d :: r ++ u = after := by rw [← hfront, List.append_assoc]
    have hend : Delimited setting (front ++ d :: r) u := .inr (.inl (by simp))
    have hw := ne_nil_of_characterEscape hend hvalue
    have hvalue' := characterEscape_fence hu' hnarrows hw hvalue
    rw [textBefore_alone, ← textBefore_alone _ _ u']
    exact .escape hvalue' (ih rfl hrest)
  | self hc hmore ih =>
    obtain ⟨w, rfl, rfl⟩ := exists_cons_of_suffix htext (hrest ▸ hmore.stop.1)
    exact .self hc (ih rfl hrest)

theorem Strings.before {found : List (List Letter)} (h : Strings setting (w ++ u) found (r ++ u)) :
    Strings setting' (w ++ u') found (r ++ u') := by
  generalize htext : w ++ u = text at h
  generalize hrest : r ++ u = rest at h
  induction h generalizing w with
  | last h =>
    subst htext hrest
    exact .last (Letters.before (r := '}' :: r) hnarrows hu' h (List.cons_ne_nil _ _))
  | cons h hmore ih =>
    subst htext
    obtain ⟨t, rfl⟩ := exists_of_suffix (r := '}' :: r) (hrest ▸ hmore.suffix)
    have hfirst := Letters.before (r := '|' :: t) hnarrows hu' h (List.cons_ne_nil _ _)
    exact .cons hfirst (ih rfl hrest)

/-! ## Operands -/

variable {inner inner' : List Char → Except Fault (Node × List Char)}

theorem Operand.before (hsuffix : ∀ {r rest n}, inner r = .ok (n, rest) → rest <:+ r)
    (hinner : AgreesBefore u u' inner inner') (hend : Delimited setting r u)
    (h : Operand setting inner (w ++ u) n (r ++ u)) :
    Operand setting' inner' (w ++ u') n (r ++ u') := by
  generalize htext : w ++ u = text at h
  generalize hrest : r ++ u = rest at h
  cases h with
  | nested h =>
    subst hrest
    obtain ⟨w, rfl, rfl⟩ := exists_cons_of_suffix htext (hsuffix h)
    exact .nested (hinner h)
  | strings h =>
    subst hrest
    obtain ⟨w, rfl⟩ := exists_of_suffix (r := '}' :: r) h.suffix
    obtain rfl := by
      rw [← List.cons_append, ← List.cons_append, ← List.cons_append] at htext
      exact List.append_cancel_right htext
    exact .strings (h.before hnarrows hu')
  | escape hq h =>
    obtain ⟨w, rfl, rfl⟩ := exists_cons_of_suffix htext (hrest ▸ h.suffix)
    subst hrest
    refine .escape (fun t ht => ?_) (h.before hnarrows hu' hend)
    obtain ⟨x, rfl, hx⟩ := hu'.exists_cons (by decide) ht
    obtain ⟨x, rfl, -⟩ := hu'.exists_cons (by decide) hx.symm
    exact hq _ rfl
  | self hc hreserved _ =>
    subst hrest
    obtain ⟨w, rfl, heq⟩ := exists_cons_of_suffix htext (List.suffix_refl _)
    obtain rfl := List.append_cancel_right heq
    exact .self hc hreserved _

omit hnarrows hu' in
theorem Operations.before {operand operand' : List Char → Except Fault (Node × List Char)}
    (hshort : Shortens operand) (hoperand : AgreesBefore u u' operand operand')
    {operator : SetOperator} {left : Node}
    (h : Operations operand operator left (w ++ u) n (r ++ u)) :
    Operations operand' operator left (w ++ u') n (r ++ u') := by
  generalize htext : w ++ u = text at h
  generalize hrest : r ++ u = rest at h
  induction h generalizing w with
  | nil left t =>
    obtain rfl := List.append_cancel_right (htext.trans hrest.symm)
    exact .nil _ _
  | cons hright hmore ih =>
    have hleft := hmore.suffix hshort
    rw [← hrest] at hleft
    obtain ⟨m, rfl⟩ := exists_of_suffix hleft
    obtain ⟨c, tail, rfl, hsuffix⟩ := hshort hright
    obtain ⟨t, rfl⟩ := exists_of_suffix hsuffix
    rw [← List.cons_append, ← List.append_assoc] at htext
    obtain rfl := List.append_cancel_right htext
    rw [List.append_assoc]
    exact .cons (hoperand (w := c :: t) hright) (ih rfl hrest)

end

/-! ## Before the closing bracket -/

theorem Item.before {t t' : List Char} (h : Item setting (w ++ ']' :: t) ns (r ++ ']' :: t)) :
    Item setting' (w ++ ']' :: t') ns (r ++ ']' :: t') := by
  have hend {r : List Char} : Delimited setting r (']' :: t) := .inr (.inr (.bracket t))
  generalize hrest : r ++ ']' :: t = rest at h
  cases h with
  | single ha hr =>
    subst hrest
    refine .single (ha.before hnarrows (.bracket t') hend) fun c s hs => ?_
    rcases r with _ | ⟨d, _ | ⟨e, r⟩⟩
    · cases hs
    · exact (List.cons.inj (List.cons.inj hs).2).1.symm
    · obtain ⟨rfl, htail⟩ := List.cons.inj hs
      obtain ⟨rfl, -⟩ := List.cons.inj htail
      exact hr _ _ rfl
  | range ha hr hb hle =>
    subst hrest
    obtain ⟨c, tail, rfl, hsuffix⟩ := hb.tail
    obtain ⟨m, rfl⟩ := exists_of_suffix hsuffix
    have ha := Atom.before (r := '-' :: c :: m) hnarrows (.bracket t') hend ha
    have hb := Atom.before (w := c :: m) hnarrows (.bracket t') hend hb
    exact .range ha hr hb hle
  | apart hlenient ha hr hb hab =>
    subst hrest
    obtain ⟨c, tail, rfl, hsuffix⟩ := hb.tail
    obtain ⟨m, rfl⟩ := exists_of_suffix hsuffix
    have ha := Atom.before (r := '-' :: c :: m) hnarrows (.bracket t') hend ha
    have hb := Atom.before (w := c :: m) hnarrows (.bracket t') hend hb
    exact .apart (hnarrows.strict.trans hlenient) ha hr hb hab

omit hnarrows in
/-- A bracket that does not stand at the front may have any text behind it. -/
theorem head?_bracket {t t' : List Char} (h : (w ++ ']' :: t).head? ≠ some ']') :
    (w ++ ']' :: t').head? ≠ some ']' := by
  cases w with
  | nil => exact absurd rfl h
  | cons c w => exact h

theorem Items.before (h : Items setting (w ++ ']' :: u) ns u) (u' : List Char) :
    Items setting' (w ++ ']' :: u') ns u' := by
  generalize htext : w ++ ']' :: u = text at h
  induction h generalizing w with
  | nil rest =>
    obtain rfl := List.append_left_eq_self.1 htext
    exact .nil u'
  | cons hopen hitem hmore ih =>
    obtain ⟨m, rfl⟩ := hmore.suffix
    subst htext
    exact .cons (head?_bracket hopen) (hitem.before hnarrows) (ih rfl)

omit hnarrows in
theorem negation_bracket (w u : List Char) :
    negation (w ++ ']' :: u) = ((negation w).1, (negation w).2 ++ ']' :: u) := by
  cases w with
  | nil => rfl
  | cons c w =>
    by_cases hc : c = '^'
    · rw [hc]
      rfl
    · have hmark (r : List Char) : negation (c :: r) = (false, c :: r) := by
        rw [negation]
        exact fun _ heq => hc (List.cons.inj heq).1
      rw [List.cons_append, hmark, hmark, List.cons_append]

omit hnarrows in
/-- What is read up to the bracket, after the mark of a negated class, was read of the text. -/
theorem exists_of_negation {text rest : List Char} (h : ']' :: rest <:+ (negation text).2) :
    ∃ w, text = w ++ ']' :: rest := by
  obtain ⟨w, hw⟩ := h.trans (suffix_negation text)
  exact ⟨w, hw.symm⟩

/-- A class without `v` is read the same before all texts. -/
theorem listed_agrees : Agrees (listed setting) (listed setting') := by
  intro text rest n h
  obtain ⟨ns, rfl, hitems⟩ := listed_iff.1 h
  obtain ⟨w, rfl⟩ := exists_of_negation hitems.suffix
  refine ⟨w ++ [']'], by simp, fun rest' => ?_⟩
  rw [negation_bracket] at hitems ⊢
  rw [List.append_assoc, List.singleton_append, listed_iff, negation_bracket]
  exact ⟨ns, rfl, hitems.before hnarrows rest'⟩

section
variable {operand operand' : List Char → Except Fault (Node × List Char)}
  (hshort : Shortens operand)
  (hoperand : ∀ t t' : List Char, AgreesBefore (']' :: t) (']' :: t') operand operand')

omit hnarrows
include hshort hoperand

theorem Element.before {t t' : List Char}
    (h : Element operand (w ++ ']' :: t) n (r ++ ']' :: t)) :
    Element operand' (w ++ ']' :: t') n (r ++ ']' :: t') := by
  have hhead {m : List Char} :
      (m ++ ']' :: t').head? = some '-' ↔ (m ++ ']' :: t).head? = some '-' := by
    cases m <;> rfl
  generalize hrest : r ++ ']' :: t = rest at h
  cases h with
  | single h hr =>
    subst hrest
    refine .single (hoperand t t' h) fun s hs => ?_
    cases r with
    | nil => cases hs
    | cons d r =>
      obtain ⟨rfl, rfl⟩ := List.cons.inj hs
      exact hhead.2 (hr _ rfl)
  | range ha hr hb hle =>
    subst hrest
    obtain ⟨c, tail, rfl, hsuffix⟩ := hshort hb
    obtain ⟨m, rfl⟩ := exists_of_suffix hsuffix
    exact .range (hoperand t t' (r := '-' :: c :: m) ha) (mt (hhead (m := c :: m)).1 hr)
      (hoperand t t' (w := c :: m) hb) hle

omit hshort hoperand in
theorem operator?_bracket (w t t' : List Char) :
    operator? (w ++ ']' :: t) = operator? (w ++ ']' :: t') := by
  have hgo {t t' : List Char} {operator : SetOperator}
      (h : ∃ rest, w ++ ']' :: t = operator.text ++ rest) :
      ∃ rest, w ++ ']' :: t' = operator.text ++ rest := by
    obtain ⟨rest, hrest⟩ := h
    rcases w with _ | ⟨c, _ | ⟨d, w⟩⟩
    · cases operator <;> cases hrest
    · cases operator <;> cases hrest
    · refine ⟨w ++ ']' :: t', ?_⟩
      cases operator <;> cases hrest <;> rfl
  apply Option.ext
  intro operator
  rw [operator?_eq_some, operator?_eq_some]
  exact ⟨hgo, hgo⟩

theorem Elements.before (h : Elements operand (w ++ ']' :: u) ns u) (u' : List Char) :
    Elements operand' (w ++ ']' :: u') ns u' := by
  generalize htext : w ++ ']' :: u = text at h
  induction h generalizing w with
  | nil rest =>
    obtain rfl := List.append_left_eq_self.1 htext
    exact .nil u'
  | cons hopen hoperator h hmore ih =>
    obtain ⟨m, rfl⟩ := hmore.suffix hshort
    subst htext
    exact .cons (head?_bracket hopen) ((operator?_bracket _ _ _).symm.trans hoperator)
      (h.before hshort hoperand) (ih rfl)

theorem Body.before {negate : Bool} (h : Body operand negate (w ++ ']' :: u) n u)
    (u' : List Char) : Body operand' negate (w ++ ']' :: u') n u' := by
  generalize htext : w ++ ']' :: u = text at h
  cases h with
  | empty _ =>
    obtain rfl := List.append_left_eq_self.1 htext
    exact .empty u'
  | list hopen hfirst hoperator hmore =>
    obtain ⟨m, rfl⟩ := hmore.suffix hshort
    subst htext
    exact .list (head?_bracket hopen) (hfirst.before hshort hoperand)
      ((operator?_bracket _ _ _).symm.trans hoperator) (hmore.before hshort hoperand u')
  | expression hopen hfirst hrange hoperator h =>
    obtain ⟨m, rfl⟩ := h.suffix hshort
    subst htext
    exact .expression (head?_bracket hopen) (hoperand _ _ hfirst) hrange
      ((operator?_bracket _ _ _).symm.trans hoperator)
      (Operations.before (r := []) hshort (hoperand _ _) h)

end

/-- A class with `v` is read the same before all texts, also where more classes may stand in it. -/
theorem nested_agrees {depth depth' : Nat} (hdepth : depth ≤ depth') :
    Agrees (nested setting depth) (nested setting' depth') := by
  induction depth generalizing depth' with
  | zero =>
    intro text rest n h
    cases h
  | succ depth ih =>
    intro text rest n h
    obtain ⟨depth', rfl⟩ : ∃ d, depth' = d + 1 := ⟨depth' - 1, by omega⟩
    have hshort : Shortens (operand setting (nested setting depth)) := shortens_operand depth
    have hoperand (t t' : List Char) : AgreesBefore (']' :: t) (']' :: t')
        (operand setting (nested setting depth)) (operand setting' (nested setting' depth')) := by
      intro w r n h
      refine operand_iff.2 ((operand_iff.1 h).before hnarrows (.bracket t') suffix_nested ?_ ?_)
      · exact (ih (Nat.le_of_succ_le_succ hdepth)).before _ _
      · exact .inr (.inr (.bracket t))
    have hbody := nested_iff.1 h
    obtain ⟨w, rfl⟩ := exists_of_negation (hbody.suffix hshort)
    refine ⟨w ++ [']'], by simp, fun rest' => ?_⟩
    rw [negation_bracket] at hbody
    rw [List.append_assoc, List.singleton_append, nested_iff, negation_bracket]
    exact hbody.before hshort hoperand rest'

omit hnarrows

/-! ## With nothing after them -/

theorem listed_alone (h : listed setting (w ++ u) = .ok (n, r ++ u)) :
    listed setting.alone w = .ok (n, r) := by
  have hread := (listed_agrees setting.narrows_alone).before u [] h
  rwa [List.append_nil, List.append_nil] at hread

theorem nested_alone {depth depth' : Nat} (hdepth : depth ≤ depth')
    (h : nested setting depth (w ++ u) = .ok (n, r ++ u)) :
    nested setting.alone depth' w = .ok (n, r) := by
  have hread := (nested_agrees setting.narrows_alone hdepth).before u [] h
  rwa [List.append_nil, List.append_nil] at hread

end Class

end RegexAudit
