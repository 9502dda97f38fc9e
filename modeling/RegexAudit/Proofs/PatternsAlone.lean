import RegexAudit.Proofs.ClassesJoined
import RegexAudit.Proofs.Matching
import RegexAudit.Proofs.Parsed

/-!
# Parts of patterns read alone

A part of a pattern is read from its own text, whatever comes after it: groups, lookarounds,
quantifiers and alternatives, if no reference stands in them. The numbers of groups depend on what
comes before the part, so the trees are compared without them.

    term setting … s = .ok (n, s') → s without u is t →
      term setting.alone … t = .ok (n', t'), n' is n up to numbers, s' without u is t'

There is one exception: a backslash before a `c` that is no control letter is a character of its own,
and no pattern by itself.
-/

namespace RegexAudit

/-! ## Trees without numbers -/

def Frame.unnumbered : Frame → Frame
  | capture _ name => capture 0 name
  | frame => frame

namespace Node

mutual

/-- The tree without the numbers of its groups. -/
def unnumbered : Node → Node
  | choice frame alternatives => choice frame.unnumbered (unnumberedAll alternatives)
  | look direction negate alternatives => look direction negate (unnumberedAll alternatives)
  | alternative elements => alternative (unnumberedAll elements)
  | quantifier bounds greedy lexeme element => quantifier bounds greedy lexeme (unnumbered element)
  | n => n

def unnumberedAll : List Node → List Node
  | [] => []
  | n :: rest => unnumbered n :: unnumberedAll rest

end

variable [Properties]

mutual

/-- Numbers do not matter to what is matched. -/
theorem spans_unnumbered (flags : Flags) (x : Input) :
    (n : Node) → n.unnumbered.spans flags x = n.spans flags x
  | choice _ alternatives | look _ _ alternatives => by
    rw [unnumbered, spans, spans, spansAll_unnumberedAll flags x alternatives]
  | alternative elements => by
    rw [unnumbered, spans, spans, spansAll_unnumberedAll flags x elements]
  | quantifier _ _ _ element => by
    rw [unnumbered, spans, spans, spans_unnumbered flags x element]
  | edge _ | backreference _ | character _ | range .. | shorthand _ | charClass ..
  | classExpression .. | classOperation .. | strings _ | string _ => rfl

theorem spansAll_unnumberedAll (flags : Flags) (x : Input) :
    (ns : List Node) → spansAll flags x (unnumberedAll ns) = spansAll flags x ns
  | [] => rfl
  | n :: ns => by
    rw [unnumberedAll, spansAll, spansAll, spans_unnumbered flags x n,
      spansAll_unnumberedAll flags x ns]

end

end Node

namespace Pattern

open Node

variable {setting : Setting} {u : List Char} {n : Node}

/-! ## Leaves -/

theorem escaped_alone {w r : List Char} (h : escaped setting (w ++ u) = .ok (n, r ++ u))
    (hw : w ≠ []) (hreference : n.hasBackreference = false) :
    escaped setting.alone w = .ok (n, r) := by
  obtain ⟨c, w, rfl⟩ := List.exists_cons_of_ne_nil hw
  rw [List.cons_append] at h
  generalize htext : c :: (w ++ u) = text at h
  generalize hrest : r ++ u = rest at h
  refine escaped_iff.2 ?_
  cases escaped_iff.1 h with
  | shorthand hset =>
    subst htext hrest
    exact .shorthand (Lexeme.shorthand?_alone (w := c :: w) hset)
  | name _ _ | index _ _ _ _ => cases hreference
  | octal h1 h9 _ _ hlenient hoctal =>
    obtain ⟨k, after, hdecimal⟩ := Lexeme.exists_decimal? (Lexeme.isDigit_of_le h1 h9) w
    cases htext
    subst hrest
    rw [← List.cons_append, textBefore_alone]
    exact .octal h1 h9 hdecimal (Lexeme.decimal?_pos h1 h9 hdecimal) hlenient
      (Lexeme.octalOrSelf_alone hoctal)
  | character hdigit hk hset hvalue =>
    cases htext
    subst hrest
    rw [← List.cons_append] at hset hvalue ⊢
    rw [textBefore_alone]
    refine .character hdigit (fun hc => ?_) (Lexeme.shorthand?_none_alone hset)
      (Lexeme.characterEscape_alone hvalue hw)
    rw [Setting.strict_alone, (Bool.or_eq_false_iff.1 (hk hc)).1]
    rfl

theorem IsPlain.alone {c : Char} {r : List Char} (h : IsPlain setting c (r ++ u)) :
    IsPlain setting.alone c r where
  unmarked := h.unmarked
  unrepeated := Lexeme.atQuantifier_alone (w := c :: r) h.unrepeated
  bracket := h.bracket

/-- A leaf is read from its own text, if it is no reference. -/
theorem Leaf.alone {depth depth' : Nat} (hdepth : depth ≤ depth') {w r : List Char} {repeats : Bool}
    (h : Leaf setting (Class.nested setting depth) (w ++ u) n repeats (r ++ u)) (hlone : w ≠ ['\\'])
    (hreference : n.hasBackreference = false) :
    Leaf setting.alone (Class.nested setting.alone depth') w n repeats r := by
  generalize htext : w ++ u = text at h
  generalize hrest : r ++ u = rest at h
  cases h with
  | edge e =>
    subst hrest
    rw [← List.append_assoc] at htext
    rw [List.append_cancel_right htext]
    exact .edge e r
  | any =>
    subst hrest
    rw [← List.cons_append] at htext
    rw [List.append_cancel_right htext]
    exact .any r
  | charClass hclass =>
    subst hrest
    split at hclass
    · rename_i hsets
      obtain ⟨w, rfl, rfl⟩ := exists_cons_of_suffix htext (Class.suffix_nested hclass)
      refine .charClass ?_
      rw [Setting.unicodeSets_alone, if_pos hsets]
      exact Class.nested_alone hdepth hclass
    · rename_i hsets
      obtain ⟨w, rfl, rfl⟩ := exists_cons_of_suffix htext (Class.suffix_listed hclass)
      refine .charClass ?_
      rw [Setting.unicodeSets_alone, if_neg hsets]
      exact Class.listed_alone hclass
  | escape hb hB hread =>
    subst hrest
    obtain ⟨w, rfl, rfl⟩ := exists_cons_of_suffix htext (suffix_escaped hread)
    obtain ⟨c, w, rfl⟩ := List.exists_cons_of_ne_nil (show w ≠ [] from fun h => hlone (by rw [h]))
    exact .escape hb hB (escaped_alone hread (List.cons_ne_nil _ _) hreference)
  | plain hplain =>
    subst hrest
    rw [← List.cons_append] at htext
    rw [List.append_cancel_right htext]
    exact .plain hplain.alone

/-- A leaf that is a backslash alone is a character, and a `c` comes after it. -/
theorem Leaf.lone {depth : Nat} {rest : List Char} {repeats : Bool}
    (h : Leaf setting (Class.nested setting depth) ('\\' :: rest) n repeats rest) :
    n = backslash ∧ ∃ tail, rest = 'c' :: tail := by
  generalize htext : '\\' :: rest = text at h
  cases h with
  | edge e =>
    cases e with
    | word negate => cases negate <;> exact absurd (List.cons.inj htext).2.symm (List.cons_ne_self _ _)
    | lineStart | lineEnd => exact absurd (List.cons.inj htext).1 (by decide)
  | any | charClass _ => exact absurd (List.cons.inj htext).1 (by decide)
  | escape _ _ hread =>
    cases htext
    obtain ⟨c, tail, hr, hshort | ⟨rfl, hn, -⟩⟩ := escaped_tail hread
    · have hlength := hshort.length_le
      rw [hr, List.length_cons] at hlength
      exact absurd hlength (Nat.not_succ_le_self _)
    · exact ⟨hn, tail, hr⟩
  | plain hplain =>
    obtain rfl := (List.cons.inj htext).1
    exact absurd hplain.unmarked (by decide)

/-! ## Openings -/

/-- `t` is `s` without `u` at the end of its text. Names of groups may be missing too. -/
structure Progress.Cut (u : List Char) (s t : Progress) : Prop where
  rest : s.rest = t.rest ++ u
  names : t.names ⊆ s.names

namespace Progress.Cut

variable {s t : Progress}

/-- What is taken before `u` is there without `u`. -/
theorem take (h : Cut u s t) (front : List Char) {after : List Char}
    (hs : s.rest = front ++ after) (hu : u <:+ after) : ∃ w, t.rest = front ++ w ∧ after = w ++ u := by
  obtain ⟨w, rfl⟩ := exists_of_suffix (r := []) hu
  have hrest : t.rest ++ u = front ++ w ++ u := by rw [← h.rest, hs, List.append_assoc]
  exact ⟨w, List.append_cancel_right hrest, rfl⟩

theorem cons (h : Cut u s t) {c : Char} {after : List Char} (hs : s.rest = c :: after)
    (hu : u <:+ after) : ∃ w, t.rest = c :: w ∧ after = w ++ u :=
  h.take [c] hs hu

theorem next (h : Cut u s t) (w : List Char) : Cut u (s.next (w ++ u)) (t.next w) :=
  ⟨rfl, h.names⟩

theorem openGroup (h : Cut u s t) (name : Option (List Char)) (w : List Char) :
    Cut u (s.openGroup name (w ++ u)) (t.openGroup name w) :=
  ⟨rfl, List.append_subset.2
    ⟨List.subset_append_left _ _, List.Subset.trans h.names (List.subset_append_right _ _)⟩⟩

theorem enter (h : Cut u s t) (o : Opening) (w : List Char) :
    Cut u (o.enter s (w ++ u)) (o.enter t w) := by
  cases o with
  | capture name => exact h.openGroup name w
  | plain | look _ _ => exact h.next w

theorem allowed (h : Cut u s t) {o : Opening} {w : List Char} (ho : o.Allowed s (w ++ u)) :
    o.Allowed t w := by
  cases o with
  | plain | look _ _ => trivial
  | capture name =>
    cases name with
    | none => exact fun hw => ho (by rw [List.head?_append, hw]; rfl)
    | some name => exact ⟨ho.1, fun hname => ho.2 (h.names hname)⟩

end Progress.Cut

/-- The second reader takes alternatives alone as the first one does before another text. -/
def ReadsAlone (inner inner' : AlternativesReader) : Prop :=
  ∀ {u : List Char} {s s' t : Progress} {ns : List Node}, inner s = .ok (ns, s') → s.Cut u t →
    u <:+ s'.rest → anyBackreference ns = false →
    ∃ ns' t', inner' t = .ok (ns', t') ∧ unnumberedAll ns' = unnumberedAll ns ∧ s'.Cut u t'

theorem Opening.unnumbered_node (o : Opening) (groups groups' : Nat) {ns ns' : List Node}
    (h : unnumberedAll ns' = unnumberedAll ns) :
    (o.node groups' ns').unnumbered = (o.node groups ns).unnumbered := by
  cases o <;> simp only [node, unnumbered, h, Frame.unnumbered]

theorem Opening.hasBackreference_node (o : Opening) (groups : Nat) (ns : List Node) :
    (o.node groups ns).hasBackreference = anyBackreference ns := by
  cases o <;> simp only [node, hasBackreference]

/-! ## Terms -/

section
variable {depth depth' : Nat} {s s' t : Progress}

/-- A backslash that is a term by itself is a character, and a `c` comes after it. -/
theorem unquantified_lone {repeats : Bool} (h : unquantified setting (disjunction setting depth)
    (Class.nested setting depth) s = .ok ((n, repeats), s')) (hrest : s.rest = '\\' :: s'.rest) :
    n = backslash ∧ ∃ tail, s'.rest = 'c' :: tail := by
  obtain ⟨rest, hleaf, rfl⟩ | ⟨o, r, ns, s1, hencloses, -, -⟩ := unquantified_iff.1 h
  · rw [hrest] at hleaf
    exact hleaf.lone
  · obtain ⟨tail, htext⟩ := o.exists_text_cons
    rw [hencloses.opens, htext] at hrest
    exact absurd (List.cons.inj hrest).1 (by decide)

theorem term_lone (h : termAt setting depth s = .ok (n, s')) (hrest : s.rest = '\\' :: s'.rest) :
    n = backslash ∧ ∃ tail, s'.rest = 'c' :: tail := by
  obtain ⟨element, repeats, s1, rest, hread, hends, rfl⟩ := term_iff.1 h
  obtain ⟨c, rest, hrest', hsuffix⟩ := unquantified_tail suffix_disjunction hread
  obtain ⟨rfl, rfl⟩ := List.cons.inj (hrest'.symm.trans hrest)
  -- nothing is left for a quantifier
  have hsame : s1.rest = rest := hsuffix.eq_of_length_le hends.suffix.length_le
  obtain rfl : n = element := hends.eq_of_rest_eq hsame.symm
  rw [← hsame] at hrest
  obtain ⟨hn, tail, htail⟩ := unquantified_lone hread hrest
  exact ⟨hn, tail, hsame ▸ htail⟩

theorem Ends.alone {element element' : Node} {repeats : Bool} {w r : List Char}
    (h : Ends setting element repeats (w ++ u) n (r ++ u))
    (hsame : element'.unnumbered = element.unnumbered) :
    ∃ n', Ends setting.alone element' repeats w n' r ∧ n'.unnumbered = n.unnumbered := by
  generalize htext : w ++ u = text at h
  generalize hrest : r ++ u = rest at h
  cases h with
  | repeatable hread =>
    obtain rfl := List.append_cancel_right (htext.trans hrest.symm)
    subst htext
    exact ⟨element', .repeatable (Lexeme.quantifier?_alone hread), hsame⟩
  | unrepeatable hquantifier =>
    obtain rfl := List.append_cancel_right (htext.trans hrest.symm)
    subst htext
    exact ⟨element', .unrepeatable (Lexeme.atQuantifier_alone hquantifier), hsame⟩
  | repeated hread =>
    subst htext hrest
    refine ⟨_, .repeated (Lexeme.quantifier?_alone hread), ?_⟩
    rw [unnumbered, unnumbered, hsame, textBefore_alone]

theorem unquantified_alone (hdepth : depth ≤ depth')
    (hinner : ReadsAlone (disjunction setting depth) (disjunction setting.alone depth'))
    {repeats : Bool} (h : unquantified setting (disjunction setting depth)
      (Class.nested setting depth) s = .ok ((n, repeats), s'))
    (hcut : s.Cut u t) (hu : u <:+ s'.rest) (hlone : t.rest ≠ ['\\'])
    (hreference : n.hasBackreference = false) :
    ∃ n' t', unquantified setting.alone (disjunction setting.alone depth')
      (Class.nested setting.alone depth') t = .ok ((n', repeats), t') ∧
        n'.unnumbered = n.unnumbered ∧ s'.Cut u t' := by
  obtain ⟨rest, hleaf, rfl⟩ | ⟨o, r, ns, s1, hencloses, rfl, rfl⟩ := unquantified_iff.1 h
  · obtain ⟨r, rfl⟩ := exists_of_suffix (r := []) hu
    rw [hcut.rest] at hleaf
    have hleaf' := hleaf.alone hdepth hlone hreference
    exact ⟨n, t.next r, unquantified_iff.2 (.inl ⟨r, hleaf', rfl⟩), rfl, hcut.next r⟩
  · rw [o.hasBackreference_node] at hreference
    have hu1 : u <:+ s1.rest := hencloses.closes ▸ hu.trans (List.suffix_cons _ _)
    have hur : u <:+ r := by
      have hinside := suffix_disjunction hencloses.inside
      rw [o.rest_enter] at hinside
      exact hu1.trans hinside
    obtain ⟨w, hopens, rfl⟩ := hcut.take o.text hencloses.opens hur
    obtain ⟨ns', t1, hinside, hsame, hcut1⟩ := hinner hencloses.inside (hcut.enter o w) hu1
      hreference
    obtain ⟨w', hcloses, hrest⟩ := hcut1.cons hencloses.closes hu
    refine ⟨o.node t.groups ns', t1.next w', unquantified_iff.2 (.inr ⟨o, w, ns', t1,
      ⟨hopens, hcut.allowed hencloses.allowed, hinside, hcloses, rfl⟩, rfl, ?_⟩),
      o.unnumbered_node _ _ hsame, ⟨hrest, ?_⟩⟩
    · cases o <;> rfl
    · rw [hencloses.progress]
      exact hcut1.names

theorem term_alone (hdepth : depth ≤ depth')
    (hinner : ReadsAlone (disjunction setting depth) (disjunction setting.alone depth'))
    (h : termAt setting depth s = .ok (n, s')) (hcut : s.Cut u t) (hu : u <:+ s'.rest)
    (hlone : t.rest ≠ ['\\']) (hreference : n.hasBackreference = false) :
    ∃ n' t', termAt setting.alone depth' t = .ok (n', t') ∧ n'.unnumbered = n.unnumbered ∧
      s'.Cut u t' := by
  obtain ⟨element, repeats, s1, rest, hread, hends, rfl⟩ := term_iff.1 h
  rw [hends.hasBackreference] at hreference
  obtain ⟨element', t1, hread', hsame, hcut1⟩ := unquantified_alone hdepth hinner hread hcut
    (hu.trans hends.suffix) hlone hreference
  obtain ⟨r, rfl⟩ := exists_of_suffix (r := []) hu
  rw [hcut1.rest] at hends
  obtain ⟨n', hends', hn'⟩ := hends.alone hsame
  exact ⟨n', t1.next r, term_iff.2 ⟨element', repeats, t1, r, hread', hends', rfl⟩, hn',
    hcut1.next r⟩

/-! ## Alternatives -/

theorem Row.alone (hdepth : depth ≤ depth')
    (hinner : ReadsAlone (disjunction setting depth) (disjunction setting.alone depth'))
    {ns : List Node} (h : Row (termAt setting depth) s ns s') (hcut : s.Cut u t)
    (hu : u <:+ s'.rest) (hreferences : anyBackreference ns = false) :
    ∃ ns' t', Row (termAt setting.alone depth') t ns' t' ∧ unnumberedAll ns' = unnumberedAll ns ∧
      s'.Cut u t' := by
  induction h generalizing t with
  | stop hend =>
    rw [hcut.rest] at hend
    exact ⟨[], t, .stop hend.of_append, rfl, hcut⟩
  | step hend hfirst hmore ih =>
    rename_i s s1 s' n ns
    rw [anyBackreference, Bool.or_eq_false_iff] at hreferences
    obtain ⟨c, tail, hrest, hsuffix⟩ := termAt_tail hfirst
    have hu1 : u <:+ s1.rest := hu.trans (hmore.suffix termAt_tail)
    obtain ⟨w, hw, rfl⟩ := hcut.cons hrest (hu1.trans hsuffix)
    have hlone : t.rest ≠ ['\\'] := by
      -- nothing but the backslash is taken, so `u` follows it, and there is an end
      intro ht
      obtain ⟨rfl, rfl⟩ := List.cons.inj (hw.symm.trans ht)
      have hsame : s1.rest = u := hsuffix.eq_of_length_le hu1.length_le
      have hrest' : s'.rest = u :=
        ((hmore.suffix termAt_tail).trans hsuffix).eq_of_length_le hu.length_le
      obtain ⟨-, tail, htail⟩ := term_lone hfirst (by rw [hrest, hsame]; rfl)
      have hend' := hmore.atEnd
      rw [hrest', ← hsame, htail] at hend'
      rcases hend' with h | ⟨_, h | h⟩ <;> cases h
    obtain ⟨n', t1, hfirst', hsame, hcut1⟩ := term_alone hdepth hinner hfirst hcut hu1 hlone
      hreferences.1
    obtain ⟨ns', t', hmore', hsame', hcut'⟩ := ih hcut1 hu hreferences.2
    have hgo : ¬ AtEnd t.rest := by
      intro ht
      rw [hcut.rest] at hend
      exact hend (ht.append (by rw [hw]; exact List.cons_ne_nil _ _))
    refine ⟨n' :: ns', t', .step hgo hfirst' hmore', ?_, hcut'⟩
    rw [unnumberedAll, unnumberedAll, hsame, hsame']

theorem Bars.alone (hdepth : depth ≤ depth')
    (hinner : ReadsAlone (disjunction setting depth) (disjunction setting.alone depth'))
    {ns : List Node} (h : Bars (termAt setting depth) s ns s') (hcut : s.Cut u t)
    (hu : u <:+ s'.rest) (hreferences : anyBackreference ns = false) :
    ∃ ns' t', Bars (termAt setting.alone depth') t ns' t' ∧ unnumberedAll ns' = unnumberedAll ns ∧
      s'.Cut u t' := by
  induction h generalizing t with
  | last hrow hbar =>
    simp only [anyBackreference, hasBackreference, Bool.or_false] at hreferences
    obtain ⟨ns', t', hrow', hsame, hcut'⟩ := hrow.alone hdepth hinner hcut hu hreferences
    refine ⟨_, t', .last hrow' fun r hr => ?_, ?_, hcut'⟩
    · exact hbar (r ++ u) (by rw [hcut'.rest, hr, List.cons_append])
    · simp only [unnumberedAll, unnumbered, hsame]
  | more hrow hrest hmore ih =>
    rename_i s s1 s' _ _ r
    rw [anyBackreference, hasBackreference, Bool.or_eq_false_iff] at hreferences
    have hr : u <:+ r := hu.trans (hmore.suffix termAt_tail)
    have hu1 : u <:+ s1.rest := hrest ▸ hr.trans (List.suffix_cons _ _)
    obtain ⟨ns', t1, hrow', hsame, hcut1⟩ := hrow.alone hdepth hinner hcut hu1 hreferences.1
    obtain ⟨w, hw, rfl⟩ := hcut1.cons hrest hr
    obtain ⟨ms', t', hmore', hsame', hcut'⟩ := ih (hcut1.next w) hu hreferences.2
    refine ⟨_, t', .more hrow' hw hmore', ?_, hcut'⟩
    simp only [unnumberedAll, unnumbered, hsame, hsame']

end

theorem reads_alone (setting : Setting) {depth depth' : Nat} (hdepth : depth ≤ depth') :
    ReadsAlone (disjunction setting depth) (disjunction setting.alone depth') := by
  induction depth generalizing depth' with
  | zero =>
    intro u s s' t ns h
    cases h
  | succ depth ih =>
    obtain ⟨depth', rfl⟩ : ∃ d, depth' = d + 1 := ⟨depth' - 1, by omega⟩
    have hdepth' : depth ≤ depth' := by omega
    intro u s s' t ns h hcut hu hreferences
    obtain ⟨ns', t', hbars, hrest⟩ :=
      (disjunction_iff.1 h).alone hdepth' (ih hdepth') hcut hu hreferences
    exact ⟨ns', t', disjunction_iff.2 hbars, hrest⟩

end Pattern

end RegexAudit
