import RegexAudit.Proofs.Readings
import RegexAudit.Proofs.Reread

/-!
# Spelling

What stands in classes, and characters outside of them, are told by their texts: there is a reader
that takes the text of such a node, by its kind and with no text after it, and gives the node back
(`Node.Spelled`). So two of them with one kind and one text are equal, wherever they were read:

    Spelled setting limit n → Spelled setting limit m →
      n.kind = m.kind → n.text = m.text → n = m                              (eq_of_spelled)

All parts that the readers of classes take are of that form (`allSpelled_listed`,
`allSpelled_nested`), and so are those that stand in a pattern (`allSpelled_disjunction`).
-/

namespace RegexAudit

open Node

namespace Class

variable {setting : Setting}

/-! ## Readers of parts -/

/-- The letters of a string in a class, up to the end of the text. -/
def spell? (setting : Setting) : Nat → List Char → Option (List Letter)
  | _, [] => some []
  | 0, _ => none
  | k + 1, '\\' :: r =>
    match Lexeme.characterEscape setting true r with
    | .ok (value, after) => (spell? setting k after).map (⟨value, '\\' :: textBefore r after⟩ :: ·)
    | .error _ => none
  | k + 1, c :: r => (spell? setting k r).map (⟨c.toNat, [c]⟩ :: ·)

/-- What stands in a class; ranges and operators are made of such members. -/
def member (setting : Setting) (limit : Nat) : List Char → Except Fault (Node × List Char) :=
  if setting.flags.unicodeSets then operand setting (nested setting limit) else atom setting

/-- A class after its opening bracket. -/
def afterBracket (setting : Setting) (limit : Nat) : List Char → Except Fault (Node × List Char) :=
  if setting.flags.unicodeSets then nested setting limit else listed setting

end Class

/-- A letter is a backslash alone, a character that stands for itself, or an escape. -/
def Letter.Spelled (setting : Setting) (letter : Letter) : Prop :=
  letter = ⟨'\\'.toNat, ['\\']⟩ ∨ (∃ c, c ≠ '\\' ∧ letter = ⟨c.toNat, [c]⟩) ∨
    ∃ w, w ≠ [] ∧ letter.lexeme = '\\' :: w ∧
      Lexeme.characterEscape setting true w = .ok (letter.value, [])

/-- The node is what its text is read as, for nodes that stand in classes. -/
def Node.Spelled (setting : Setting) (limit : Nat) : Node → Prop
  | character letter => letter.Spelled setting
  | shorthand set => set = .any ∨ ∃ w, set.text = '\\' :: w ∧
    Lexeme.shorthand? setting w = .ok (some set, [])
  | range a b => a.Spelled setting ∧ b.Spelled setting ∧
    Class.member setting limit (a.lexeme ++ '-' :: b.lexeme) = .ok (character a, '-' :: b.lexeme)
  | charClass negate unicodeSets elements => ∃ w,
    (charClass negate unicodeSets elements).text = '[' :: w ∧
      Class.afterBracket setting limit w = .ok (charClass negate unicodeSets elements, [])
  | classExpression negate expression => ∃ w, (classExpression negate expression).text = '[' :: w ∧
    Class.afterBracket setting limit w = .ok (classExpression negate expression, [])
  | classOperation operator left right => ∃ k first r,
    Class.member setting limit (classOperation operator left right).text = .ok (first, r) ∧
      Class.operations (Class.member setting limit) operator k first r =
        .ok (classOperation operator left right, [])
  | strings alternatives =>
    Class.member setting limit (strings alternatives).text = .ok (strings alternatives, [])
  | string letters =>
    Class.spell? setting (lettersText letters).length (lettersText letters) = some letters
  | _ => True

/-! ## Equal texts -/

theorem Letter.eq_of_spelled {setting : Setting} {a b : Letter} (ha : a.Spelled setting)
    (hb : b.Spelled setting) (h : a.lexeme = b.lexeme) : a = b := by
  obtain ⟨value, lexeme⟩ := a
  obtain ⟨value', lexeme'⟩ := b
  obtain rfl : lexeme = lexeme' := h
  rcases ha with ha | ⟨c, hc, ha⟩ | ⟨w, hw, hlexeme, hvalue⟩
  · rcases hb with hb | ⟨d, hd, hb⟩ | ⟨w', hw', hlexeme', -⟩
    · rw [ha, hb]
    · cases ha
      cases hb
      exact absurd rfl hd
    · cases ha
      cases hlexeme'
      exact absurd rfl hw'
  · rcases hb with hb | ⟨d, hd, hb⟩ | ⟨w', hw', hlexeme', -⟩
    · cases hb
      cases ha
      exact absurd rfl hc
    · cases ha
      cases hb
      rfl
    · cases ha
      cases hlexeme'
      exact absurd rfl hc
  · rcases hb with hb | ⟨d, hd, hb⟩ | ⟨w', hw', hlexeme', hvalue'⟩
    · cases hb
      cases hlexeme
      exact absurd rfl hw
    · cases hb
      cases hlexeme
      exact absurd rfl hd
    · obtain rfl : w = w' := by
        have := hlexeme.symm.trans hlexeme'
        exact (List.cons.inj this).2
      rw [hvalue] at hvalue'
      obtain rfl : value = value' := (Prod.mk.inj (Except.ok.inj hvalue')).1
      rfl

namespace Class

variable {operand : List Char → Except Fault (Node × List Char)} {operator : SetOperator}

theorem strip?_operator_nil (operator : SetOperator) : Text.strip? operator.text [] = none := by
  cases operator <;> rfl

/-- At the end of the text, a larger bound changes nothing. -/
theorem operations_of_le {i j : Nat} {left n : Node} {text : List Char}
    (h : operations operand operator i left text = .ok (n, [])) (hij : i ≤ j) :
    operations operand operator j left text = .ok (n, []) := by
  induction i generalizing j left text with
  | zero =>
    cases h
    cases j with
    | zero => rfl
    | succ j => rw [operations, strip?_operator_nil]
  | succ i ih =>
    obtain ⟨j, rfl⟩ : ∃ k, j = k + 1 := ⟨j - 1, by omega⟩
    rw [operations] at h ⊢
    split at h
    · exact h
    · obtain ⟨⟨right, r⟩, hright, h⟩ := bind_eq_ok.1 h
      exact bind_eq_ok.2 ⟨_, hright, ih h (by omega)⟩

theorem eq_of_operations {i j : Nat} {left n m : Node} {text : List Char}
    (hn : operations operand operator i left text = .ok (n, []))
    (hm : operations operand operator j left text = .ok (m, [])) : n = m := by
  have hn := operations_of_le hn (Nat.le_max_left i j)
  have hm := operations_of_le hm (Nat.le_max_right i j)
  rw [hn] at hm
  exact (Prod.mk.inj (Except.ok.inj hm)).1

end Class

/-- The kinds of nodes that stand in classes. -/
def Kind.isClassLevel : Kind → Bool
  | character | range | shorthand | charClass | classExpression | intersection | subtraction
  | strings | string => true
  | pattern | group | capturingGroup | assertion | alternative | quantifier | backreference => false

theorem Node.isClassLevel_eq_kind (n : Node) : n.isClassLevel = n.kind.isClassLevel := by
  cases n with
  | choice frame _ => cases frame <;> rfl
  | classOperation operator _ _ => cases operator <;> rfl
  | _ => rfl

/-- A reader gives one node only. -/
theorem eq_of_ok {ε α β : Type} {x : Except ε (α × β)} {a a' : α} {b b' : β}
    (h : x = .ok (a, b)) (h' : x = .ok (a', b')) : a = a' ∧ b = b' := by
  rw [h] at h'
  exact Prod.mk.inj (Except.ok.inj h')

/-- Equal texts of one kind in classes are of equal nodes. -/
theorem Node.eq_of_spelled {setting : Setting} {limit : Nat} {n m : Node}
    (hclass : n.isClassLevel = true) (hn : n.Spelled setting limit) (hm : m.Spelled setting limit)
    (hkind : n.kind = m.kind) (htext : n.text = m.text) : n = m := by
  have hclass' : m.isClassLevel = true := by
    rw [isClassLevel_eq_kind, ← hkind, ← isClassLevel_eq_kind]
    exact hclass
  have hbracket {w w' : List Char} (hw : n.text = '[' :: w) (hw' : m.text = '[' :: w')
      (hn : Class.afterBracket setting limit w = .ok (n, []))
      (hm : Class.afterBracket setting limit w' = .ok (m, [])) : n = m := by
    obtain rfl : w = w' := (List.cons.inj (hw.symm.trans (htext.trans hw'))).2
    exact (eq_of_ok hn hm).1
  cases n with
  | character a =>
    cases m with
    | character b => rw [Letter.eq_of_spelled hn hm htext]
    | classOperation operator _ _ => cases operator <;> cases hkind
    | _ => first | cases hkind | cases hclass'
  | shorthand set =>
    cases m with
    | shorthand set' =>
      rcases hn with rfl | ⟨w, hw, hread⟩
      · rcases hm with rfl | ⟨w', hw', -⟩
        · rfl
        · cases (show ['.'] = set'.text from htext).trans hw'
      · rcases hm with rfl | ⟨w', hw', hread'⟩
        · cases (show set.text = ['.'] from htext).symm.trans hw
        · obtain rfl : w = w' := (List.cons.inj (hw.symm.trans (htext.trans hw'))).2
          cases (eq_of_ok hread hread').1
          rfl
    | classOperation operator _ _ => cases operator <;> cases hkind
    | _ => first | cases hkind | cases hclass'
  | range a b =>
    cases m with
    | range a' b' =>
      obtain ⟨-, hb, hread⟩ := hn
      obtain ⟨-, hb', hread'⟩ := hm
      rw [show a.lexeme ++ '-' :: b.lexeme = a'.lexeme ++ '-' :: b'.lexeme from htext] at hread
      obtain ⟨hsame, hrest⟩ := eq_of_ok hread hread'
      cases hsame
      rw [Letter.eq_of_spelled hb hb' (List.cons.inj hrest).2]
    | classOperation operator _ _ => cases operator <;> cases hkind
    | _ => first | cases hkind | cases hclass'
  | charClass _ _ _ =>
    cases m with
    | charClass _ _ _ =>
      obtain ⟨w, hw, hread⟩ := hn
      obtain ⟨w', hw', hread'⟩ := hm
      exact hbracket hw hw' hread hread'
    | classOperation operator _ _ => cases operator <;> cases hkind
    | _ => first | cases hkind | cases hclass'
  | classExpression _ _ =>
    cases m with
    | classExpression _ _ =>
      obtain ⟨w, hw, hread⟩ := hn
      obtain ⟨w', hw', hread'⟩ := hm
      exact hbracket hw hw' hread hread'
    | classOperation operator _ _ => cases operator <;> cases hkind
    | _ => first | cases hkind | cases hclass'
  | classOperation operator left right =>
    cases m with
    | classOperation operator' left' right' =>
      obtain rfl : operator = operator' := by
        cases operator <;> cases operator' <;> first | rfl | cases hkind
      obtain ⟨i, first, r, hfirst, hread⟩ := hn
      obtain ⟨j, first', r', hfirst', hread'⟩ := hm
      rw [htext] at hfirst
      obtain ⟨rfl, rfl⟩ := eq_of_ok hfirst hfirst'
      exact Class.eq_of_operations hread hread'
    | choice _ _ | look _ _ _ | alternative _ | quantifier _ _ _ _ | edge _ | backreference _ =>
      cases hclass'
    | _ => cases operator <;> cases hkind
  | strings alternatives =>
    cases m with
    | strings alternatives' =>
      have hread : Class.member setting limit (strings alternatives).text = _ := hn
      rw [htext] at hread
      exact (eq_of_ok hread hm).1
    | classOperation operator _ _ => cases operator <;> cases hkind
    | _ => first | cases hkind | cases hclass'
  | string letters =>
    cases m with
    | string letters' =>
      have hread : Class.spell? setting _ (lettersText letters) = some letters := hn
      rw [show lettersText letters = lettersText letters' from htext] at hread
      rw [Option.some.inj (hread.symm.trans hm)]
    | classOperation operator _ _ => cases operator <;> cases hkind
    | _ => first | cases hkind | cases hclass'
  | _ => cases hclass

/-! ## Letters -/

namespace Lexeme

variable {setting : Setting} {r rest : List Char} {n : Nat}

/-- Escapes mean the same in a class, but for `b`. -/
theorem characterEscape_inClass {w : List Char} (hb : w.head? ≠ some 'b')
    (h : characterEscape setting false w = .ok (n, [])) :
    characterEscape setting true w = .ok (n, []) := by
  refine characterEscape_iff.2 ?_
  cases characterEscape_iff.1 h with
  | control hm => exact .control hm
  | letter hletter =>
    refine .letter ?_
    simp only [isControlLetter, Bool.false_and, Bool.or_false] at hletter
    rw [isControlLetter, hletter, Bool.true_or]
  | hex hhex => exact .hex hhex
  | plainHex hlenient hhex => exact .plainHex hlenient hhex
  | unicode hcode => exact .unicode hcode
  | zero hdigit => exact .zero hdigit
  | octal hlenient hdigit hzero hoctal => exact .octal hlenient hdigit hzero hoctal
  | backspace hclass => cases hclass
  | self hc =>
    refine .self ⟨hc.meaningless, hc.noDigit, fun _ => by simpa using hb, fun hstrict => ?_,
      hc.unnamed⟩
    have hallowed := hc.allowed hstrict
    simp only [mayEscape, Bool.false_and, Bool.and_false, Bool.or_false] at hallowed
    rw [mayEscape, hallowed, Bool.true_or, Bool.true_or]

end Lexeme

namespace Letter

variable {setting : Setting} {r rest : List Char} {n : Nat}

theorem spelled_self {c : Char} (hc : c ≠ '\\') : Spelled setting ⟨c.toNat, [c]⟩ :=
  .inr (.inl ⟨c, hc, rfl⟩)

theorem spelled_escape {inClass : Bool} (hb : inClass = false → r.head? ≠ some 'b')
    (h : Lexeme.characterEscape setting inClass r = .ok (n, rest)) :
    Spelled setting.alone ⟨n, '\\' :: textBefore r rest⟩ := by
  have hsuffix := Lexeme.suffix_characterEscape h
  obtain ⟨w, rfl⟩ := hsuffix
  rw [show textBefore (w ++ rest) rest = w from by simp [textBefore]]
  by_cases hw : w = []
  · -- a backslash alone before a `c`
    subst hw
    obtain ⟨c, tail, heq, hrest | ⟨-, hn, -⟩⟩ := Lexeme.characterEscape_tail h
    · have hlength := hrest.length_le
      rw [List.nil_append] at heq
      rw [heq, List.length_cons] at hlength
      omega
    · rw [hn]
      exact .inl rfl
  · refine .inr (.inr ⟨w, hw, rfl, ?_⟩)
    have halone := Lexeme.characterEscape_alone (r := []) h hw
    cases inClass with
    | true => exact halone
    | false =>
      refine Lexeme.characterEscape_inClass ?_ halone
      obtain ⟨c, w, rfl⟩ := List.exists_cons_of_ne_nil hw
      exact hb rfl

theorem spelled_octal {c : Char} (h1 : '1' ≤ c) (h9 : c ≤ '9') (hstrict : setting.strict = false)
    (h : Lexeme.octalOrSelf (c :: r) = (n, rest)) :
    Spelled setting.alone ⟨n, '\\' :: textBefore (c :: r) rest⟩ := by
  have hsuffix := Lexeme.suffix_octalOrSelf c r
  rw [h] at hsuffix
  obtain ⟨w, rfl⟩ := hsuffix
  have hbefore : textBefore (c :: (w ++ rest)) rest = c :: w := by
    simp [textBefore, Nat.succ_sub]
  rw [hbefore]
  refine .inr (.inr ⟨c :: w, List.cons_ne_nil _ _, rfl, ?_⟩)
  have hoctal : Lexeme.octalOrSelf (c :: w) = (n, []) :=
    Lexeme.octalOrSelf_alone (u := rest) (r := []) h
  refine Lexeme.characterEscape_iff.2 (.octal hstrict (Lexeme.isDigit_of_le h1 h9) ?_ hoctal)
  rintro rfl
  exact absurd h1 (by decide)

end Letter

/-! ## Parts of classes -/

theorem Shorthand.text_ne_nil (set : Shorthand) : set.text ≠ [] := by
  cases set <;> simp [text]

/-- All parts that stand in classes, and all characters, are spelled as their texts say. -/
def Node.AllSpelled (setting : Setting) (limit : Nat) : Node → Prop := Throughout fun m =>
  m.isClassLevel = true → m.Spelled setting.alone limit

namespace Node

variable {setting : Setting} {limit : Nat}

theorem allSpelled_leaf {n : Node} (h : n.Spelled setting.alone limit) (hn : n.children = []) :
    n.AllSpelled setting limit :=
  throughout_iff.2 ⟨fun _ => h, by simp [hn]⟩

theorem allSpelled_character {letter : Letter} (h : letter.Spelled setting.alone) :
    (character letter).AllSpelled setting limit := allSpelled_leaf h rfl

theorem AllSpelled.letter {letter : Letter} (h : (character letter).AllSpelled setting limit) :
    letter.Spelled setting.alone := h _ .self rfl

theorem allSpelled_shorthand {r rest : List Char} {set : Shorthand}
    (h : Lexeme.shorthand? setting r = .ok (some set, rest)) :
    (shorthand set).AllSpelled setting limit := by
  refine allSpelled_leaf (.inr ?_) rfl
  have hsource := Lexeme.shorthand?_source h
  cases htext : set.text with
  | nil => exact absurd htext set.text_ne_nil
  | cons c w =>
    rw [htext] at hsource
    obtain ⟨rfl, rfl⟩ := List.cons.inj hsource
    exact ⟨w, rfl, Lexeme.shorthand?_alone h⟩

end Node

namespace Class

variable {setting : Setting} {depth limit : Nat} {text rest r : List Char} {n : Node}
  {ns : List Node}

/-- What stands in a class at some depth. -/
theorem member_alone (hdepth : depth ≤ limit) {w u : List Char}
    (hend : Lexeme.Delimited setting r u) (h : member setting depth (w ++ u) = .ok (n, r ++ u)) :
    member setting.alone limit w = .ok (n, r) := by
  have hnarrows := setting.narrows_alone
  unfold member at h ⊢
  rw [Setting.unicodeSets_alone]
  split at h
  · rename_i hsets
    have hinner := (nested_agrees hnarrows hdepth).before u []
    have hread := (operand_iff.1 h).before hnarrows .nil suffix_nested hinner hend
    rw [if_pos hsets, operand_iff]
    simpa using hread
  · rename_i hsets
    have hread := (atom_iff.1 h).before hnarrows .nil hend
    rw [if_neg hsets, atom_iff]
    simpa using hread

theorem Escape.allSpelled (h : Escape setting r n rest) : n.AllSpelled setting limit := by
  cases h with
  | shorthand h => exact allSpelled_shorthand h
  | character _ h =>
    exact allSpelled_character (Letter.spelled_escape (fun hclass => absurd hclass (by decide)) h)

/-- A range whose ends were read one after the other. -/
theorem allSpelled_range (hdepth : depth ≤ limit) {a b : Letter}
    (hmin : member setting depth text = .ok (character a, '-' :: r))
    (htext : text = a.lexeme ++ '-' :: r) (hr : r = b.lexeme ++ rest)
    (ha : (character a).AllSpelled setting limit) (hb : (character b).AllSpelled setting limit) :
    (range a b).AllSpelled setting limit := by
  refine throughout_iff.2 ⟨fun _ => ⟨ha.letter, hb.letter, ?_⟩, ?_⟩
  · subst hr
    subst htext
    refine member_alone (u := rest) hdepth (.inr (.inl (List.cons_ne_nil _ _))) ?_
    simpa using hmin
  · simp only [children, List.mem_cons, List.not_mem_nil, or_false, forall_eq_or_imp, forall_eq]
    exact ⟨ha, hb⟩

/-! ### Without `v` -/

theorem Atom.allSpelled (h : Atom setting text n rest) : n.AllSpelled setting limit := by
  cases h with
  | escape h => exact h.allSpelled
  | self hc _ => exact allSpelled_character (Letter.spelled_self hc)

theorem Item.allSpelled (hsets : setting.flags.unicodeSets = false)
    (h : Item setting text ns rest) : ∀ n ∈ ns, n.AllSpelled setting limit := by
  cases h with
  | single ha _ => exact List.forall_mem_singleton.2 ha.allSpelled
  | range ha _ hb _ =>
    have hmember := atom_iff.2 ha
    rw [← show member setting 0 = atom setting from if_neg (by simp [hsets])] at hmember
    exact List.forall_mem_singleton.2 (allSpelled_range (Nat.zero_le limit) hmember ha.source.source
      hb.source.source ha.allSpelled hb.allSpelled)
  | apart _ ha _ hb _ =>
    have hhyphen : (character ⟨'-'.toNat, ['-']⟩).AllSpelled setting limit :=
      allSpelled_character (Letter.spelled_self (by decide))
    simpa using ⟨ha.allSpelled, hhyphen, hb.allSpelled⟩

theorem Items.allSpelled (hsets : setting.flags.unicodeSets = false)
    (h : Items setting text ns rest) : ∀ n ∈ ns, n.AllSpelled setting limit := by
  induction h with
  | nil => exact List.forall_mem_nil _
  | cons _ hitem _ ih => exact List.forall_mem_append.2 ⟨hitem.allSpelled hsets, ih⟩

/-- A class is what is read from its text, also where more classes may stand in it. -/
theorem afterBracket_alone (hdepth : depth ≤ limit)
    (h : afterBracket setting depth text = .ok (n, rest)) (hsource : '[' :: text = n.text ++ rest)
    (hn : n.text ≠ []) :
    ∃ w, n.text = '[' :: w ∧ afterBracket setting.alone limit w = .ok (n, []) := by
  obtain ⟨c, w, htext⟩ := List.exists_cons_of_ne_nil hn
  rw [htext] at hsource
  obtain ⟨rfl, rfl⟩ := List.cons.inj hsource
  refine ⟨w, htext, ?_⟩
  unfold afterBracket at h ⊢
  rw [Setting.unicodeSets_alone]
  split at h
  · rename_i hsets
    rw [if_pos hsets]
    exact nested_alone hdepth h
  · rename_i hsets
    rw [if_neg hsets]
    exact listed_alone h

theorem classOpening_ne_nil (negate : Bool) : classOpening negate ≠ [] := by
  cases negate <;> exact List.cons_ne_nil _ _

theorem allSpelled_listed (hsets : setting.flags.unicodeSets = false)
    (h : listed setting text = .ok (n, rest)) : n.AllSpelled setting limit := by
  have hsource := (listed_source h).source
  have hbracket : afterBracket setting 0 text = .ok (n, rest) := by
    rw [afterBracket, if_neg (by simp [hsets])]
    exact h
  obtain ⟨ns, rfl, hitems⟩ := listed_iff.1 h
  refine throughout_iff.2 ⟨fun _ => ?_, hitems.allSpelled hsets⟩
  exact afterBracket_alone (Nat.zero_le limit) hbracket hsource
    (by simp [Node.text])

/-! ### With `v` -/

theorem strict_of_unicodeSets (h : setting.flags.unicodeSets = true) : setting.strict = true := by
  simp [Setting.strict, Flags.unicodeMode, h]

theorem Letters.spelled {found : List Letter} (h : Letters setting text found rest) :
    ∀ letter ∈ found, letter.Spelled setting.alone := by
  induction h with
  | bar | brace => exact List.forall_mem_nil _
  | escape hvalue _ ih =>
    refine List.forall_mem_cons.2 ⟨Letter.spelled_escape (fun hclass => ?_) hvalue, ih⟩
    cases hclass
  | self hc _ ih =>
    refine List.forall_mem_cons.2 ⟨Letter.spelled_self fun hslash => hc ?_, ih⟩
    simp [hslash]

/-- The letters of a string are read from its text alone. -/
theorem Letters.spell? {k : Nat} {w u : List Char} {found : List Letter}
    (hstrict : setting.strict = true) (h : Letters setting (w ++ u) found u) (hk : w.length ≤ k) :
    Class.spell? setting.alone k w = some found := by
  generalize htext : w ++ u = text at h
  induction h generalizing w k with
  | bar r | brace r =>
    obtain rfl := List.append_left_eq_self.1 htext
    rw [Class.spell?]
  | escape hvalue hmore ih =>
    obtain ⟨m, rfl⟩ := hmore.stop.1
    have hread := Lexeme.suffix_characterEscape hvalue
    obtain ⟨w, rfl, rfl⟩ := exists_cons_of_suffix htext hread
    have hlt := Lexeme.characterEscape_lt hstrict hvalue
    simp only [List.length_append, List.length_cons] at hlt hk
    obtain ⟨k, rfl⟩ : ∃ j, k = j + 1 := ⟨k - 1, by omega⟩
    have hw : w ≠ [] := List.ne_nil_of_length_pos (by omega)
    rw [Class.spell?, Lexeme.characterEscape_alone hvalue hw]
    have hm : m.length ≤ k := by omega
    simp only [ih hm rfl, Option.map_some, textBefore_alone]
  | self hc hmore ih =>
    obtain ⟨w, rfl, rfl⟩ := exists_cons_of_suffix (r := []) htext hmore.stop.1
    rw [List.length_cons] at hk
    obtain ⟨k, rfl⟩ : ∃ j, k = j + 1 := ⟨k - 1, by omega⟩
    rw [Class.spell?, ih (by omega) rfl]
    · rfl
    · exact fun hslash => hc (by simp [hslash])

theorem Letters.allSpelled (hstrict : setting.strict = true) {found : List Letter}
    (h : Letters setting text found rest) : (string found).AllSpelled setting limit := by
  have hletters := h.spelled
  refine throughout_iff.2 ⟨fun _ => ?_, ?_⟩
  · rw [h.source] at h
    exact h.spell? hstrict (Nat.le_refl _)
  · intro c hc
    obtain ⟨letter, hletter, rfl⟩ := List.mem_map.1 hc
    exact allSpelled_character (hletters letter hletter)

theorem Strings.allSpelled (hstrict : setting.strict = true) {found : List (List Letter)}
    (h : Strings setting text found rest) :
    ∀ letters ∈ found, (string letters).AllSpelled setting limit := by
  induction h with
  | last h => exact List.forall_mem_singleton.2 (h.allSpelled hstrict)
  | cons h _ ih => exact List.forall_mem_cons.2 ⟨h.allSpelled hstrict, ih⟩

section
variable (hsets : setting.flags.unicodeSets = true) (hdepth : depth ≤ limit)

include hsets

theorem member_eq_operand : member setting depth = operand setting (nested setting depth) :=
  if_pos hsets

theorem shortens_member : Shortens (member setting depth) := by
  rw [member_eq_operand hsets]
  exact shortens_operand depth

theorem member_source (h : member setting depth text = .ok (n, rest)) :
    ReadFrom ClassPart text rest n := by
  rw [member_eq_operand hsets, operand_iff] at h
  exact h.source (nested_source depth)

omit hsets in
/-- One operator more at the end. -/
theorem Operations.snoc {operand : List Char → Except Fault (Node × List Char)}
    {operator : SetOperator} {left right : Node} (h : Operations operand operator left text n r)
    {r' : List Char} (hr : r = operator.text ++ r') (hright : operand r' = .ok (right, rest)) :
    Operations operand operator left text (.classOperation operator n right) rest := by
  induction h with
  | nil =>
    rw [hr]
    exact .cons hright (.nil _ _)
  | cons hfirst _ ih => exact .cons hfirst (ih hr)

include hdepth

/-- With `v` no backslash stands alone, so a member is told by its text also where it ends it. -/
theorem member_before (u : List Char) :
    AgreesBefore u [] (member setting depth) (member setting.alone limit) := by
  intro w r n h
  simpa using member_alone hdepth (.inl (strict_of_unicodeSets hsets)) h

/-- Operators, cut off from what comes after them. -/
theorem operations_cut {operator : SetOperator} {left : Node} {w u : List Char}
    (h : Operations (member setting depth) operator left (w ++ u) n u) :
    operations (member setting.alone limit) operator w.length left w = .ok (n, []) := by
  have hread : Operations (member setting.alone limit) operator left (w ++ []) n [] :=
    Operations.before (r := []) (shortens_member hsets) (member_before hsets hdepth u) h
  rw [List.append_nil] at hread
  have hshort : Shortens (member setting.alone limit) := shortens_member hsets
  exact hread.ok hshort (strip?_operator_nil operator) (Nat.le_refl _)

/-- An operator with what stands on both sides of it is told by its text. -/
theorem Operations.allSpelled {operator : SetOperator} {first left : Node} {r0 : List Char}
    (hread : ∀ {text rest n}, member setting depth text = .ok (n, rest) →
      n.AllSpelled setting limit)
    (hfirst : member setting depth text = .ok (first, r0))
    (hbefore : Operations (member setting depth) operator first r0 left r)
    (hleft : left.AllSpelled setting limit)
    (h : Operations (member setting depth) operator left r n rest) :
    n.AllSpelled setting limit := by
  induction h with
  | nil => exact hleft
  | cons hright _ ih =>
    have hnext := hbefore.snoc rfl hright
    have hsource := (hnext.source (member_source hsets) (member_source hsets hfirst)).source
    obtain ⟨front, rfl⟩ := hnext.suffix (shortens_member hsets)
    refine ih hnext (throughout_iff.2 ⟨fun _ => ⟨front.length, first, front, ?_, ?_⟩, ?_⟩)
    · rw [hsource] at hfirst
      exact member_alone hdepth (.inl (strict_of_unicodeSets hsets)) hfirst
    · exact operations_cut hsets hdepth hnext
    · simp only [children, List.mem_cons, List.not_mem_nil, or_false, forall_eq_or_imp, forall_eq]
      exact ⟨hleft, hread hright⟩

theorem allSpelled_member
    (hnested : ∀ {text rest n}, nested setting depth text = .ok (n, rest) →
      n.AllSpelled setting limit)
    (h : member setting depth text = .ok (n, rest)) : n.AllSpelled setting limit := by
  have hsource := (member_source hsets h).source
  have hstrict := strict_of_unicodeSets hsets
  have hmember := h
  rw [member_eq_operand hsets, operand_iff] at h
  cases h with
  | nested h => exact hnested h
  | strings h =>
    refine throughout_iff.2 ⟨fun _ => ?_, fun c hc => ?_⟩
    · rw [hsource] at hmember
      exact member_alone (r := []) hdepth (.inl hstrict) hmember
    · obtain ⟨letters, hletters, rfl⟩ := List.mem_map.1 hc
      exact h.allSpelled hstrict letters hletters
  | escape _ h => exact h.allSpelled
  | self hc _ _ => exact allSpelled_character (Letter.spelled_self hc.2)

variable (hread : ∀ {text rest n}, member setting depth text = .ok (n, rest) →
  n.AllSpelled setting limit)

include hread

theorem Element.allSpelled (h : Element (member setting depth) text n rest) :
    n.AllSpelled setting limit := by
  cases h with
  | single h _ => exact hread h
  | range ha _ hb _ =>
    exact allSpelled_range hdepth ha (member_source hsets ha).source (member_source hsets hb).source
      (hread ha) (hread hb)

theorem Elements.allSpelled (h : Elements (member setting depth) text ns rest) :
    ∀ n ∈ ns, n.AllSpelled setting limit := by
  induction h with
  | nil => exact List.forall_mem_nil _
  | cons _ _ h _ ih => exact List.forall_mem_cons.2 ⟨h.allSpelled hsets hdepth hread, ih⟩

theorem Body.allSpelled_children {negate : Bool}
    (h : Body (member setting depth) negate text n rest) :
    ∀ c ∈ n.children, c.AllSpelled setting limit := by
  cases h with
  | empty => exact List.forall_mem_nil _
  | list _ hfirst _ hmore =>
    exact List.forall_mem_cons.2
      ⟨hfirst.allSpelled hsets hdepth hread, hmore.allSpelled hsets hdepth hread⟩
  | expression _ hfirst _ _ h =>
    exact List.forall_mem_singleton.2
      (Operations.allSpelled hsets hdepth hread hfirst (.nil _ _) (hread hfirst) h)

end

theorem allSpelled_nested (hsets : setting.flags.unicodeSets = true) (hdepth : depth ≤ limit)
    (h : nested setting depth text = .ok (n, rest)) : n.AllSpelled setting limit := by
  induction depth generalizing text rest n with
  | zero => cases h
  | succ depth ih =>
    have hdepth' : depth ≤ limit := by omega
    have hbracket : afterBracket setting (depth + 1) text = .ok (n, rest) := by
      rw [afterBracket, if_pos hsets]
      exact h
    have hsource := (nested_source _ h).source
    have hbody := nested_iff.1 h
    rw [← member_eq_operand hsets] at hbody
    have hchildren := hbody.allSpelled_children hsets hdepth' fun hread =>
      allSpelled_member hsets hdepth' (ih hdepth') hread
    refine throughout_iff.2 ⟨fun _ => ?_, hchildren⟩
    have hspelled := afterBracket_alone hdepth hbracket hsource
    generalize (negation text).2 = inside at hbody
    cases hbody <;> exact hspelled (by simp [Node.text, classOpening_ne_nil])

end Class

end RegexAudit
