import RegexAudit.Proofs.Escapes

/-!
# Classes, rule by rule

What the readers of character classes can do, said once and in both directions, as for escapes. Each
reader has a relation whose rules are the ways to read a text:

    item setting text = .ok (ns, rest)            ↔  Item setting text ns rest
    rangeOrOperand operand text = .ok (n, rest)   ↔  Element operand text n rest
    body operand text = .ok (n, rest)             ↔  Body operand text n rest

A loop that comes to an end has followed the rules, whatever its bound; and where the bound is not
less than the length of the text, the loop takes what the rules allow. For this every rule takes a
character at least.
-/

namespace RegexAudit

open Node

namespace Class

variable {setting : Setting} {text rest r : List Char} {n : Node} {ns : List Node}

/-! ## Characters and shorthands -/

/-- What can follow a backslash in a class. -/
inductive Escape (setting : Setting) : List Char → Node → List Char → Prop
  | shorthand {r rest : List Char} {set : Shorthand}
      (h : Lexeme.shorthand? setting r = .ok (some set, rest)) :
      Escape setting r (.shorthand set) rest
  | character {r rest : List Char} {value : Nat}
      (hset : Lexeme.shorthand? setting r = .ok (none, r))
      (h : Lexeme.characterEscape setting true r = .ok (value, rest)) :
      Escape setting r (.character ⟨value, '\\' :: textBefore r rest⟩) rest

/-- The reader of escapes in a class follows `Escape`, and takes all that it allows. -/
theorem escaped_iff : escaped setting r = .ok (n, rest) ↔ Escape setting r n rest := by
  constructor
  · intro h
    obtain ⟨⟨set, after⟩, hset, h⟩ := bind_eq_ok.1 h
    cases set with
    | some set =>
      cases h
      exact .shorthand hset
    | none =>
      obtain ⟨⟨value, after'⟩, hvalue, h⟩ := bind_eq_ok.1 h
      cases h
      obtain rfl := Lexeme.shorthand?_none hset
      exact .character hset hvalue
  · intro h
    cases h with
    | shorthand h => exact bind_eq_ok.2 ⟨_, h, rfl⟩
    | character hset h => exact bind_eq_ok.2 ⟨_, hset, bind_eq_ok.2 ⟨_, h, rfl⟩⟩

theorem Escape.suffix (h : Escape setting r n rest) : rest <:+ r := by
  cases h with
  | shorthand h =>
    obtain ⟨c, tail, rfl, ⟨-, rfl⟩ | ⟨-, -, hproperty⟩⟩ := Lexeme.shorthand?_iff.1 h
    · exact List.suffix_cons _ _
    · obtain ⟨tail, rfl, hsuffix⟩ := Lexeme.suffix_property hproperty
      exact (hsuffix.trans (List.suffix_cons _ _)).trans (List.suffix_cons _ _)
  | character _ h => exact Lexeme.suffix_characterEscape h

/-- A character of a class, or a shorthand. -/
inductive Atom (setting : Setting) : List Char → Node → List Char → Prop
  | escape {r rest : List Char} {n : Node} (h : Escape setting r n rest) :
      Atom setting ('\\' :: r) n rest
  | self {c : Char} (hc : c ≠ '\\') (r : List Char) :
      Atom setting (c :: r) (.character ⟨c.toNat, [c]⟩) r

theorem atom_iff : atom setting text = .ok (n, rest) ↔ Atom setting text n rest := by
  constructor
  · intro h
    unfold atom at h
    split at h
    · cases h
    · exact .escape (escaped_iff.1 h)
    · rename_i hc
      cases h
      exact .self hc _
  · intro h
    cases h with
    | escape h => exact escaped_iff.2 h
    | self hc r => rw [atom]; exact hc

/-- A character of a class takes a character of the text at least. -/
theorem Atom.tail (h : Atom setting text n rest) : ∃ c tail, text = c :: tail ∧ rest <:+ tail := by
  cases h with
  | escape h => exact ⟨_, _, rfl, h.suffix⟩
  | self _ r => exact ⟨_, _, rfl, List.suffix_refl _⟩

/-! ## Ranges -/

/-- Not two characters, so no range can be made of them. -/
def NoRange (a b : Node) : Prop := ∀ x y, a = .character x → b ≠ .character y

/-- Two characters in order make a range. Out of order they are a fault, and whatever else stands
there is for `otherwise`. -/
theorem makeRange_iff {start : List Char} {otherwise : Except Fault (List Node)} {a b : Node} :
    makeRange start otherwise a b = .ok ns ↔
      (∃ x y, a = .character x ∧ b = .character y ∧ x.value ≤ y.value ∧ ns = [.range x y]) ∨
        NoRange a b ∧ otherwise = .ok ns := by
  constructor
  · intro h
    unfold makeRange at h
    split at h
    · split at h
      · cases h
      · rename_i horder
        cases h
        exact .inl ⟨_, _, rfl, rfl, Nat.le_of_not_lt horder, rfl⟩
    · rename_i hother
      exact .inr ⟨hother, h⟩
  · rintro (⟨x, y, rfl, rfl, hle, rfl⟩ | ⟨hother, h⟩)
    · rw [makeRange, if_neg (Nat.not_lt.2 hle)]
    · rw [makeRange, h]
      exact hother

/-! ## Without `v` -/

/-- One item of a class: a single one, a range, or two items with a hyphen between them that make no
range. -/
inductive Item (setting : Setting) : List Char → List Node → List Char → Prop
  | single {text r : List Char} {a : Node} (ha : Atom setting text a r)
      (hr : ∀ c r', r = '-' :: c :: r' → c = ']') : Item setting text [a] r
  | range {text r rest : List Char} {a b : Letter}
      (ha : Atom setting text (.character a) ('-' :: r)) (hr : r.head? ≠ some ']')
      (hb : Atom setting r (.character b) rest) (hle : a.value ≤ b.value) :
      Item setting text [.range a b] rest
  | apart {text r rest : List Char} {a b : Node} (hlenient : setting.strict = false)
      (ha : Atom setting text a ('-' :: r)) (hr : r.head? ≠ some ']') (hb : Atom setting r b rest)
      (hab : NoRange a b) : Item setting text [a, .character ⟨'-'.toNat, ['-']⟩, b] rest

/-- The reader of items follows `Item`, and takes all that it allows. -/
theorem item_iff : item setting text = .ok (ns, rest) ↔ Item setting text ns rest := by
  constructor
  · intro h
    obtain ⟨⟨a, r⟩, ha, h⟩ := bind_eq_ok.1 h
    simp only [atom_iff] at ha h
    split at h
    · rename_i c r'
      split at h
      · rename_i hc
        cases h
        refine .single ha fun d r2 heq => ?_
        cases heq
        exact beq_iff_eq.1 hc
      · rename_i hc
        obtain ⟨⟨b, r2⟩, hb, h⟩ := bind_eq_ok.1 h
        obtain ⟨ms, hms, h⟩ := bind_eq_ok.1 h
        rw [atom_iff] at hb
        cases h
        have hr : (c :: r').head? ≠ some ']' := by simpa using hc
        obtain ⟨x, y, rfl, rfl, hle, rfl⟩ | ⟨hab, hother⟩ := makeRange_iff.1 hms
        · exact .range ha hr hb hle
        · split at hother
          · cases hother
          · rename_i hlenient
            cases hother
            exact .apart (Bool.eq_false_iff.2 hlenient) ha hr hb hab
    · rename_i hrange
      cases h
      exact .single ha fun c r' heq => absurd heq (hrange c r')
  · intro h
    cases h with
    | single ha hr =>
      refine bind_eq_ok.2 ⟨_, atom_iff.2 ha, ?_⟩
      simp only
      split
      · rename_i c r'
        rw [if_pos (beq_iff_eq.2 (hr c r' rfl))]
      · rfl
    | range ha hr hb hle =>
      refine bind_eq_ok.2 ⟨_, atom_iff.2 ha, ?_⟩
      obtain ⟨c, r, rfl, -⟩ := hb.tail
      simp only
      rw [if_neg (by simpa using hr)]
      refine bind_eq_ok.2 ⟨_, atom_iff.2 hb, bind_eq_ok.2 ⟨_, makeRange_iff.2 ?_, rfl⟩⟩
      exact .inl ⟨_, _, rfl, rfl, hle, rfl⟩
    | apart hlenient ha hr hb hab =>
      refine bind_eq_ok.2 ⟨_, atom_iff.2 ha, ?_⟩
      obtain ⟨c, r, rfl, -⟩ := hb.tail
      simp only
      rw [if_neg (by simpa using hr)]
      refine bind_eq_ok.2 ⟨_, atom_iff.2 hb, bind_eq_ok.2 ⟨_, makeRange_iff.2 ?_, rfl⟩⟩
      exact .inr ⟨hab, by rw [hlenient]; rfl⟩

theorem Item.tail (h : Item setting text ns rest) : ∃ c tail, text = c :: tail ∧ rest <:+ tail := by
  have htwo {r : List Char} {a b : Node} (ha : Atom setting text a ('-' :: r))
      (hb : Atom setting r b rest) : ∃ c tail, text = c :: tail ∧ rest <:+ tail := by
    obtain ⟨c, tail, rfl, hsuffix⟩ := ha.tail
    obtain ⟨d, r, rfl, hrest⟩ := hb.tail
    exact ⟨c, tail, rfl, ((hrest.trans (List.suffix_cons _ _)).trans (List.suffix_cons _ _)).trans
      hsuffix⟩
  cases h with
  | single ha _ => exact ha.tail
  | range ha _ hb _ => exact htwo ha hb
  | apart _ ha _ hb _ => exact htwo ha hb

/-- Items up to the closing bracket, which is taken too. -/
inductive Items (setting : Setting) : List Char → List Node → List Char → Prop
  | nil (rest : List Char) : Items setting (']' :: rest) [] rest
  | cons {text r rest : List Char} {ns more : List Node} (hopen : text.head? ≠ some ']')
      (h : Item setting text ns r) (hmore : Items setting r more rest) :
      Items setting text (ns ++ more) rest

theorem head?_ne_of_forall {c : Char} {text : List Char} (h : ∀ r, text ≠ c :: r) :
    text.head? ≠ some c := by
  intro hhead
  obtain ⟨r, rfl⟩ := List.head?_eq_some_iff.1 hhead
  exact h r rfl

/-- A class that is read to its end followed the rules, whatever the bound of the loop. -/
theorem Items.of_ok {start : List Char} {k : Nat}
    (h : items setting start k text = .ok (ns, rest)) : Items setting text ns rest := by
  fun_induction items setting start k text generalizing ns with
  | case1 _ r =>
    cases h
    exact .nil _
  | case2 => cases h
  | case3 => cases h
  | case4 k text hopen _ ih =>
    obtain ⟨⟨ms, r⟩, hitem, h⟩ := bind_eq_ok.1 h
    obtain ⟨⟨more, r2⟩, hmore, h⟩ := bind_eq_ok.1 h
    cases h
    exact .cons (head?_ne_of_forall hopen) (item_iff.1 hitem) (ih r hmore)

/-- No class is longer than the text. -/
theorem Items.ok {start : List Char} {k : Nat} (h : Items setting text ns rest)
    (hk : text.length ≤ k) : items setting start k text = .ok (ns, rest) := by
  induction h generalizing k with
  | nil rest => simp [items]
  | cons hopen hitem hmore ih =>
    obtain ⟨c, tail, rfl, hsuffix⟩ := hitem.tail
    rw [List.length_cons] at hk
    have hle := hsuffix.length_le
    obtain ⟨k, rfl⟩ : ∃ j, k = j + 1 := ⟨k - 1, by omega⟩
    rw [items]
    · exact bind_eq_ok.2 ⟨_, item_iff.2 hitem, bind_eq_ok.2 ⟨_, ih (by omega), rfl⟩⟩
    · rintro r heq
      rw [heq] at hopen
      exact hopen rfl
    · exact fun heq => absurd heq (List.cons_ne_nil _ _)

theorem Items.suffix (h : Items setting text ns rest) : ']' :: rest <:+ text := by
  induction h with
  | nil => exact List.suffix_refl _
  | cons _ hitem _ ih =>
    obtain ⟨c, tail, rfl, hsuffix⟩ := hitem.tail
    exact (ih.trans hsuffix).trans (List.suffix_cons _ _)

theorem suffix_negation (text : List Char) : (negation text).2 <:+ text := by
  unfold negation
  split
  · exact List.suffix_cons _ _
  · exact List.suffix_refl _

/-- A class without `v` is its mark of negation and its items. -/
theorem listed_iff : listed setting text = .ok (n, rest) ↔
    ∃ ns, n = .charClass (negation text).1 false ns ∧ Items setting (negation text).2 ns rest := by
  constructor
  · intro h
    rw [listed, bind_eq_ok] at h
    obtain ⟨⟨ns, r⟩, hitems, h⟩ := h
    cases h
    exact ⟨ns, rfl, .of_ok hitems⟩
  · rintro ⟨ns, rfl, hitems⟩
    rw [listed, bind_eq_ok]
    exact ⟨_, hitems.ok (Nat.le_refl _), rfl⟩

theorem suffix_listed (h : listed setting text = .ok (n, rest)) : rest <:+ text := by
  obtain ⟨ns, -, hitems⟩ := listed_iff.1 h
  exact ((List.suffix_cons _ _).trans hitems.suffix).trans (suffix_negation text)

/-! ## Strings -/

/-- The letters of a string, up to a bar or the closing brace, which is left. -/
inductive Letters (setting : Setting) : List Char → List Letter → List Char → Prop
  | bar (r : List Char) : Letters setting ('|' :: r) [] ('|' :: r)
  | brace (r : List Char) : Letters setting ('}' :: r) [] ('}' :: r)
  | escape {r after rest : List Char} {value : Nat} {more : List Letter}
      (h : Lexeme.characterEscape setting true r = .ok (value, after))
      (hmore : Letters setting after more rest) :
      Letters setting ('\\' :: r) (⟨value, '\\' :: textBefore r after⟩ :: more) rest
  | self {c : Char} {r rest : List Char} {more : List Letter} (hc : c ∉ ['|', '}', '\\'])
      (hmore : Letters setting r more rest) : Letters setting (c :: r) (⟨c.toNat, [c]⟩ :: more) rest

theorem Letters.of_ok {start : List Char} {k : Nat} {found : List Letter}
    (h : letters setting start k text = .ok (found, rest)) : Letters setting text found rest := by
  fun_induction letters setting start k text generalizing found with
  | case1 _ r =>
    cases h
    exact .bar r
  | case2 _ r =>
    cases h
    exact .brace r
  | case3 => cases h
  | case4 => cases h
  | case5 k r ih =>
    obtain ⟨⟨value, after⟩, hvalue, h⟩ := bind_eq_ok.1 h
    obtain ⟨⟨more, after'⟩, hmore, h⟩ := bind_eq_ok.1 h
    cases h
    exact .escape hvalue (ih after hmore)
  | case6 k c r hbar hbrace hbackslash ih =>
    obtain ⟨⟨more, after⟩, hmore, h⟩ := bind_eq_ok.1 h
    cases h
    refine .self ?_ (ih hmore)
    simp only [List.mem_cons, List.not_mem_nil, or_false, not_or]
    exact ⟨hbar, hbrace, hbackslash⟩

theorem Letters.ok {start : List Char} {k : Nat} {found : List Letter}
    (h : Letters setting text found rest) (hk : text.length ≤ k) :
    letters setting start k text = .ok (found, rest) := by
  induction h generalizing k with
  | bar r => simp [letters]
  | brace r => simp [letters]
  | escape hvalue _ ih =>
    rw [List.length_cons] at hk
    have hle := (Lexeme.suffix_characterEscape hvalue).length_le
    obtain ⟨k, rfl⟩ : ∃ j, k = j + 1 := ⟨k - 1, by omega⟩
    rw [letters]
    exact bind_eq_ok.2 ⟨_, hvalue, bind_eq_ok.2 ⟨_, ih (by omega), rfl⟩⟩
  | self hc _ ih =>
    rw [List.length_cons] at hk
    simp only [List.mem_cons, List.not_mem_nil, or_false, not_or] at hc
    obtain ⟨k, rfl⟩ : ∃ j, k = j + 1 := ⟨k - 1, by omega⟩
    rw [letters]
    · exact bind_eq_ok.2 ⟨_, ih (by omega), rfl⟩
    · exact hc.1
    · exact hc.2.1
    · exact hc.2.2

/-- A string stops at a bar or at the brace, and leaves it. -/
theorem Letters.stop {found : List Letter} (h : Letters setting text found rest) :
    rest <:+ text ∧ ∃ r, rest = '|' :: r ∨ rest = '}' :: r := by
  induction h with
  | bar r => exact ⟨List.suffix_refl _, r, .inl rfl⟩
  | brace r => exact ⟨List.suffix_refl _, r, .inr rfl⟩
  | escape hvalue _ ih =>
    exact ⟨(ih.1.trans (Lexeme.suffix_characterEscape hvalue)).trans (List.suffix_cons _ _), ih.2⟩
  | self _ _ ih => exact ⟨ih.1.trans (List.suffix_cons _ _), ih.2⟩

/-- Strings with bars between them, up to the closing brace, which is taken too. -/
inductive Strings (setting : Setting) : List Char → List (List Letter) → List Char → Prop
  | last {text rest : List Char} {first : List Letter}
      (h : Letters setting text first ('}' :: rest)) : Strings setting text [first] rest
  | cons {text r rest : List Char} {first : List Letter} {more : List (List Letter)}
      (h : Letters setting text first ('|' :: r)) (hmore : Strings setting r more rest) :
      Strings setting text (first :: more) rest

theorem Strings.of_ok {start : List Char} {k : Nat} {found : List (List Letter)}
    (h : strings setting start k text = .ok (found, rest)) : Strings setting text found rest := by
  induction k generalizing text found with
  | zero => cases h
  | succ k ih =>
    obtain ⟨⟨first, r⟩, hfirst, h⟩ := bind_eq_ok.1 h
    have hfirst := Letters.of_ok hfirst
    simp only at h
    split at h
    · obtain ⟨⟨more, r2⟩, hmore, h⟩ := bind_eq_ok.1 h
      cases h
      exact .cons hfirst (ih hmore)
    · rename_i hbar
      cases h
      obtain ⟨r', rfl | rfl⟩ := hfirst.stop.2
      · exact absurd rfl (hbar r')
      · exact .last hfirst

theorem Strings.ok {start : List Char} {k : Nat} {found : List (List Letter)}
    (h : Strings setting text found rest) (hk : text.length < k) :
    strings setting start k text = .ok (found, rest) := by
  induction h generalizing k with
  | last hfirst =>
    obtain ⟨k, rfl⟩ : ∃ j, k = j + 1 := ⟨k - 1, by omega⟩
    exact bind_eq_ok.2 ⟨_, hfirst.ok (Nat.le_refl _), rfl⟩
  | cons hfirst _ ih =>
    have hle := hfirst.stop.1.length_le
    rw [List.length_cons] at hle
    obtain ⟨k, rfl⟩ : ∃ j, k = j + 1 := ⟨k - 1, by omega⟩
    refine bind_eq_ok.2 ⟨_, hfirst.ok (Nat.le_refl _), ?_⟩
    exact bind_eq_ok.2 ⟨_, ih (by omega), rfl⟩

theorem Strings.suffix {found : List (List Letter)} (h : Strings setting text found rest) :
    '}' :: rest <:+ text := by
  induction h with
  | last h => exact h.stop.1
  | cons h _ ih => exact (ih.trans (List.suffix_cons _ _)).trans h.stop.1

theorem Strings.ne_nil {found : List (List Letter)} (h : Strings setting text found rest) :
    found ≠ [] := by
  cases h <;> exact List.cons_ne_nil _ _

/-! ## With `v` -/

/-- A class in the class, strings, or a character or shorthand. -/
inductive Operand (setting : Setting) (inner : List Char → Except Fault (Node × List Char)) :
    List Char → Node → List Char → Prop
  | nested {r rest : List Char} {n : Node} (h : inner r = .ok (n, rest)) :
      Operand setting inner ('[' :: r) n rest
  | strings {r rest : List Char} {found : List (List Letter)} (h : Strings setting r found rest) :
      Operand setting inner ('\\' :: 'q' :: '{' :: r) (.strings found) rest
  | escape {r rest : List Char} {n : Node} (hq : ∀ r', r ≠ 'q' :: '{' :: r')
      (h : Escape setting r n rest) : Operand setting inner ('\\' :: r) n rest
  | self {c : Char} (hc : c ≠ '[' ∧ c ≠ '\\') (hreserved : c ∉ reserved) (r : List Char) :
      Operand setting inner (c :: r) (.character ⟨c.toNat, [c]⟩) r

variable {inner operand : List Char → Except Fault (Node × List Char)}

/-- The reader of operands follows `Operand`, whatever reads the classes in it. -/
theorem operand_iff :
    Class.operand setting inner text = .ok (n, rest) ↔ Operand setting inner text n rest := by
  constructor
  · intro h
    unfold Class.operand at h
    split at h
    · cases h
    · exact .nested h
    · obtain ⟨⟨found, r⟩, hstrings, h⟩ := bind_eq_ok.1 h
      cases h
      exact .strings (.of_ok hstrings)
    · rename_i hq
      exact .escape hq (escaped_iff.1 h)
    · rename_i hopen _ hbackslash
      split at h
      · cases h
      · rename_i hreserved
        cases h
        exact .self ⟨hopen, hbackslash⟩ (by simpa using hreserved) _
  · intro h
    cases h with
    | nested h => exact h
    | strings h => exact bind_eq_ok.2 ⟨_, h.ok (Nat.lt_succ_self _), rfl⟩
    | escape hq h =>
      rw [Class.operand]
      · exact escaped_iff.2 h
      · exact hq
    | self hc hreserved r =>
      rw [Class.operand, if_neg (by simpa using hreserved)]
      · exact hc.1
      · exact fun _ hbackslash _ => hc.2 hbackslash
      · exact hc.2

theorem Operand.tail (hinner : ∀ {r rest n}, inner r = .ok (n, rest) → rest <:+ r)
    (h : Operand setting inner text n rest) : ∃ c tail, text = c :: tail ∧ rest <:+ tail := by
  cases h with
  | nested h => exact ⟨_, _, rfl, hinner h⟩
  | strings h =>
    exact ⟨_, _, rfl, (((List.suffix_cons _ _).trans h.suffix).trans (List.suffix_cons _ _)).trans
      (List.suffix_cons _ _)⟩
  | escape _ h => exact ⟨_, _, rfl, h.suffix⟩
  | self _ _ r => exact ⟨_, _, rfl, List.suffix_refl _⟩

/-- An operand, or a range; two hyphens are an operator. -/
inductive Element (operand : List Char → Except Fault (Node × List Char)) :
    List Char → Node → List Char → Prop
  | single {text r : List Char} {n : Node} (h : operand text = .ok (n, r))
      (hr : ∀ r', r = '-' :: r' → r'.head? = some '-') : Element operand text n r
  | range {text r rest : List Char} {a b : Letter}
      (ha : operand text = .ok (.character a, '-' :: r)) (hr : r.head? ≠ some '-')
      (hb : operand r = .ok (.character b, rest)) (hle : a.value ≤ b.value) :
      Element operand text (.range a b) rest

/-- A hyphen makes a range if no other hyphen follows. -/
theorem rangeOrOperand_iff :
    rangeOrOperand operand text = .ok (n, rest) ↔ Element operand text n rest := by
  constructor
  · intro h
    obtain ⟨⟨a, r⟩, ha, h⟩ := bind_eq_ok.1 h
    simp only at h
    split at h
    · cases h
      refine .single ha fun r' heq => ?_
      cases heq
      rfl
    · rename_i hoperator
      obtain ⟨⟨b, r2⟩, hb, h⟩ := bind_eq_ok.1 h
      obtain ⟨ns, hns, h⟩ := bind_eq_ok.1 h
      cases h
      obtain ⟨x, y, rfl, rfl, hle, rfl⟩ | ⟨-, hother⟩ := makeRange_iff.1 hns
      · refine .range ha (head?_ne_of_forall fun r' heq => ?_) hb hle
        subst heq
        exact hoperator _ rfl
      · cases hother
    · rename_i hrange
      cases h
      exact .single ha fun r' heq => absurd heq (hrange r')
  · intro h
    cases h with
    | single h hr =>
      refine bind_eq_ok.2 ⟨_, h, ?_⟩
      simp only
      split
      · rfl
      · rename_i r' hoperator
        obtain ⟨r2, rfl⟩ := List.head?_eq_some_iff.1 (hr r' rfl)
        exact absurd rfl (hoperator r2)
      · rfl
    | range ha hr hb hle =>
      refine bind_eq_ok.2 ⟨_, ha, ?_⟩
      simp only
      split
      · rename_i heq
        cases heq
        exact absurd rfl hr
      · rename_i heq
        cases heq
        refine bind_eq_ok.2 ⟨_, hb, bind_eq_ok.2 ⟨[.range _ _], makeRange_iff.2 ?_, rfl⟩⟩
        exact .inl ⟨_, _, rfl, rfl, hle, rfl⟩
      · rename_i hrange
        exact absurd rfl (hrange _)

/-- What the readers of operands leave is a tail of the text. -/
def Shortens (operand : List Char → Except Fault (Node × List Char)) : Prop :=
  ∀ ⦃text rest : List Char⦄ ⦃n : Node⦄, operand text = .ok (n, rest) →
    ∃ c tail, text = c :: tail ∧ rest <:+ tail

theorem Element.tail (hoperand : Shortens operand) (h : Element operand text n rest) :
    ∃ c tail, text = c :: tail ∧ rest <:+ tail := by
  cases h with
  | single h _ => exact hoperand h
  | range ha _ hb _ =>
    obtain ⟨c, tail, rfl, hsuffix⟩ := hoperand ha
    obtain ⟨d, r, rfl, hrest⟩ := hoperand hb
    exact ⟨c, tail, rfl, ((hrest.trans (List.suffix_cons _ _)).trans (List.suffix_cons _ _)).trans
      hsuffix⟩

/-- An operator is found where its text stands. -/
theorem operator?_eq_some {operator : SetOperator} :
    operator? text = some operator ↔ ∃ rest, text = operator.text ++ rest := by
  constructor
  · intro h
    unfold operator? at h
    split at h
    · cases h
      exact ⟨_, rfl⟩
    · cases h
      exact ⟨_, rfl⟩
    · cases h
  · rintro ⟨rest, rfl⟩
    cases operator <;> rfl

theorem strip?_iff {front : List Char} :
    Text.strip? front text = some rest ↔ text = front ++ rest := by
  induction front generalizing text with
  | nil => simp [Text.strip?]
  | cons c front ih =>
    cases text with
    | nil => simp [Text.strip?]
    | cons d text =>
      rw [Text.strip?]
      split
      · rename_i hcd
        simp [hcd, ih]
      · rename_i hcd
        simp [eq_comm, hcd]

/-- One operator as often as it is written, from left to right. -/
inductive Operations (operand : List Char → Except Fault (Node × List Char))
    (operator : SetOperator) : Node → List Char → Node → List Char → Prop
  | nil (left : Node) (r : List Char) : Operations operand operator left r left r
  | cons {left right n : Node} {r r' rest : List Char} (h : operand r = .ok (right, r'))
      (hmore : Operations operand operator (.classOperation operator left right) r' n rest) :
      Operations operand operator left (operator.text ++ r) n rest

/-- One operator after another is applied from left to right. -/
theorem Operations.of_ok {operator : SetOperator} {k : Nat} {left : Node}
    (h : operations operand operator k left text = .ok (n, rest)) :
    Operations operand operator left text n rest := by
  induction k generalizing left text with
  | zero =>
    cases h
    exact .nil _ _
  | succ k ih =>
    rw [operations] at h
    split at h
    · cases h
      exact .nil _ _
    · rename_i r hstrip
      obtain ⟨⟨right, r'⟩, hright, h⟩ := bind_eq_ok.1 h
      rw [strip?_iff.1 hstrip]
      exact .cons hright (ih h)

/-- The operator is applied to the end if it does not stand there once more. -/
theorem Operations.ok (hoperand : Shortens operand) {operator : SetOperator} {k : Nat} {left : Node}
    (h : Operations operand operator left text n rest)
    (hrest : Text.strip? operator.text rest = none) (hk : text.length ≤ k) :
    operations operand operator k left text = .ok (n, rest) := by
  induction h generalizing k with
  | nil left r =>
    cases k with
    | zero => rfl
    | succ k => rw [operations, hrest]
  | cons hright _ ih =>
    obtain ⟨c, tail, rfl, hsuffix⟩ := hoperand hright
    have hle := hsuffix.length_le
    rw [List.length_append, List.length_cons] at hk
    obtain ⟨k, rfl⟩ : ∃ j, k = j + 1 := ⟨k - 1, by omega⟩
    rw [operations, strip?_iff.2 rfl]
    exact bind_eq_ok.2 ⟨_, hright, ih hrest (by omega)⟩

theorem Operations.suffix (hoperand : Shortens operand) {operator : SetOperator} {left : Node}
    (h : Operations operand operator left text n rest) : rest <:+ text := by
  induction h with
  | nil => exact List.suffix_refl _
  | cons hright _ ih =>
    obtain ⟨c, tail, rfl, hsuffix⟩ := hoperand hright
    exact ((ih.trans hsuffix).trans (List.suffix_cons _ _)).trans (List.suffix_append _ _)

/-- Elements up to the closing bracket, which is taken too, with no operator between them. -/
inductive Elements (operand : List Char → Except Fault (Node × List Char)) :
    List Char → List Node → List Char → Prop
  | nil (rest : List Char) : Elements operand (']' :: rest) [] rest
  | cons {text r rest : List Char} {n : Node} {more : List Node} (hopen : text.head? ≠ some ']')
      (hoperator : operator? text = none) (h : Element operand text n r)
      (hmore : Elements operand r more rest) : Elements operand text (n :: more) rest

theorem Elements.of_ok {start : List Char} {k : Nat}
    (h : elements operand start k text = .ok (ns, rest)) : Elements operand text ns rest := by
  fun_induction elements operand start k text generalizing ns with
  | case1 _ r =>
    cases h
    exact .nil _
  | case2 => cases h
  | case3 => cases h
  | case4 => cases h
  | case5 k text hopen _ hoperator ih =>
    obtain ⟨⟨n, r⟩, hn, h⟩ := bind_eq_ok.1 h
    obtain ⟨⟨more, r2⟩, hmore, h⟩ := bind_eq_ok.1 h
    cases h
    exact .cons (head?_ne_of_forall hopen) (by simpa using hoperator) (rangeOrOperand_iff.1 hn)
      (ih r hmore)

theorem Elements.ok (hoperand : Shortens operand) {start : List Char} {k : Nat}
    (h : Elements operand text ns rest) (hk : text.length ≤ k) :
    elements operand start k text = .ok (ns, rest) := by
  induction h generalizing k with
  | nil rest => simp [elements]
  | cons hopen hoperator h hmore ih =>
    obtain ⟨c, tail, rfl, hsuffix⟩ := h.tail hoperand
    have hle := hsuffix.length_le
    rw [List.length_cons] at hk
    obtain ⟨k, rfl⟩ : ∃ j, k = j + 1 := ⟨k - 1, by omega⟩
    rw [elements, if_neg (by simp [hoperator])]
    · exact bind_eq_ok.2 ⟨_, rangeOrOperand_iff.2 h, bind_eq_ok.2 ⟨_, ih (by omega), rfl⟩⟩
    · rintro r heq
      rw [heq] at hopen
      exact hopen rfl
    · exact fun heq => absurd heq (List.cons_ne_nil _ _)

theorem Elements.suffix (hoperand : Shortens operand) (h : Elements operand text ns rest) :
    ']' :: rest <:+ text := by
  induction h with
  | nil => exact List.suffix_refl _
  | cons _ _ h _ ih =>
    obtain ⟨c, tail, rfl, hsuffix⟩ := h.tail hoperand
    exact (ih.trans hsuffix).trans (List.suffix_cons _ _)

/-- The inside of a class, after the mark of a negated one: elements, or an expression. -/
inductive Body (operand : List Char → Except Fault (Node × List Char)) (negate : Bool) :
    List Char → Node → List Char → Prop
  | empty (rest : List Char) : Body operand negate (']' :: rest) (.charClass negate true []) rest
  | list {text after rest : List Char} {first : Node} {more : List Node}
      (hopen : text.head? ≠ some ']') (hfirst : Element operand text first after)
      (hoperator : operator? after = none) (hmore : Elements operand after more rest) :
      Body operand negate text (.charClass negate true (first :: more)) rest
  | expression {text after rest : List Char} {operator : SetOperator} {first n : Node}
      (hopen : text.head? ≠ some ']') (hfirst : operand text = .ok (first, after))
      (hrange : isRange first = false) (hoperator : operator? after = some operator)
      (h : Operations operand operator first after n (']' :: rest)) :
      Body operand negate text (.classExpression negate n) rest

/-- In front of an operator an element is an operand: a hyphen there belongs to the operator. -/
theorem Element.of_operator {operator : SetOperator} {first : Node} {after : List Char}
    (hoperator : operator? after = some operator) (hrange : isRange first = false) :
    Element operand text first after ↔ operand text = .ok (first, after) := by
  constructor
  · intro h
    cases h with
    | single h _ => exact h
    | range => cases hrange
  · intro h
    refine .single h ?_
    rintro r rfl
    obtain ⟨t, ht⟩ := operator?_eq_some.1 hoperator
    cases operator with
    | intersection => cases ht
    | subtraction =>
      cases ht
      rfl

/-- Whether a class is a list or an expression is told by what stands behind its first element. -/
theorem Body.of_ok (h : body operand text = .ok (n, rest)) :
    Body operand (negation text).1 (negation text).2 n rest := by
  unfold body at h
  generalize negation text = pair at h ⊢
  obtain ⟨negate, r⟩ := pair
  simp only at h ⊢
  split at h
  · cases h
    exact .empty _
  · rename_i hopen
    have hopen := head?_ne_of_forall hopen
    obtain ⟨⟨first, after⟩, hfirst, h⟩ := bind_eq_ok.1 h
    rw [rangeOrOperand_iff] at hfirst
    simp only at h
    split at h
    · rename_i operator hoperator
      split at h
      · cases h
      · rename_i hrange
        have hrange := Bool.eq_false_iff.2 hrange
        obtain ⟨⟨expression, after'⟩, hexpression, h⟩ := bind_eq_ok.1 h
        simp only at h
        split at h
        · cases h
          have hfirst := (Element.of_operator hoperator hrange).1 hfirst
          exact .expression hopen hfirst hrange hoperator (.of_ok hexpression)
        · cases h
    · rename_i hoperator
      obtain ⟨⟨more, after'⟩, hmore, h⟩ := bind_eq_ok.1 h
      cases h
      exact .list hopen hfirst hoperator (.of_ok hmore)

theorem Body.ok (hoperand : Shortens operand)
    (h : Body operand (negation text).1 (negation text).2 n rest) :
    body operand text = .ok (n, rest) := by
  unfold body
  generalize negation text = pair at h ⊢
  obtain ⟨negate, r⟩ := pair
  simp only at h ⊢
  cases h with
  | empty => rfl
  | list hopen hfirst hoperator hmore =>
    split
    · exact absurd rfl hopen
    · refine bind_eq_ok.2 ⟨_, rangeOrOperand_iff.2 hfirst, ?_⟩
      simp only [hoperator]
      exact bind_eq_ok.2 ⟨_, hmore.ok hoperand (Nat.le_refl _), rfl⟩
  | @expression _ _ _ operator _ _ hopen hfirst hrange hoperator h =>
    have hclosed : Text.strip? operator.text (']' :: rest) = none := by cases operator <;> rfl
    have hfirst := (Element.of_operator hoperator hrange).2 hfirst
    split
    · exact absurd rfl hopen
    · refine bind_eq_ok.2 ⟨_, rangeOrOperand_iff.2 hfirst, ?_⟩
      simp only [hoperator, hrange, Bool.false_eq_true, if_false]
      exact bind_eq_ok.2 ⟨_, h.ok hoperand hclosed (Nat.le_refl _), rfl⟩

theorem Body.suffix (hoperand : Shortens operand) {negate : Bool}
    (h : Body operand negate text n rest) : ']' :: rest <:+ text := by
  cases h with
  | empty => exact List.suffix_refl _
  | list _ hfirst _ hmore =>
    obtain ⟨c, tail, rfl, hsuffix⟩ := hfirst.tail hoperand
    exact ((hmore.suffix hoperand).trans hsuffix).trans (List.suffix_cons _ _)
  | expression _ hfirst _ _ h =>
    obtain ⟨c, tail, rfl, hsuffix⟩ := hoperand hfirst
    exact ((h.suffix hoperand).trans hsuffix).trans (List.suffix_cons _ _)

/-- A class in a class leaves a tail of its text, at any depth. -/
theorem suffix_nested {depth : Nat} (h : nested setting depth text = .ok (n, rest)) :
    rest <:+ text := by
  induction depth generalizing text rest n with
  | zero => cases h
  | succ depth ih =>
    have hclose := (Body.of_ok h).suffix fun _ _ _ h => (operand_iff.1 h).tail ih
    exact ((List.suffix_cons _ _).trans hclose).trans (suffix_negation text)

/-- Operands of a class take a character at least. -/
theorem shortens_operand (depth : Nat) : Shortens (Class.operand setting (nested setting depth)) :=
  fun _ _ _ h => (operand_iff.1 h).tail suffix_nested

/-- The reader of classes in classes follows `Body` one level deeper. -/
theorem nested_iff {depth : Nat} : nested setting (depth + 1) text = .ok (n, rest) ↔
    Body (Class.operand setting (nested setting depth)) (negation text).1 (negation text).2 n
      rest :=
  ⟨Body.of_ok, Body.ok (shortens_operand depth)⟩

end Class

end RegexAudit
