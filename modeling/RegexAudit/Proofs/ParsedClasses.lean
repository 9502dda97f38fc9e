import RegexAudit.Proofs.Classes
import RegexAudit.Proofs.Trees

/-!
# Parsed classes

What is known of a class because it was read from a text. Its text is the text it was read from, and
nothing stands in it but what stands in classes:

    nested setting depth text = .ok (n, rest)  →  '[' :: text = n.text ++ rest  ∧  n.ClassPart

This is shown reader by reader, for the characters and shorthands of a class, its items, and the
operands and operations of a class of the flag `v`.
-/

namespace RegexAudit

namespace Node

/-- The node is a single character, or stands in a class only. -/
def isClassLevel : Node → Bool
  | character _ | range .. | shorthand _ | charClass .. | classExpression .. | classOperation ..
  | strings _ | string _ => true
  | choice .. | look .. | alternative _ | quantifier .. | edge _ | backreference _ => false

/-- Only characters and what stands in classes. -/
def ClassPart : Node → Prop := Throughout fun m => m.isClassLevel = true

/-- The node was read from the beginning of a text, and `rest` is left of it. -/
structure ReadFrom (p : Node → Prop) (text rest : List Char) (n : Node) : Prop where
  shape : p n
  source : text = n.text ++ rest

/-- The nodes were read one after the other, and `rest` is left of the text. -/
structure AllReadFrom (p : Node → Prop) (text rest : List Char) (ns : List Node) : Prop where
  shape : ∀ n ∈ ns, p n
  source : text = textAll [] ns ++ rest

theorem classPart_iff {n : Node} :
    n.ClassPart ↔ n.isClassLevel = true ∧ ∀ c ∈ n.children, c.ClassPart := throughout_iff

theorem classPart_character (letter : Letter) : (character letter).ClassPart :=
  classPart_iff.2 ⟨rfl, by simp [children]⟩

theorem classPart_shorthand (set : Shorthand) : (shorthand set).ClassPart :=
  classPart_iff.2 ⟨rfl, by simp [children]⟩

theorem classPart_range (a b : Letter) : (range a b).ClassPart := by
  refine classPart_iff.2 ⟨rfl, fun c hc => ?_⟩
  simp only [children, List.mem_cons, List.not_mem_nil, or_false] at hc
  rcases hc with rfl | rfl <;> exact classPart_character _

theorem classPart_string (letters : List Letter) : (string letters).ClassPart := by
  refine classPart_iff.2 ⟨rfl, fun c hc => ?_⟩
  obtain ⟨letter, -, rfl⟩ := List.mem_map.1 hc
  exact classPart_character letter

theorem classPart_strings (alternatives : List (List Letter)) :
    (strings alternatives).ClassPart := by
  refine classPart_iff.2 ⟨rfl, fun c hc => ?_⟩
  obtain ⟨letters, -, rfl⟩ := List.mem_map.1 hc
  exact classPart_string letters

theorem textAll_nil_cons (n : Node) (ns : List Node) :
    textAll [] (n :: ns) = n.text ++ textAll [] ns := by
  cases ns with
  | nil => rw [textAll, textAll, List.append_nil]
  | cons m ns => rw [textAll, List.append_nil]

/-- The texts of two rows come one after the other. -/
theorem textAll_append (ns ms : List Node) :
    textAll [] (ns ++ ms) = textAll [] ns ++ textAll [] ms := by
  induction ns with
  | nil => rw [List.nil_append, textAll, List.nil_append]
  | cons n ns ih =>
    rw [List.cons_append, textAll_nil_cons, ih, textAll_nil_cons, List.append_assoc]

variable {p : Node → Prop} {text rest r : List Char} {n : Node} {ns ms : List Node}

theorem allReadFrom_nil (text : List Char) : AllReadFrom p text text [] := ⟨by simp, rfl⟩

theorem ReadFrom.single (h : ReadFrom p text rest n) : AllReadFrom p text rest [n] :=
  ⟨by simpa using h.shape, h.source⟩

/-- What is read where the first reading stopped is read with it. -/
theorem AllReadFrom.append (h : AllReadFrom p text r ns) (h' : AllReadFrom p r rest ms) :
    AllReadFrom p text rest (ns ++ ms) := by
  constructor
  · intro n hn
    rcases List.mem_append.1 hn with hn | hn
    · exact h.shape n hn
    · exact h'.shape n hn
  · rw [h.source, h'.source, textAll_append, List.append_assoc]

theorem ReadFrom.cons (h : ReadFrom p text r n) (h' : AllReadFrom p r rest ns) :
    AllReadFrom p text rest (n :: ns) := h.single.append h'

theorem readFrom_character (c : Char) (r : List Char) :
    ReadFrom ClassPart (c :: r) r (character ⟨c.toNat, [c]⟩) :=
  ⟨classPart_character _, rfl⟩

theorem readFrom_shorthand {set : Shorthand} (h : text = set.text ++ rest) :
    ReadFrom ClassPart text rest (shorthand set) :=
  ⟨classPart_shorthand set, h⟩

/-- An escape is the backslash and what was read after it. -/
theorem readFrom_escape (value : Nat) (h : rest <:+ text) :
    ReadFrom ClassPart ('\\' :: text) rest (character ⟨value, '\\' :: textBefore text rest⟩) := by
  refine ⟨classPart_character _, ?_⟩
  rw [Node.text, List.cons_append, textBefore_append h]

end Node

open Node

namespace Class

variable {setting : Setting} {text rest r : List Char} {n : Node} {ns : List Node}

/-! ## Without `v` -/

theorem Escape.source (h : Escape setting r n rest) : ReadFrom ClassPart ('\\' :: r) rest n := by
  cases h with
  | shorthand h => exact readFrom_shorthand (Lexeme.shorthand?_source h)
  | character _ h => exact readFrom_escape _ (Lexeme.suffix_characterEscape h)

/-- A character of a class has the text that it was read from. -/
theorem Atom.source (h : Atom setting text n rest) : ReadFrom ClassPart text rest n := by
  cases h with
  | escape h => exact h.source
  | self _ r => exact readFrom_character _ _

/-- A range is written as its two ends with a hyphen between them. -/
theorem readFrom_range {a b : Letter} (ha : ReadFrom ClassPart text ('-' :: r) (character a))
    (hb : ReadFrom ClassPart r rest (character b)) : ReadFrom ClassPart text rest (range a b) := by
  refine ⟨classPart_range a b, ?_⟩
  rw [ha.source, hb.source]
  simp [Node.text]

/-- An item has the text that it was read from, whether it is a range or not. -/
theorem Item.source (h : Item setting text ns rest) : AllReadFrom ClassPart text rest ns := by
  cases h with
  | single ha _ => exact ha.source.single
  | range ha _ hb _ => exact (readFrom_range ha.source hb.source).single
  | apart _ ha _ hb _ =>
    exact ha.source.cons ((readFrom_character '-' _).cons hb.source.single)

/-- Items with the closing bracket after them. -/
theorem Items.source (h : Items setting text ns rest) :
    AllReadFrom ClassPart text (']' :: rest) ns := by
  induction h with
  | nil => exact allReadFrom_nil _
  | cons _ hitem _ ih => exact hitem.source.append ih

/-- The mark of negation is part of the opening of a class. -/
theorem negation_source (text : List Char) :
    '[' :: text = classOpening (negation text).1 ++ (negation text).2 := by
  unfold negation
  split <;> rfl

theorem readFrom_charClass {negate unicodeSets : Bool}
    (h : AllReadFrom ClassPart r (']' :: rest) ns) (htext : text = classOpening negate ++ r) :
    ReadFrom ClassPart text rest (charClass negate unicodeSets ns) := by
  refine ⟨?_, ?_⟩
  · exact classPart_iff.2 ⟨rfl, h.shape⟩
  · rw [htext, h.source]
    simp [Node.text]

/-- A class without `v` has the text that it was read from. -/
theorem listed_source (h : listed setting text = .ok (n, rest)) :
    ReadFrom ClassPart ('[' :: text) rest n := by
  obtain ⟨ns, rfl, hitems⟩ := listed_iff.1 h
  exact readFrom_charClass hitems.source (negation_source text)

/-! ## Strings -/

theorem Letters.source {found : List Letter} (h : Letters setting text found rest) :
    text = lettersText found ++ rest := by
  induction h with
  | bar | brace => rfl
  | escape hvalue _ ih =>
    rw [lettersText, List.flatMap_cons, List.append_assoc, ← lettersText, ← ih, List.cons_append,
      textBefore_append (Lexeme.suffix_characterEscape hvalue)]
  | self _ _ ih =>
    rw [lettersText, List.flatMap_cons, List.append_assoc, ← lettersText, ← ih,
      List.singleton_append]

/-- The strings of a class, with bars between them and a brace at the end, give their text again. -/
theorem Strings.source {found : List (List Letter)} (h : Strings setting text found rest) :
    text = Text.join ['|'] (found.map lettersText) ++ '}' :: rest := by
  induction h with
  | last h => exact h.source
  | cons h hmore ih =>
    obtain ⟨second, more, rfl⟩ := List.exists_cons_of_ne_nil hmore.ne_nil
    rw [h.source, ih]
    simp [Text.join]

/-! ## With `v` -/

variable {inner operand : List Char → Except Fault (Node × List Char)}

/-- An operand has the text that it was read from, if the classes in it have. -/
theorem Operand.source
    (hinner : ∀ {r rest n}, inner r = .ok (n, rest) → ReadFrom ClassPart ('[' :: r) rest n)
    (h : Operand setting inner text n rest) : ReadFrom ClassPart text rest n := by
  cases h with
  | nested h => exact hinner h
  | @strings _ _ found h =>
    refine ⟨classPart_strings found, ?_⟩
    rw [h.source]
    simp [Node.text]
  | escape _ h => exact h.source
  | self _ _ r => exact readFrom_character _ _

section
variable (hoperand : ∀ {r rest n}, operand r = .ok (n, rest) → ReadFrom ClassPart r rest n)

include hoperand

theorem Element.source (h : Element operand text n rest) : ReadFrom ClassPart text rest n := by
  cases h with
  | single h _ => exact hoperand h
  | range ha _ hb _ => exact readFrom_range (hoperand ha) (hoperand hb)

/-- An operation starts where its first operand did. -/
theorem Operations.source {operator : SetOperator} {left : Node} {start : List Char}
    (h : Operations operand operator left text n rest)
    (hleft : ReadFrom ClassPart start text left) : ReadFrom ClassPart start rest n := by
  induction h with
  | nil => exact hleft
  | cons hright _ ih =>
    have hright := hoperand hright
    refine ih ⟨?_, ?_⟩
    · refine classPart_iff.2 ⟨rfl, fun c hc => ?_⟩
      simp only [children, List.mem_cons, List.not_mem_nil, or_false] at hc
      rcases hc with rfl | rfl
      · exact hleft.shape
      · exact hright.shape
    · rw [hleft.source, hright.source]
      simp [Node.text]

theorem Elements.source (h : Elements operand text ns rest) :
    AllReadFrom ClassPart text (']' :: rest) ns := by
  induction h with
  | nil => exact allReadFrom_nil _
  | cons _ _ h _ ih => exact (h.source hoperand).cons ih

theorem Body.source {negate : Bool} {start : List Char} (h : Body operand negate text n rest)
    (hstart : start = classOpening negate ++ text) : ReadFrom ClassPart start rest n := by
  cases h with
  | empty => exact readFrom_charClass (allReadFrom_nil _) hstart
  | list _ hfirst _ hmore =>
    exact readFrom_charClass ((hfirst.source hoperand).cons (hmore.source hoperand)) hstart
  | expression _ hfirst _ _ h =>
    have hread := h.source hoperand (hoperand hfirst)
    refine ⟨classPart_iff.2 ⟨rfl, by simpa [children] using hread.shape⟩, ?_⟩
    rw [hstart, hread.source]
    simp [Node.text]

end

/-- A class with `v` has the text that it was read from, at any depth. -/
theorem nested_source (depth : Nat) (h : nested setting depth text = .ok (n, rest)) :
    ReadFrom ClassPart ('[' :: text) rest n := by
  induction depth generalizing text rest n with
  | zero => cases h
  | succ depth ih =>
    have hoperand {r rest n} (h : Class.operand setting (nested setting depth) r = .ok (n, rest)) :
        ReadFrom ClassPart r rest n := (operand_iff.1 h).source ih
    exact (Body.of_ok h).source hoperand (negation_source text)

theorem isCharacter_listed (h : listed setting text = .ok (n, rest)) : n.isCharacter = true := by
  obtain ⟨ns, rfl, -⟩ := listed_iff.1 h
  rfl

theorem Body.isCharacter {negate : Bool} (h : Body operand negate text n rest) :
    n.isCharacter = true := by
  cases h <;> rfl

theorem isCharacter_nested {depth : Nat} (h : nested setting depth text = .ok (n, rest)) :
    n.isCharacter = true := by
  cases depth with
  | zero => cases h
  | succ depth => exact (nested_iff.1 h).isCharacter

end Class

end RegexAudit
