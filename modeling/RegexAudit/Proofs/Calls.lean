import Mathlib.Logic.Relation
import RegexAudit.Proofs.ClassesJoined
import RegexAudit.Proofs.Runs

/-!
# Calls of readers

Reading a pattern is a tree of calls. A task is a reader with the text it is called at. It calls
other readers at what it has left, and a loop goes on with a task of its own kind (`Again`). Where a
reader may go back, because a brace starts no quantifier or a surrogate has no partner, the call is a
task too, and it stops where it started.

    Again setting t u → Follows t.text u.text                                     (Again.follows)
    Calls setting t u → u.text <:+ t.text ∧ u.size < t.size     (Calls.suffix and Calls.size_lt)

A loop that goes on has left a character behind. A call is made at an end of the caller's text, and
there either a character is left behind or the reader that is called has a lower rank, so that no
chain of calls goes on forever (`wellFounded_calls`).
-/

namespace RegexAudit.Pattern

open Lexeme Node

variable {setting : Setting}

/-! ## Tasks -/

/-- The reader of operands in a class that may hold classes `depth` deep. -/
abbrev operandAt (setting : Setting) (depth : Nat) : List Char → Except Fault (Node × List Char) :=
  Class.operand setting (Class.nested setting depth)

/-- A reader and the text it is called at, which stands for its position in the source. -/
inductive Task where
  | disjunction (depth : Nat) (s : Progress)
  | alternatives (depth : Nat) (s : Progress)
  | elements (depth : Nat) (s : Progress)
  | term (depth : Nat) (s : Progress)
  | escape (r : List Char)
  | quantifier (r : List Char)
  | braces (r : List Char)
  | decimal (r : List Char)
  | groupName (r : List Char)
  | property (negate : Bool) (r : List Char)
  | characterEscape (inClass : Bool) (r : List Char)
  | octal (r : List Char)
  | hex (digits : Nat) (r : List Char)
  | unicodeEscape (r : List Char)
  | bracedCode (r : List Char)
  | fourDigits (r : List Char)
  | trailSurrogate (r : List Char)
  | listed (r : List Char)
  | items (start r : List Char)
  | item (r : List Char)
  | classAtom (r : List Char)
  | classEscape (r : List Char)
  | nested (depth : Nat) (r : List Char)
  | rangeOrOperand (depth : Nat) (r : List Char)
  | operand (depth : Nat) (r : List Char)
  | operations (depth : Nat) (operator : SetOperator) (left : Node) (r : List Char)
  | members (depth : Nat) (start r : List Char)
  | strings (start r : List Char)
  | letters (start r : List Char)

namespace Task

/-- The text a task starts at. -/
def text : Task → List Char
  | disjunction _ s | alternatives _ s | elements _ s | term _ s => s.rest
  | escape r | quantifier r | braces r | decimal r | groupName r | property _ r
  | characterEscape _ r | octal r | hex _ r | unicodeEscape r | bracedCode r | fourDigits r
  | trailSurrogate r | listed r | items _ r | item r | classAtom r | classEscape r | nested _ r
  | rangeOrOperand _ r | operand _ r | operations _ _ _ r | members _ _ r | strings _ r
  | letters _ r => r

/-- Where the text begins that faults of a task may be reported at: with an opening that was read
before. -/
def origin : Task → List Char
  | listed r | nested _ r => '[' :: r
  | items start _ | members _ start _ | strings start _ | letters start _ => start
  | t => t.text

/-- A call that leaves no character behind goes to a task of a lower rank. -/
def rank : Task → Nat
  | disjunction .. => 9
  | alternatives .. | nested .. => 8
  | elements .. | members .. | operations .. => 7
  | term .. | rangeOrOperand .. | listed _ => 6
  | escape _ | quantifier _ | operand .. | items .. | classEscape _ => 5
  | item _ | strings .. | characterEscape .. => 4
  | classAtom _ | letters .. | unicodeEscape _ => 3
  | fourDigits _ => 2
  | braces _ | trailSurrogate _ => 1
  | decimal _ | groupName _ | property .. | octal _ | hex .. | bracedCode _ => 0

/-- The length of the text counts first, then the rank. -/
def size (t : Task) : Nat := 10 * t.text.length + t.rank

theorem rank_lt (t : Task) : t.rank < 10 := by
  cases t <;> simp only [rank] <;> omega

/-- The text at which the task stops, or its fault. What is not there is left as it is. -/
def outcome (setting : Setting) : Task → Except Fault (List Char)
  | disjunction depth s => (Pattern.disjunction setting depth s).map fun read => read.2.rest
  | alternatives depth s =>
    (Pattern.alternatives (termAt setting depth) s.rest.length s).map fun read => read.2.rest
  | elements depth s =>
    (Pattern.elements (termAt setting depth) s.rest.length s).map fun read => read.2.rest
  | term depth s => (termAt setting depth s).map fun read => read.2.rest
  | escape r => (escaped setting r).map Prod.snd
  | quantifier r => (quantifier? setting r).map Prod.snd
  | braces r => .ok ((braces? r).elim r Prod.snd)
  | decimal r => .ok ((decimal? r).elim r Prod.snd)
  | groupName r => (Lexeme.groupName r).map Prod.snd
  | property negate r => (Lexeme.property setting negate r).map Prod.snd
  | characterEscape inClass r => (Lexeme.characterEscape setting inClass r).map Prod.snd
  | octal r => .ok (octalOrSelf r).2
  | hex digits r => .ok ((hex? digits r).elim r Prod.snd)
  | unicodeEscape r => (Lexeme.unicodeEscape setting r).map Prod.snd
  | bracedCode r => .ok ((bracedCode? r).elim r Prod.snd)
  | fourDigits r => (Lexeme.fourDigits setting r).map Prod.snd
  | trailSurrogate r => .ok ((trailSurrogate? r).elim r Prod.snd)
  | listed r => (Class.listed setting r).map Prod.snd
  | items start r => (Class.items setting start r.length r).map Prod.snd
  | item r => (Class.item setting r).map Prod.snd
  | classAtom r => (Class.atom setting r).map Prod.snd
  | classEscape r => (Class.escaped setting r).map Prod.snd
  | nested depth r => (Class.nested setting depth r).map Prod.snd
  | rangeOrOperand depth r => (Class.rangeOrOperand (operandAt setting depth) r).map Prod.snd
  | operand depth r => (operandAt setting depth r).map Prod.snd
  | operations depth operator left r =>
    (Class.operations (operandAt setting depth) operator r.length left r).map Prod.snd
  | members depth start r =>
    (Class.elements (operandAt setting depth) start r.length r).map Prod.snd
  | strings start r => (Class.strings setting start (r.length + 1) r).map Prod.snd
  | letters start r => (Class.letters setting start r.length r).map Prod.snd

/-- The capturing groups opened before a task, as far as it counts them. -/
def groups : Task → Nat
  | disjunction _ s | alternatives _ s | elements _ s | term _ s => s.groups
  | _ => 0

/-- The groups a task has counted, or the number it reads. -/
def number? (setting : Setting) : Task → Option Nat
  | disjunction _ s | alternatives _ s | elements _ s | term _ s => some s.groups
  | decimal r => (count? r).map Prod.fst
  | characterEscape inClass r =>
    (Lexeme.characterEscape setting inClass r).toOption.map Prod.fst
  | octal r => some (octalOrSelf r).1
  | unicodeEscape r => (Lexeme.unicodeEscape setting r).toOption.map Prod.fst
  | bracedCode r => (bracedCode? r).map Prod.fst
  | fourDigits r => (Lexeme.fourDigits setting r).toOption.map Prod.fst
  | trailSurrogate r => (trailSurrogate? r).map Prod.fst
  | _ => none

end Task

/-! ## Calls -/

/-- A loop goes on after one round. -/
inductive Again (setting : Setting) : Task → Task → Prop
  | bar {depth : Nat} {s s' : Progress} {n : Node} {r : List Char} :
    alternative (termAt setting depth) s = .ok (n, s') → s'.rest = '|' :: r →
      Again setting (.alternatives depth s) (.alternatives depth (s'.next r))
  | element {depth : Nat} {s s' : Progress} {n : Node} : ¬ AtEnd s.rest →
    termAt setting depth s = .ok (n, s') →
      Again setting (.elements depth s) (.elements depth s')
  | item {start text r : List Char} {ns : List Node} : text.head? ≠ some ']' →
    Class.item setting text = .ok (ns, r) → Again setting (.items start text) (.items start r)
  | operation {depth : Nat} {operator : SetOperator} {left right : Node} {text r r' : List Char} :
    Text.strip? operator.text text = some r → operandAt setting depth r = .ok (right, r') →
      Again setting (.operations depth operator left text)
        (.operations depth operator (.classOperation operator left right) r')
  | member {depth : Nat} {start text r : List Char} {n : Node} : text.head? ≠ some ']' →
    Class.operator? text = none → Class.rangeOrOperand (operandAt setting depth) text = .ok (n, r) →
      Again setting (.members depth start text) (.members depth start r)
  | string {start text r : List Char} {found : List Letter} :
    Class.letters setting start text.length text = .ok (found, '|' :: r) →
      Again setting (.strings start text) (.strings start r)
  | letter {start r : List Char} {c : Char} : c ∉ ['|', '}', '\\'] →
    Again setting (.letters start (c :: r)) (.letters start r)
  | escapedLetter {start r r' : List Char} {value : Nat} :
    characterEscape setting true r = .ok (value, r') →
      Again setting (.letters start ('\\' :: r)) (.letters start r')

/-- A task calls another one, or goes on. -/
inductive Calls (setting : Setting) : Task → Task → Prop
  | again {t u : Task} : Again setting t u → Calls setting t u
  -- patterns
  | alternatives {depth : Nat} {s : Progress} :
    Calls setting (.disjunction (depth + 1) s) (.alternatives depth s)
  | elements {depth : Nat} {s : Progress} :
    Calls setting (.alternatives depth s) (.elements depth s)
  | term {depth : Nat} {s : Progress} : ¬ AtEnd s.rest →
    Calls setting (.elements depth s) (.term depth s)
  | opened {depth : Nat} {s : Progress} {o : Opening} {r : List Char} : s.rest = o.text ++ r →
    o.Allowed s r → Calls setting (.term depth s) (.disjunction depth (o.enter s r))
  | name {depth : Nat} {s : Progress} {r : List Char} : s.rest = '(' :: '?' :: '<' :: r →
    r.head? ≠ some '=' → r.head? ≠ some '!' → Calls setting (.term depth s) (.groupName r)
  | listed {depth : Nat} {s : Progress} {r : List Char} : s.rest = '[' :: r →
    setting.flags.unicodeSets = false → Calls setting (.term depth s) (.listed r)
  | nested {depth : Nat} {s : Progress} {r : List Char} : s.rest = '[' :: r →
    setting.flags.unicodeSets = true → Calls setting (.term depth s) (.nested depth r)
  | escape {depth : Nat} {s : Progress} {r : List Char} : s.rest = '\\' :: r →
    r.head? ≠ some 'b' → r.head? ≠ some 'B' → Calls setting (.term depth s) (.escape r)
  | quantifier {depth : Nat} {s s' : Progress} {n : Node} :
    unquantified setting (disjunction setting depth) (Class.nested setting depth) s =
      .ok ((n, true), s') → Calls setting (.term depth s) (.quantifier s'.rest)
  | leadingBrace {depth : Nat} {s : Progress} : s.rest.head? = some '{' → setting.strict = false →
    Calls setting (.term depth s) (.braces s.rest)
  | trailingBrace {depth : Nat} {s s' : Progress} {n : Node} :
    unquantified setting (disjunction setting depth) (Class.nested setting depth) s =
      .ok ((n, false), s') → s'.rest.head? = some '{' →
        Calls setting (.term depth s) (.braces s'.rest)
  -- quantifiers
  | braces {r : List Char} : Calls setting (.quantifier ('{' :: r)) (.braces ('{' :: r))
  | least {r : List Char} : Calls setting (.braces ('{' :: r)) (.decimal r)
  | most {r r' : List Char} {least : Nat} : count? r = some (least, ',' :: r') →
    r'.head? ≠ some '}' → Calls setting (.braces ('{' :: r)) (.decimal r')
  -- escapes
  | property {c : Char} {r : List Char} : setting.strict = true → c = 'p' ∨ c = 'P' →
    Calls setting (.escape (c :: r)) (.property (c == 'P') r)
  | reference {r : List Char} : (setting.strict || setting.named) = true →
    Calls setting (.escape ('k' :: '<' :: r)) (.groupName r)
  | index {c : Char} {r : List Char} : '1' ≤ c → c ≤ '9' →
    Calls setting (.escape (c :: r)) (.decimal (c :: r))
  | legacy {c : Char} {r r' : List Char} {k : Nat} : '1' ≤ c → c ≤ '9' →
    decimal? (c :: r) = some (k, r') → setting.groups < k → setting.strict = false →
      Calls setting (.escape (c :: r)) (.octal (c :: r))
  | character {c : Char} {r : List Char} : ¬ ('1' ≤ c ∧ c ≤ '9') →
    (c = 'k' → (setting.strict || setting.named) = false) →
    shorthand? setting (c :: r) = .ok (none, c :: r) →
      Calls setting (.escape (c :: r)) (.characterEscape false (c :: r))
  -- escapes of characters
  | octal {inClass : Bool} {c : Char} {r : List Char} : c.isDigit = true →
    (c = '0' → r.head?.any Char.isDigit = true) → setting.strict = false →
      Calls setting (.characterEscape inClass (c :: r)) (.octal (c :: r))
  | twoDigits {inClass : Bool} {r : List Char} :
    Calls setting (.characterEscape inClass ('x' :: r)) (.hex 2 r)
  | unicodeEscape {inClass : Bool} {r : List Char} :
    Calls setting (.characterEscape inClass ('u' :: r)) (.unicodeEscape r)
  | bracedCode {r : List Char} : setting.strict = true →
    Calls setting (.unicodeEscape ('{' :: r)) (.bracedCode r)
  | fourDigits {r : List Char} : (setting.strict = true → r.head? ≠ some '{') →
    Calls setting (.unicodeEscape r) (.fourDigits r)
  | lead {r : List Char} : Calls setting (.fourDigits r) (.hex 4 r)
  | trail {r r' : List Char} {lead : Nat} : setting.strict = true →
    hex? 4 r = some (lead, r') → 0xD800 ≤ lead → lead ≤ 0xDBFF →
      Calls setting (.fourDigits r) (.trailSurrogate r')
  | trailDigits {r : List Char} : Calls setting (.trailSurrogate ('\\' :: 'u' :: r)) (.hex 4 r)
  -- classes without `v`
  | items {r : List Char} : Calls setting (.listed r) (.items ('[' :: r) (Class.negation r).2)
  | item {start text : List Char} : text.head? ≠ some ']' → text ≠ [] →
    Calls setting (.items start text) (.item text)
  | first {text : List Char} : Calls setting (.item text) (.classAtom text)
  | last {c : Char} {text r : List Char} {n : Node} :
    Class.atom setting text = .ok (n, '-' :: c :: r) → c ≠ ']' →
      Calls setting (.item text) (.classAtom (c :: r))
  | atomEscape {r : List Char} : Calls setting (.classAtom ('\\' :: r)) (.classEscape r)
  | classProperty {c : Char} {r : List Char} : setting.strict = true → c = 'p' ∨ c = 'P' →
    Calls setting (.classEscape (c :: r)) (.property (c == 'P') r)
  | classCharacter {r : List Char} : shorthand? setting r = .ok (none, r) →
    Calls setting (.classEscape r) (.characterEscape true r)
  -- classes with `v`
  | body {depth : Nat} {r : List Char} : (Class.negation r).2.head? ≠ some ']' →
    Calls setting (.nested (depth + 1) r) (.rangeOrOperand depth (Class.negation r).2)
  | operations {depth : Nat} {operator : SetOperator} {n : Node} {r r' : List Char} :
    Class.rangeOrOperand (operandAt setting depth) (Class.negation r).2 = .ok (n, r') →
      Class.operator? r' = some operator → Class.isRange n = false →
        Calls setting (.nested (depth + 1) r) (.operations depth operator n r')
  | members {depth : Nat} {n : Node} {r r' : List Char} :
    Class.rangeOrOperand (operandAt setting depth) (Class.negation r).2 = .ok (n, r') →
      Class.operator? r' = none →
        Calls setting (.nested (depth + 1) r) (.members depth ('[' :: r) r')
  | lower {depth : Nat} {r : List Char} :
    Calls setting (.rangeOrOperand depth r) (.operand depth r)
  | upper {depth : Nat} {n : Node} {text r : List Char} :
    operandAt setting depth text = .ok (n, '-' :: r) → r.head? ≠ some '-' →
      Calls setting (.rangeOrOperand depth text) (.operand depth r)
  | inner {depth : Nat} {r : List Char} :
    Calls setting (.operand depth ('[' :: r)) (.nested depth r)
  | strings {depth : Nat} {r : List Char} : Calls setting (.operand depth ('\\' :: 'q' :: '{' :: r))
    (.strings ('\\' :: 'q' :: '{' :: r) r)
  | operandEscape {depth : Nat} {r : List Char} : (∀ r', r ≠ 'q' :: '{' :: r') →
    Calls setting (.operand depth ('\\' :: r)) (.classEscape r)
  | right {depth : Nat} {operator : SetOperator} {left : Node} {text r : List Char} :
    Text.strip? operator.text text = some r →
      Calls setting (.operations depth operator left text) (.operand depth r)
  | member {depth : Nat} {start text : List Char} : text.head? ≠ some ']' → text ≠ [] →
    Class.operator? text = none →
      Calls setting (.members depth start text) (.rangeOrOperand depth text)
  | letters {start text : List Char} : Calls setting (.strings start text) (.letters start text)
  | letterEscape {start r : List Char} :
    Calls setting (.letters start ('\\' :: r)) (.characterEscape true r)

/-! ## Texts after one another -/

/-- One text is the end of another one, a character of it at least left behind. -/
def Follows (text rest : List Char) : Prop := ∃ c tail, text = c :: tail ∧ rest <:+ tail

namespace Follows

variable {text rest : List Char}

theorem suffix (h : Follows text rest) : rest <:+ text := by
  obtain ⟨c, tail, rfl, hrest⟩ := h
  exact hrest.trans (List.suffix_cons c tail)

theorem length_lt (h : Follows text rest) : rest.length < text.length := by
  obtain ⟨c, tail, rfl, hrest⟩ := h
  exact Nat.lt_succ_of_le hrest.length_le

theorem width_lt (h : Follows text rest) : Text.width rest < Text.width text := by
  obtain ⟨c, tail, rfl, front, rfl⟩ := h
  have hsize := c.utf8Size_pos
  rw [Text.width_cons, Text.width_append]
  omega

theorem of_cons {c : Char} (h : c :: rest <:+ text) : Follows text rest := by
  obtain ⟨front, rfl⟩ := h
  cases front with
  | nil => exact ⟨c, rest, rfl, List.suffix_refl _⟩
  | cons d front =>
    exact ⟨d, _, rfl, (List.suffix_cons c rest).trans (List.suffix_append front _)⟩

theorem of_lt (h : rest <:+ text) (hlt : rest.length < text.length) : Follows text rest := by
  cases text with
  | nil => exact absurd hlt (Nat.not_lt_zero _)
  | cons c tail =>
    rcases List.suffix_cons_iff.1 h with rfl | hsuffix
    · exact absurd hlt (Nat.lt_irrefl _)
    · exact ⟨c, tail, rfl, hsuffix⟩

theorem trans_suffix {r : List Char} (h : Follows text rest) (hr : r <:+ rest) :
    Follows text r := by
  obtain ⟨c, tail, rfl, hrest⟩ := h
  exact ⟨c, tail, rfl, hr.trans hrest⟩

theorem of_suffix {r : List Char} (hrest : rest <:+ text) (h : Follows rest r) :
    Follows text r := by
  obtain ⟨c, tail, rfl, hr⟩ := h
  exact (of_cons hrest).trans_suffix hr

end Follows

/-- From `s` on a text was read, and at most one group was opened for each character of it. -/
structure Progress.Forward (s s' : Progress) : Prop where
  suffix : s'.rest <:+ s.rest
  groups : s'.groups + s'.rest.length ≤ s.groups + s.rest.length

namespace Progress.Forward

variable {s s1 s' : Progress}

theorem refl (s : Progress) : Forward s s := ⟨List.suffix_refl _, Nat.le_refl _⟩

theorem trans (h : Forward s s1) (h' : Forward s1 s') : Forward s s' :=
  ⟨h'.suffix.trans h.suffix, Nat.le_trans h'.groups h.groups⟩

theorem next {rest : List Char} (h : rest <:+ s.rest) : Forward s (s.next rest) :=
  ⟨h, Nat.add_le_add_left h.length_le _⟩

theorem enter {o : Opening} {r : List Char} (hopens : s.rest = o.text ++ r) :
    Forward s (o.enter s r) := by
  obtain ⟨tail, htext⟩ := o.exists_text_cons
  have hlength := congrArg List.length hopens
  rw [htext, List.cons_append, List.length_cons, List.length_append] at hlength
  refine ⟨?_, ?_⟩
  · rw [Opening.rest_enter, hopens]
    exact List.suffix_append _ _
  · have hgroups : (o.enter s r).groups ≤ s.groups + 1 := by
      cases o <;> simp [Opening.enter, Progress.next, Progress.openGroup]
    rw [Opening.rest_enter]
    omega

end Progress.Forward

theorem kept_forward (setting : Setting) : Kept setting fun s _ s' => s.Forward s' where
  refl := Progress.Forward.refl
  trans := Progress.Forward.trans
  leaf h := .next h.suffix
  enclosed hopens _ hinside hcloses :=
    ((Progress.Forward.enter hopens).trans hinside).trans
      (.next (hcloses ▸ List.suffix_cons _ _))
  repeated helement hquantifier := helement.trans (.next (suffix_quantifier? hquantifier))
  alternative := id
  bar hrest := .next (hrest ▸ List.suffix_cons _ _)

/-! ## Where tasks stop -/

theorem forward_termAt {depth : Nat} {s s' : Progress} {n : Node}
    (h : termAt setting depth s = .ok (n, s')) : s.Forward s' :=
  (kept_forward setting).term (kept_forward setting).disjunction h

theorem forward_row {depth : Nat} {s s' : Progress} {ns : List Node}
    (h : Row (termAt setting depth) s ns s') : s.Forward s' :=
  (kept_forward setting).row forward_termAt h

theorem forward_alternative {depth : Nat} {s s' : Progress} {n : Node}
    (h : alternative (termAt setting depth) s = .ok (n, s')) : s.Forward s' := by
  obtain ⟨ns, hrow, -⟩ := (alternative_iff termAt_tail).1 h
  exact forward_row hrow

theorem follows_operandAt {depth : Nat} {text rest : List Char} {n : Node}
    (h : operandAt setting depth text = .ok (n, rest)) : Follows text rest :=
  Class.shortens_operand depth h

theorem follows_rangeOrOperand {depth : Nat} {text rest : List Char} {n : Node}
    (h : Class.rangeOrOperand (operandAt setting depth) text = .ok (n, rest)) :
    Follows text rest :=
  (Class.rangeOrOperand_iff.1 h).tail (Class.shortens_operand depth)

theorem follows_item {text rest : List Char} {ns : List Node}
    (h : Class.item setting text = .ok (ns, rest)) : Follows text rest :=
  (Class.item_iff.1 h).tail

theorem follows_atom {text rest : List Char} {n : Node}
    (h : Class.atom setting text = .ok (n, rest)) : Follows text rest :=
  (Class.atom_iff.1 h).tail

/-- A task stops at an end of its text. -/
theorem Task.suffix_outcome {t : Task} {rest : List Char} (h : t.outcome setting = .ok rest) :
    rest <:+ t.text := by
  have hoption {r rest : List Char} {α : Type} {read : Option (α × List Char)}
      (hread : ∀ n after, read = some (n, after) → after <:+ r)
      (h : (Except.ok (read.elim r Prod.snd) : Except Fault (List Char)) = .ok rest) :
      rest <:+ r := by
    cases h
    cases hfound : read with
    | none => exact List.suffix_refl r
    | some found => exact hread _ _ hfound
  cases t with
  | disjunction depth s =>
    obtain ⟨read, hread, rfl⟩ := map_eq_ok.1 h
    exact ((kept_forward setting).disjunction hread).suffix
  | alternatives depth s =>
    obtain ⟨read, hread, rfl⟩ := map_eq_ok.1 h
    have hbars := (alternatives_iff_bars termAt_tail (Nat.le_refl _)).1 hread
    exact ((kept_forward setting).bars forward_termAt hbars).suffix
  | elements depth s =>
    obtain ⟨read, hread, rfl⟩ := map_eq_ok.1 h
    exact (forward_row ((elements_iff termAt_tail (Nat.le_refl _)).1 hread)).suffix
  | term depth s =>
    obtain ⟨read, hread, rfl⟩ := map_eq_ok.1 h
    exact (forward_termAt hread).suffix
  | escape r =>
    obtain ⟨read, hread, rfl⟩ := map_eq_ok.1 h
    exact suffix_escaped hread
  | quantifier r =>
    obtain ⟨read, hread, rfl⟩ := map_eq_ok.1 h
    exact suffix_quantifier? hread
  | braces r =>
    refine hoption (fun counts after hread => ?_) h
    obtain ⟨c, tail, rfl, hsuffix⟩ := (braces?_eq_some.1 hread).2.tail
    exact hsuffix.trans (List.suffix_cons _ _)
  | decimal r => exact hoption (fun _ _ => suffix_decimal?) h
  | groupName r =>
    obtain ⟨⟨name, rest⟩, hread, rfl⟩ := map_eq_ok.1 h
    exact ⟨name ++ ['>'], by rw [List.append_assoc]; exact (groupName_source hread).symm⟩
  | property negate r =>
    obtain ⟨read, hread, rfl⟩ := map_eq_ok.1 h
    obtain ⟨tail, htail, hsuffix⟩ := suffix_property hread
    exact htail ▸ hsuffix.trans (List.suffix_cons _ _)
  | characterEscape inClass r =>
    obtain ⟨read, hread, rfl⟩ := map_eq_ok.1 h
    exact suffix_characterEscape hread
  | octal r =>
    cases h
    cases r with
    | nil => exact List.suffix_refl _
    | cons c r => exact (suffix_octalOrSelf c r).trans (List.suffix_cons _ _)
  | hex digits r => exact hoption (fun _ _ => suffix_hex?) h
  | unicodeEscape r =>
    obtain ⟨read, hread, rfl⟩ := map_eq_ok.1 h
    exact (unicodeEscape_iff.1 hread).suffix
  | bracedCode r => exact hoption (fun _ _ => suffix_bracedCode?) h
  | fourDigits r =>
    obtain ⟨read, hread, rfl⟩ := map_eq_ok.1 h
    exact (fourDigits_iff.1 hread).1.suffix
  | trailSurrogate r => exact hoption (fun _ _ => suffix_trailSurrogate?) h
  | listed r =>
    obtain ⟨read, hread, rfl⟩ := map_eq_ok.1 h
    exact Class.suffix_listed hread
  | items start r =>
    obtain ⟨read, hread, rfl⟩ := map_eq_ok.1 h
    exact (List.suffix_cons _ _).trans (Class.Items.of_ok hread).suffix
  | item r =>
    obtain ⟨read, hread, rfl⟩ := map_eq_ok.1 h
    exact (follows_item hread).suffix
  | classAtom r =>
    obtain ⟨read, hread, rfl⟩ := map_eq_ok.1 h
    exact (follows_atom hread).suffix
  | classEscape r =>
    obtain ⟨read, hread, rfl⟩ := map_eq_ok.1 h
    exact (Class.escaped_iff.1 hread).suffix
  | nested depth r =>
    obtain ⟨read, hread, rfl⟩ := map_eq_ok.1 h
    exact Class.suffix_nested hread
  | rangeOrOperand depth r =>
    obtain ⟨read, hread, rfl⟩ := map_eq_ok.1 h
    exact (follows_rangeOrOperand hread).suffix
  | operand depth r =>
    obtain ⟨read, hread, rfl⟩ := map_eq_ok.1 h
    exact (follows_operandAt hread).suffix
  | operations depth operator left r =>
    obtain ⟨read, hread, rfl⟩ := map_eq_ok.1 h
    exact (Class.Operations.of_ok hread).suffix (Class.shortens_operand depth)
  | members depth start r =>
    obtain ⟨read, hread, rfl⟩ := map_eq_ok.1 h
    have hclose := (Class.Elements.of_ok hread).suffix (Class.shortens_operand depth)
    exact (List.suffix_cons _ _).trans hclose
  | strings start r =>
    obtain ⟨read, hread, rfl⟩ := map_eq_ok.1 h
    exact (List.suffix_cons _ _).trans (Class.Strings.of_ok hread).suffix
  | letters start r =>
    obtain ⟨read, hread, rfl⟩ := map_eq_ok.1 h
    exact (Class.Letters.of_ok hread).stop.1

/-! ## Where tasks are called -/

/-- A loop that goes on has left a character behind. -/
theorem Again.follows {t u : Task} (h : Again setting t u) : Follows t.text u.text := by
  cases h with
  | bar hread hrest => exact .of_cons (hrest ▸ (forward_alternative hread).suffix)
  | element _ hread => exact termAt_tail hread
  | item _ hread => exact follows_item hread
  | operation hstrip hread =>
    exact .of_suffix ⟨_, (Class.strip?_iff.1 hstrip).symm⟩ (follows_operandAt hread)
  | member _ _ hread => exact follows_rangeOrOperand hread
  | string hread => exact .of_cons (Class.Letters.of_ok hread).stop.1
  | letter _ => exact ⟨_, _, rfl, List.suffix_refl _⟩
  | escapedLetter hread => exact ⟨_, _, rfl, suffix_characterEscape hread⟩

theorem follows_unquantified {depth : Nat} {s s' : Progress} {n : Node} {repeats : Bool}
    (h : unquantified setting (disjunction setting depth) (Class.nested setting depth) s =
      .ok ((n, repeats), s')) : Follows s.rest s'.rest :=
  unquantified_tail suffix_disjunction h

/-- A call is made at an end of the text, and it goes to a reader of a lower rank or leaves a
character behind. -/
theorem Calls.follows {t u : Task} (h : Calls setting t u) :
    (u.text <:+ t.text ∧ u.rank < t.rank) ∨ Follows t.text u.text := by
  cases h with
  | again h => exact .inr h.follows
  | opened hopens _ =>
    rename_i o r _
    obtain ⟨tail, htext⟩ := o.exists_text_cons
    refine .inr ⟨'(', tail ++ r, ?_, ?_⟩
    · rw [Task.text, hopens, htext, List.cons_append]
    · rw [Task.text, Opening.rest_enter]
      exact List.suffix_append _ _
  | name hrest _ _ => exact .inr ⟨_, _, hrest, List.suffix_append ['?', '<'] _⟩
  | listed hrest _ => exact .inr ⟨_, _, hrest, List.suffix_refl _⟩
  | nested hrest _ => exact .inr ⟨_, _, hrest, List.suffix_refl _⟩
  | escape hrest _ _ => exact .inr ⟨_, _, hrest, List.suffix_refl _⟩
  | quantifier hread => exact .inr (follows_unquantified hread)
  | trailingBrace hread _ => exact .inr (follows_unquantified hread)
  | least => exact .inr ⟨_, _, rfl, List.suffix_refl _⟩
  | most hcount _ =>
    exact .inr ⟨_, _, rfl, (List.suffix_cons _ _).trans (suffix_count? hcount)⟩
  | property _ _ => exact .inr ⟨_, _, rfl, List.suffix_refl _⟩
  | reference _ => exact .inr ⟨_, _, rfl, List.suffix_cons _ _⟩
  | twoDigits => exact .inr ⟨_, _, rfl, List.suffix_refl _⟩
  | unicodeEscape => exact .inr ⟨_, _, rfl, List.suffix_refl _⟩
  | bracedCode _ => exact .inr ⟨_, _, rfl, List.suffix_refl _⟩
  | trail _ hlead _ _ =>
    refine .inr (.of_lt (suffix_hex? hlead) ?_)
    rw [Task.text, Task.text, le_of_hex? hlead]
    exact Nat.lt_add_of_pos_left (by decide)
  | trailDigits => exact .inr ⟨_, _, rfl, List.suffix_cons _ _⟩
  | items => exact .inl ⟨Class.suffix_negation _, by simp [Task.rank]⟩
  | last hread _ => exact .inr (.of_cons (follows_atom hread).suffix)
  | atomEscape => exact .inr ⟨_, _, rfl, List.suffix_refl _⟩
  | classProperty _ _ => exact .inr ⟨_, _, rfl, List.suffix_refl _⟩
  | body _ => exact .inl ⟨Class.suffix_negation _, by simp [Task.rank]⟩
  | operations hread _ _ =>
    have hsuffix := (follows_rangeOrOperand hread).suffix.trans (Class.suffix_negation _)
    exact .inl ⟨hsuffix, by simp [Task.rank]⟩
  | members hread _ =>
    have hsuffix := (follows_rangeOrOperand hread).suffix.trans (Class.suffix_negation _)
    exact .inl ⟨hsuffix, by simp [Task.rank]⟩
  | upper hread _ => exact .inr (.of_cons (follows_operandAt hread).suffix)
  | inner => exact .inr ⟨_, _, rfl, List.suffix_refl _⟩
  | strings => exact .inr ⟨_, _, rfl, List.suffix_append ['q', '\x7b'] _⟩
  | operandEscape _ => exact .inr ⟨_, _, rfl, List.suffix_refl _⟩
  | right hstrip => exact .inl ⟨⟨_, (Class.strip?_iff.1 hstrip).symm⟩, by simp [Task.rank]⟩
  | letterEscape => exact .inr ⟨_, _, rfl, List.suffix_refl _⟩
  | _ => exact .inl ⟨List.suffix_refl _, by simp [Task.rank]⟩

theorem Calls.suffix {t u : Task} (h : Calls setting t u) : u.text <:+ t.text := by
  rcases h.follows with ⟨hsuffix, -⟩ | hfollows
  · exact hsuffix
  · exact hfollows.suffix

theorem Calls.size_lt {t u : Task} (h : Calls setting t u) : u.size < t.size := by
  have hrank := u.rank_lt
  unfold Task.size
  rcases h.follows with ⟨hsuffix, hlt⟩ | hfollows
  · have hlength := hsuffix.length_le
    omega
  · have hlength := hfollows.length_lt
    omega

/-- No chain of calls goes on forever. -/
theorem wellFounded_calls (setting : Setting) : WellFounded fun u t => Calls setting t u :=
  Subrelation.wf Calls.size_lt (measure Task.size).wf

/-- Where more groups are open, there is less text left. -/
theorem Calls.groups_le {t u : Task} (h : Calls setting t u) :
    u.groups + u.text.length ≤ t.groups + t.text.length := by
  have hlength := Nat.add_le_add (Nat.zero_le t.groups) h.suffix.length_le
  cases h with
  | again h =>
    cases h with
    | bar hread hrest =>
      exact ((forward_alternative hread).trans (.next (hrest ▸ List.suffix_cons _ _))).groups
    | element _ hread => exact (forward_termAt hread).groups
    | _ => exact hlength
  | alternatives => exact Nat.le_refl _
  | elements => exact Nat.le_refl _
  | term _ => exact Nat.le_refl _
  | opened hopens _ => exact (Progress.Forward.enter hopens).groups
  | _ => exact hlength

end RegexAudit.Pattern
