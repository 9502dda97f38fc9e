import RegexAudit.Proofs.ParsedClasses

/-!
# Terms

What the reader of terms can do, said once and in both directions. A term is read in two steps:
without its quantifier first, then the quantifier after it, or the test that there is none.

    term … s = unquantified … s >>= finish …                                      (term_eq_finish)

Without its quantifier a term is a leaf, or alternatives between an opening and a closing parenthesis.

    unquantified … s = .ok ((n, repeats), s')  ↔  a leaf, or an opening and alternatives  (unquantified_iff)

A term takes a character at least. It takes no more than a backslash in one case: a backslash before
a `c` that is no control letter is a character of its own.
-/

namespace RegexAudit

theorem Node.kind_eq_alternative {n : Node} :
    n.kind = .alternative ↔ ∃ ns, n = alternative ns := by
  unfold kind
  split <;> simp

theorem Node.kind_eq_backreference {n : Node} :
    n.kind = .backreference ↔ ∃ ref, n = backreference ref := by
  unfold kind
  split <;> simp

namespace Pattern

open Node

variable {setting : Setting} {n : Node}

/-! ## Escapes -/

/-- The backslash that stands for itself. -/
def backslash : Node := character ⟨'\\'.toNat, ['\\']⟩

/-- An escape takes a character at least, unless it is a backslash alone before a `c`. -/
theorem escaped_tail {r rest : List Char} (h : escaped setting r = .ok (n, rest)) :
    ∃ c tail, r = c :: tail ∧
      (rest <:+ tail ∨ (c = 'c' ∧ n = backslash ∧ rest = r)) := by
  cases escaped_iff.1 h with
  | shorthand hset =>
    rename_i set
    have htext := Lexeme.shorthand?_source hset
    cases set <;> cases htext <;> exact ⟨_, _, rfl, .inl (List.suffix_append _ _)⟩
  | name _ _ =>
    exact ⟨_, _, rfl, .inl (((List.suffix_cons _ _).trans (List.suffix_append _ _)).trans
      (List.suffix_cons _ _))⟩
  | index h1 h9 hdecimal _ =>
    obtain ⟨-, -, rfl⟩ := Lexeme.decimal?_eq_some.1 hdecimal
    rw [List.dropWhile_cons_of_pos (Lexeme.isDigit_of_le h1 h9)]
    exact ⟨_, _, rfl, .inl (List.dropWhile_suffix _)⟩
  | octal _ _ _ _ _ hoctal =>
    rename_i c tail _ _ _ _ _ _ _ _
    have hsuffix := Lexeme.suffix_octalOrSelf c tail
    rw [hoctal] at hsuffix
    exact ⟨c, tail, rfl, .inl hsuffix⟩
  | character _ _ _ hvalue =>
    obtain ⟨c, tail, htext, hsuffix | ⟨rfl, rfl, rfl, -⟩⟩ := Lexeme.characterEscape_tail hvalue
    · exact ⟨c, tail, htext, .inl hsuffix⟩
    · exact ⟨_, tail, htext, .inr ⟨rfl, by simp [textBefore, backslash], rfl⟩⟩

theorem suffix_escaped {r rest : List Char} (h : escaped setting r = .ok (n, rest)) :
    rest <:+ r := by
  obtain ⟨c, tail, rfl, hsuffix | ⟨-, -, rfl⟩⟩ := escaped_tail h
  · exact hsuffix.trans (List.suffix_cons _ _)
  · exact List.suffix_refl _

/-! ## Two steps -/

/-- A lookaround without its quantifier, and whether a quantifier may follow. -/
def unquantifiedLook (setting : Setting) (inner : AlternativesReader) (direction : Direction)
    (negate : Bool) (s : Progress) : Except Fault ((Node × Bool) × Progress) :=
  (enclosed inner (.look direction negate) s).map fun (node, s) =>
    ((node, direction = .forward && !setting.strict), s)

/-- A term without its quantifier, and whether a quantifier may follow. -/
def unquantified (setting : Setting) (inner : AlternativesReader)
    (innerClass : List Char → Except Fault (Node × List Char)) (s : Progress) :
    Except Fault ((Node × Bool) × Progress) :=
  match s.rest with
  | '^' :: r => .ok ((.edge .lineStart, false), s.next r)
  | '$' :: r => .ok ((.edge .lineEnd, false), s.next r)
  | '\\' :: 'b' :: r => .ok ((.edge (.word false), false), s.next r)
  | '\\' :: 'B' :: r => .ok ((.edge (.word true), false), s.next r)
  | '(' :: '?' :: '=' :: r => unquantifiedLook setting inner .forward false (s.next r)
  | '(' :: '?' :: '!' :: r => unquantifiedLook setting inner .forward true (s.next r)
  | '(' :: '?' :: '<' :: '=' :: r => unquantifiedLook setting inner .backward false (s.next r)
  | '(' :: '?' :: '<' :: '!' :: r => unquantifiedLook setting inner .backward true (s.next r)
  | r =>
    if r.head? == some '{' && setting.strict then .error ⟨.loneBracket, r⟩
    else if Lexeme.atQuantifier r then .error ⟨.nothingToRepeat, r⟩
    else (atom setting inner innerClass s).map fun (node, s) => ((node, true), s)

/-- Whether an assertion is written here. -/
def opensAssertion : List Char → Bool
  | '^' :: _ | '$' :: _ | '\\' :: 'b' :: _ | '\\' :: 'B' :: _ => true
  | '(' :: '?' :: '=' :: _ | '(' :: '?' :: '!' :: _ => true
  | '(' :: '?' :: '<' :: '=' :: _ | '(' :: '?' :: '<' :: '!' :: _ => true
  | _ => false

theorem opensAssertion_backslash {r : List Char} (h : opensAssertion ('\\' :: r) = true) :
    ∃ tail, r = 'b' :: tail ∨ r = 'B' :: tail := by
  unfold opensAssertion at h
  split at h <;> simp_all

theorem unquantified_of_atom (setting : Setting) (inner : AlternativesReader)
    (innerClass : List Char → Except Fault (Node × List Char)) {s : Progress}
    (h : opensAssertion s.rest = false) : unquantified setting inner innerClass s =
      if s.rest.head? == some '{' && setting.strict then .error ⟨.loneBracket, s.rest⟩
      else if Lexeme.atQuantifier s.rest then .error ⟨.nothingToRepeat, s.rest⟩
      else (atom setting inner innerClass s).map fun (node, s) => ((node, true), s) := by
  unfold unquantified
  split <;> first | rfl | (rename_i hrest; rw [hrest] at h; cases h)

/-- What may come after a term without its quantifier. -/
def finish (setting : Setting) (node : Node) (repeats : Bool) : NodeReader :=
  if repeats then quantified setting node else unrepeatable node

theorem lookaround_eq_finish (setting : Setting) (inner : AlternativesReader)
    (direction : Direction) (negate : Bool) (s : Progress) :
    lookaround setting inner direction negate s =
      unquantifiedLook setting inner direction negate s >>=
        fun ((node, repeats), s) => finish setting node repeats s := by
  rw [lookaround, unquantifiedLook]
  cases enclosed inner (.look direction negate) s with
  | error fault => rfl
  | ok read =>
    show (if _ then _ else _) = finish _ _ _ _
    unfold finish
    split <;> rfl

/-- A term is read without its quantifier first. -/
theorem term_eq_finish (setting : Setting) (inner : AlternativesReader)
    (innerClass : List Char → Except Fault (Node × List Char)) (s : Progress) :
    term setting inner innerClass s = unquantified setting inner innerClass s >>=
      fun ((node, repeats), s) => finish setting node repeats s := by
  unfold term
  split
  · rename_i hrest
    simp only [unquantified, hrest]
    rfl
  · rename_i hrest
    simp only [unquantified, hrest]
    rfl
  · rename_i hrest
    simp only [unquantified, hrest]
    rfl
  · rename_i hrest
    simp only [unquantified, hrest]
    rfl
  · rename_i hrest
    simp only [unquantified, hrest, lookaround_eq_finish]
  · rename_i hrest
    simp only [unquantified, hrest, lookaround_eq_finish]
  · rename_i hrest
    simp only [unquantified, hrest, lookaround_eq_finish]
  · rename_i hrest
    simp only [unquantified, hrest, lookaround_eq_finish]
  · have hother : opensAssertion s.rest = false := by
      unfold opensAssertion
      split <;> first | rfl | (exfalso; simp_all)
    rw [unquantified_of_atom _ _ _ hother]
    split
    · rfl
    · split
      · rfl
      · cases atom setting inner innerClass s <;> rfl

variable {inner : AlternativesReader} {innerClass : List Char → Except Fault (Node × List Char)}
  {s s' : Progress}

/-! ## Leaves -/

/-- A character stands for itself outside of classes. -/
structure IsPlain (setting : Setting) (c : Char) (r : List Char) : Prop where
  unmarked : c ∉ ['^', '$', '\\', '.', '(', '[']
  unrepeated : Lexeme.atQuantifier (c :: r) = false
  bracket : setting.strict = true → c ∉ ['{', ']', '}']

/-- A term that holds no alternatives, and whether a quantifier may follow it. -/
inductive Leaf (setting : Setting) (innerClass : List Char → Except Fault (Node × List Char)) :
    (text : List Char) → Node → (repeats : Bool) → (rest : List Char) → Prop
  | edge (e : Edge) (r : List Char) : Leaf setting innerClass (e.text ++ r) (.edge e) false r
  | any (r : List Char) : Leaf setting innerClass ('.' :: r) (.shorthand .any) true r
  | charClass {r rest : List Char} {n : Node} :
    (if setting.flags.unicodeSets then innerClass r else Class.listed setting r) = .ok (n, rest) →
      Leaf setting innerClass ('[' :: r) n true rest
  | escape {r rest : List Char} {n : Node} : r.head? ≠ some 'b' → r.head? ≠ some 'B' →
    escaped setting r = .ok (n, rest) → Leaf setting innerClass ('\\' :: r) n true rest
  | plain {c : Char} {r : List Char} : IsPlain setting c r →
    Leaf setting innerClass (c :: r) (.character ⟨c.toNat, [c]⟩) true r

/-! ## Openings -/

/-- What opens a group or a lookaround. -/
inductive Opening where
  | plain
  | capture (name : Option (List Char))
  | look (direction : Direction) (negate : Bool)

namespace Opening

def text : Opening → List Char
  | plain => Frame.plain.opening
  | capture name => (Frame.capture 0 name).opening
  | look direction negate => lookOpening direction negate

/-- What is opened, if it is opened after `groups` groups. -/
def node (groups : Nat) : Opening → List Node → Node
  | plain => choice .plain
  | capture name => choice (.capture (groups + 1) name)
  | look direction negate => .look direction negate

def enter (s : Progress) (rest : List Char) : Opening → Progress
  | capture name => s.openGroup name rest
  | _ => s.next rest

/-- Whether a quantifier may follow. -/
def repeats (setting : Setting) : Opening → Bool
  | look direction _ => direction = .forward && !setting.strict
  | _ => true

/-- Whether this is read where `rest` follows it: a name has to be new, and a group without a name
is none if a question mark follows. -/
def Allowed (s : Progress) (rest : List Char) : Opening → Prop
  | capture none => rest.head? ≠ some '?'
  | capture (some name) => Lexeme.IsName name ∧ name ∉ s.names
  | _ => True

@[simp] theorem rest_enter (o : Opening) (s : Progress) (rest : List Char) :
    (o.enter s rest).rest = rest := by
  cases o <;> rfl

theorem children_node (o : Opening) (groups : Nat) (ns : List Node) :
    (o.node groups ns).children = ns := by
  cases o <;> rfl

theorem text_node (o : Opening) (groups : Nat) (ns : List Node) :
    (o.node groups ns).text = o.text ++ textAll ['|'] ns ++ [')'] := by
  cases o with
  | plain => simp only [node, Node.text, text, Frame.closing]
  | capture name => cases name <;> simp only [node, Node.text, text, Frame.closing, Frame.opening]
  | look direction negate => simp only [node, Node.text, text]

theorem exists_text_cons (o : Opening) : ∃ tail, o.text = '(' :: tail := by
  cases o with
  | capture name => cases name <;> exact ⟨_, rfl⟩
  | look direction negate => cases direction <;> cases negate <;> exact ⟨_, rfl⟩
  | plain => exact ⟨_, rfl⟩

end Opening

/-- Alternatives between an opening and a closing parenthesis. -/
structure Encloses (inner : AlternativesReader) (s s' : Progress) (o : Opening) (r : List Char)
    (ns : List Node) (s1 : Progress) : Prop where
  opens : s.rest = o.text ++ r
  allowed : o.Allowed s r
  inside : inner (o.enter s r) = .ok (ns, s1)
  closes : s1.rest = ')' :: s'.rest
  progress : s' = s1.next s'.rest

theorem enclosed_iff {make : List Node → Node} : enclosed inner make s = .ok (n, s') ↔
    ∃ ns s1, inner s = .ok (ns, s1) ∧ s1.rest = ')' :: s'.rest ∧ s' = s1.next s'.rest ∧
      n = make ns := by
  rw [enclosed, bind_eq_ok]
  constructor
  · rintro ⟨⟨ns, s1⟩, hns, h⟩
    simp only at h
    split at h
    · rename_i hrest
      cases h
      exact ⟨ns, s1, hns, hrest, rfl, rfl⟩
    · cases h
  · rintro ⟨ns, s1, hns, hrest, hs', rfl⟩
    refine ⟨_, hns, ?_⟩
    simp only [hrest]
    rw [← hs']

/-- After an opening the alternatives are read. -/
theorem unquantified_open {o : Opening} {r : List Char} (hopens : s.rest = o.text ++ r)
    (hallowed : o.Allowed s r) : unquantified setting inner innerClass s =
      (enclosed inner (o.node s.groups) (o.enter s r)).map fun (node, s) =>
        ((node, o.repeats setting), s) := by
  cases o with
  | plain =>
    simp [unquantified, hopens, Opening.text, Frame.opening, Lexeme.atQuantifier, Lexeme.braces?,
      atom, group, Progress.next, Opening.node, Opening.enter, Opening.repeats]
  | look direction negate =>
    cases direction <;> cases negate <;>
      simp only [unquantified, hopens, Opening.text, lookOpening, List.cons_append,
        List.nil_append] <;> rfl
  | capture name =>
    cases name with
    | none =>
      have hgroup : group inner ('(' :: r) (s.next r) =
          enclosed inner (choice (.capture (s.groups + 1) none)) (s.openGroup none r) := by
        have hmark : r.head? ≠ some '?' := hallowed
        unfold group
        split
        · rename_i hrest
          exact absurd (congrArg List.head? hrest) hmark
        · rename_i hrest
          exact absurd (congrArg List.head? hrest) hmark
        · rename_i hrest
          exact absurd (congrArg List.head? hrest) hmark
        · rfl
      have hother : opensAssertion s.rest = false := by
        rw [hopens]
        have hmark : r.head? ≠ some '?' := hallowed
        unfold opensAssertion
        split <;> simp_all [Opening.text, Frame.opening]
      rw [unquantified_of_atom _ _ _ hother]
      simp [hopens, Opening.text, Frame.opening, Lexeme.atQuantifier, Lexeme.braces?, atom, hgroup,
        Opening.node, Opening.enter, Opening.repeats]
    | some name =>
      obtain ⟨hname, hnew⟩ : Lexeme.IsName name ∧ name ∉ s.names := hallowed
      have hrest : s.rest = '(' :: '?' :: '<' :: (name ++ '>' :: r) := by
        simp [hopens, Opening.text, Frame.opening]
      have hother : opensAssertion s.rest = false := by
        obtain ⟨c, tail, rfl, -, -⟩ := id hname
        have hmark := hname.ne_mark
        rw [hrest]
        unfold opensAssertion
        split <;> simp_all
      have hread : Lexeme.groupName (name ++ '>' :: r) = .ok (name, r) :=
        Lexeme.groupName_iff.2 ⟨hname, rfl⟩
      rw [unquantified_of_atom _ _ _ hother]
      simp [hrest, Lexeme.atQuantifier, Lexeme.braces?, atom, group, Progress.next, hread, hnew,
        Opening.node, Opening.enter, Opening.repeats, bind, Except.bind]
      rfl

/-- An assertion is an edge or opens a lookaround. -/
theorem opensAssertion_cases {text : List Char} (h : opensAssertion text = true) :
    (∃ (e : Edge) (r : List Char), text = e.text ++ r) ∨
      ∃ direction negate r, text = (Opening.look direction negate).text ++ r := by
  unfold opensAssertion at h
  split at h
  · exact .inl ⟨.lineStart, _, rfl⟩
  · exact .inl ⟨.lineEnd, _, rfl⟩
  · exact .inl ⟨.word false, _, rfl⟩
  · exact .inl ⟨.word true, _, rfl⟩
  · exact .inr ⟨.forward, false, _, rfl⟩
  · exact .inr ⟨.forward, true, _, rfl⟩
  · exact .inr ⟨.backward, false, _, rfl⟩
  · exact .inr ⟨.backward, true, _, rfl⟩
  · cases h

/-! ## Terms without their quantifiers -/

theorem unquantified_leaf {repeats : Bool} {rest : List Char}
    (h : Leaf setting innerClass s.rest n repeats rest) :
    unquantified setting inner innerClass s = .ok ((n, repeats), s.next rest) := by
  generalize htext : s.rest = text at h
  cases h with
  | edge e r =>
    cases e with
    | word negate => cases negate <;> simp [unquantified, htext, Edge.text]
    | lineStart => simp [unquantified, htext, Edge.text]
    | lineEnd => simp [unquantified, htext, Edge.text]
  | any r => simp [unquantified, htext, Lexeme.atQuantifier, Lexeme.braces?, atom, Except.map]
  | charClass hclass =>
    have hatom : atom setting inner innerClass s = .ok (n, s.next rest) := by
      simp only [atom, htext]
      split at hclass
      · rename_i hsets
        rw [if_pos hsets, hclass]
        rfl
      · rename_i hsets
        rw [if_neg hsets, hclass]
        rfl
    rw [unquantified_of_atom _ _ _ (by rw [htext]; rfl), htext, hatom]
    rfl
  | escape hb hB hread =>
    rename_i r
    have hother : opensAssertion s.rest = false := by
      rw [htext]
      cases hopens : opensAssertion ('\\' :: r) with
      | false => rfl
      | true =>
        obtain ⟨tail, rfl | rfl⟩ := opensAssertion_backslash hopens
        · exact absurd rfl hb
        · exact absurd rfl hB
    rw [unquantified_of_atom _ _ _ hother]
    simp only [htext, Lexeme.atQuantifier, Lexeme.braces?, atom, hread]
    rfl
  | plain hplain =>
    rename_i c
    have hother : opensAssertion s.rest = false := by
      rw [htext]
      have hmark := hplain.unmarked
      unfold opensAssertion
      split <;> simp_all
    have hstrict : (s.rest.head? == some '{' && setting.strict) = false := by
      rw [htext]
      have hbracket := hplain.bracket
      cases hs : setting.strict <;> simp_all
    have hatom : atom setting inner innerClass s = .ok (.character ⟨c.toNat, [c]⟩, s.next rest) := by
      have hbracket := hplain.bracket
      unfold atom
      split <;> rename_i heq <;> rw [htext] at heq <;> cases heq
      · exact absurd (by decide) hplain.unmarked
      · exact absurd (by decide) hplain.unmarked
      · exact absurd (by decide) hplain.unmarked
      · exact absurd (by decide) hplain.unmarked
      · rw [if_neg (by simp_all)]
    rw [unquantified_of_atom _ _ _ hother, hstrict, htext, hplain.unrepeated, hatom]
    rfl

/-- What is read as a group starts with an opening. -/
theorem group_cases {start r : List Char} (h : group inner start (s.next r) = .ok (n, s')) :
    ∃ (o : Opening) (rest : List Char), '(' :: r = o.text ++ rest ∧ o.Allowed s rest := by
  unfold group at h
  split at h
  · rename_i hrest
    exact ⟨.plain, _, congrArg _ hrest, trivial⟩
  · rename_i r1 hrest
    obtain ⟨⟨name, r2⟩, hname, hgroup⟩ := bind_eq_ok.1 h
    obtain ⟨hisName, rfl⟩ := Lexeme.groupName_iff.1 hname
    simp only at hgroup
    split at hgroup
    · cases hgroup
    · rename_i hnew
      have hnew : name ∉ s.names := by simpa [Progress.next] using hnew
      refine ⟨.capture (some name), r2, ?_, hisName, hnew⟩
      rw [show r = _ from hrest]
      simp [Opening.text, Frame.opening]
  · cases h
  · rename_i hmark
    refine ⟨.capture none, r, rfl, ?_⟩
    intro hhead
    obtain ⟨tail, rfl⟩ := List.head?_eq_some_iff.1 hhead
    exact hmark _ rfl

/-- What a quantifier may follow, lookaheads aside, is a leaf or starts with an opening. -/
theorem atom_cases (hother : opensAssertion s.rest = false)
    (hlone : ¬ (s.rest.head? == some '{' && setting.strict) = true)
    (hrepeat : Lexeme.atQuantifier s.rest = false)
    (h : atom setting inner innerClass s = .ok (n, s')) :
    (∃ rest, Leaf setting innerClass s.rest n true rest ∧ s' = s.next rest) ∨
      ∃ o r, s.rest = o.text ++ r ∧ Opening.Allowed s r o := by
  unfold atom at h
  split at h
  · cases h
  · rename_i hrest
    cases h
    exact .inl ⟨_, hrest ▸ .any _, rfl⟩
  · rename_i r hrest
    obtain ⟨o, rest, hopens, hallowed⟩ := group_cases h
    exact .inr ⟨o, rest, hrest.trans hopens, hallowed⟩
  · rename_i r hrest
    have hclass : ∃ rest, (if setting.flags.unicodeSets then innerClass r
        else Class.listed setting r) = .ok (n, rest) ∧ s' = s.next rest := by
      simp only at h
      split at h
      · rename_i hsets
        obtain ⟨⟨m, rest⟩, hclass, h⟩ := bind_eq_ok.1 h
        cases h
        exact ⟨rest, by rw [if_pos hsets, hclass], rfl⟩
      · rename_i hsets
        obtain ⟨⟨m, rest⟩, hclass, h⟩ := bind_eq_ok.1 h
        cases h
        exact ⟨rest, by rw [if_neg hsets, hclass], rfl⟩
    obtain ⟨rest, hclass, rfl⟩ := hclass
    exact .inl ⟨_, hrest ▸ .charClass hclass, rfl⟩
  · rename_i r hrest
    obtain ⟨⟨m, rest⟩, hescaped, h⟩ := bind_eq_ok.1 h
    cases h
    rw [hrest] at hother ⊢
    refine .inl ⟨rest, .escape ?_ ?_ hescaped, rfl⟩
    · intro hhead
      obtain ⟨tail, rfl⟩ := List.head?_eq_some_iff.1 hhead
      cases hother
    · intro hhead
      obtain ⟨tail, rfl⟩ := List.head?_eq_some_iff.1 hhead
      cases hother
  · rename_i c r hdot hgroup hclass hescape hrest
    split at h
    · cases h
    · rename_i hbracket
      cases h
      rw [hrest] at hother hlone hrepeat ⊢
      refine .inl ⟨r, .plain ⟨?_, hrepeat, ?_⟩, rfl⟩
      · simp only [List.mem_cons, List.not_mem_nil, or_false, not_or]
        refine ⟨?_, ?_, hescape, hdot, hgroup, hclass⟩
        · rintro rfl
          cases hother
        · rintro rfl
          cases hother
      · intro hstrict
        simp only [hstrict, Bool.true_and, Bool.or_eq_true, beq_iff_eq] at hbracket
        simp only [hstrict, List.head?_cons] at hlone
        simp_all

/-- A term starts with a leaf or with an opening. -/
theorem unquantified_cases {repeats : Bool}
    (h : unquantified setting inner innerClass s = .ok ((n, repeats), s')) :
    (∃ rest, Leaf setting innerClass s.rest n repeats rest ∧ s' = s.next rest) ∨
      ∃ o r, s.rest = o.text ++ r ∧ Opening.Allowed s r o := by
  cases hopens : opensAssertion s.rest with
  | false =>
    rw [unquantified_of_atom _ _ _ hopens] at h
    split at h
    · cases h
    · rename_i hlone
      split at h
      · cases h
      · rename_i hrepeat
        obtain ⟨⟨m, s1⟩, hatom, h⟩ := map_eq_ok.1 h
        cases h
        exact atom_cases hopens hlone (Bool.eq_false_iff.2 hrepeat) hatom
  | true =>
    obtain ⟨e, r, hrest⟩ | ⟨direction, negate, r, hrest⟩ := opensAssertion_cases hopens
    · have hleaf : Leaf setting innerClass s.rest (.edge e) false r := hrest ▸ .edge e r
      have hread : unquantified setting inner innerClass s = .ok ((.edge e, false), s.next r) :=
        unquantified_leaf hleaf
      cases hread.symm.trans h
      exact .inl ⟨r, hleaf, rfl⟩
    · exact .inr ⟨.look direction negate, r, hrest, trivial⟩

/-- What is read without a quantifier: a leaf, or alternatives after an opening. -/
theorem unquantified_iff {repeats : Bool} :
    unquantified setting inner innerClass s = .ok ((n, repeats), s') ↔
      (∃ rest, Leaf setting innerClass s.rest n repeats rest ∧ s' = s.next rest) ∨
        ∃ o r ns s1, Encloses inner s s' o r ns s1 ∧ n = o.node s.groups ns ∧
          repeats = o.repeats setting := by
  constructor
  · intro h
    rcases unquantified_cases h with hleaf | ⟨o, r, hopens, hallowed⟩
    · exact .inl hleaf
    · rw [unquantified_open hopens hallowed] at h
      obtain ⟨⟨m, s2⟩, henclosed, h⟩ := map_eq_ok.1 h
      cases h
      obtain ⟨ns, s1, hinside, hcloses, hprogress, rfl⟩ := enclosed_iff.1 henclosed
      exact .inr ⟨o, r, ns, s1, ⟨hopens, hallowed, hinside, hcloses, hprogress⟩, rfl, rfl⟩
  · rintro (⟨rest, hleaf, rfl⟩ | ⟨o, r, ns, s1, h, rfl, rfl⟩)
    · exact unquantified_leaf hleaf
    · rw [unquantified_open h.opens h.allowed,
        enclosed_iff.2 ⟨ns, s1, h.inside, h.closes, h.progress, rfl⟩]
      rfl

/-! ## Quantifiers -/

/-- What comes after a term without its quantifier: nothing that could be one, or a quantifier where
one may follow. -/
inductive Ends (setting : Setting) (element : Node) :
    (repeats : Bool) → (text : List Char) → Node → (rest : List Char) → Prop
  | repeatable {r : List Char} : Lexeme.quantifier? setting r = .ok (none, r) →
    Ends setting element true r element r
  | unrepeatable {r : List Char} : Lexeme.atQuantifier r = false →
    Ends setting element false r element r
  | repeated {r rest : List Char} {bounds : Bounds} {greedy : Bool} :
    Lexeme.quantifier? setting r = .ok (some (bounds, greedy), rest) →
    Ends setting element true r (.quantifier bounds greedy (textBefore r rest) element) rest

theorem eq_of_unrepeatable {node : Node} (h : unrepeatable node s = .ok (n, s')) :
    node = n ∧ s = s' ∧ ¬ Lexeme.atQuantifier s.rest = true := by
  unfold unrepeatable at h
  split at h
  · cases h
  · rename_i hquantifier
    cases h
    exact ⟨rfl, rfl, hquantifier⟩

theorem finish_iff {element : Node} {repeats : Bool} :
    finish setting element repeats s = .ok (n, s') ↔
      ∃ rest, Ends setting element repeats s.rest n rest ∧ s' = s.next rest := by
  constructor
  · intro h
    cases repeats with
    | true =>
      obtain ⟨⟨read, r⟩, hread, h⟩ := bind_eq_ok.1 (show quantified setting element s = _ from h)
      cases read with
      | none =>
        cases h
        obtain rfl := (Lexeme.quantifier?_eq_none.1 hread).1
        exact ⟨_, .repeatable hread, rfl⟩
      | some found =>
        cases h
        exact ⟨_, .repeated hread, rfl⟩
    | false =>
      obtain ⟨rfl, rfl, hquantifier⟩ := eq_of_unrepeatable (show unrepeatable element s = _ from h)
      exact ⟨_, .unrepeatable (by simpa using hquantifier), rfl⟩
  · rintro ⟨rest, h, rfl⟩
    generalize htext : s.rest = text at h
    cases h with
    | repeatable hread =>
      show quantified setting _ s = _
      rw [quantified, htext, hread, ← htext]
      rfl
    | unrepeatable hquantifier =>
      show unrepeatable _ s = _
      rw [unrepeatable, htext, hquantifier, ← htext]
      rfl
    | repeated hread =>
      show quantified setting element s = _
      rw [quantified, htext, hread]
      rfl

/-- A term: first without its quantifier, then with it. -/
theorem term_iff : term setting inner innerClass s = .ok (n, s') ↔
    ∃ element repeats s1 rest, unquantified setting inner innerClass s = .ok ((element, repeats), s1) ∧
      Ends setting element repeats s1.rest n rest ∧ s' = s1.next rest := by
  rw [term_eq_finish, bind_eq_ok]
  constructor
  · rintro ⟨⟨⟨element, repeats⟩, s1⟩, hread, h⟩
    obtain ⟨rest, hends, rfl⟩ := finish_iff.1 h
    exact ⟨element, repeats, s1, rest, hread, hends, rfl⟩
  · rintro ⟨element, repeats, s1, rest, hread, hends, rfl⟩
    exact ⟨_, hread, finish_iff.2 ⟨rest, hends, rfl⟩⟩

/-- At the end of the text nothing comes after a term. -/
theorem Ends.nil (setting : Setting) (element : Node) (repeats : Bool) :
    Ends setting element repeats [] element [] := by
  cases repeats with
  | true => exact .repeatable rfl
  | false => exact .unrepeatable rfl

/-! ## What is taken -/

/-- A leaf takes a character at least. -/
theorem Leaf.tail {depth : Nat} {text rest : List Char} {repeats : Bool}
    (h : Leaf setting (Class.nested setting depth) text n repeats rest) :
    ∃ c tail, text = c :: tail ∧ rest <:+ tail := by
  cases h with
  | edge e r =>
    cases e with
    | word negate => cases negate <;> exact ⟨_, _, rfl, List.suffix_cons _ _⟩
    | lineStart | lineEnd => exact ⟨_, _, rfl, List.suffix_refl _⟩
  | any | plain _ => exact ⟨_, _, rfl, List.suffix_refl _⟩
  | charClass hclass =>
    refine ⟨_, _, rfl, ?_⟩
    split at hclass
    · exact Class.suffix_nested hclass
    · exact Class.suffix_listed hclass
  | escape _ _ hread => exact ⟨_, _, rfl, suffix_escaped hread⟩

theorem Leaf.suffix {depth : Nat} {text rest : List Char} {repeats : Bool}
    (h : Leaf setting (Class.nested setting depth) text n repeats rest) : rest <:+ text := by
  obtain ⟨c, tail, rfl, hsuffix⟩ := h.tail
  exact hsuffix.trans (List.suffix_cons _ _)

theorem Ends.suffix {element : Node} {repeats : Bool} {text rest : List Char}
    (h : Ends setting element repeats text n rest) : rest <:+ text := by
  cases h with
  | repeatable _ | unrepeatable _ => exact List.suffix_refl _
  | repeated hread => exact Lexeme.suffix_quantifier? hread

/-- A quantifier takes something of the text. -/
theorem Ends.eq_of_rest_eq {element : Node} {repeats : Bool} {text rest : List Char}
    (h : Ends setting element repeats text n rest) (hrest : rest = text) : n = element := by
  cases h with
  | repeatable _ | unrepeatable _ => rfl
  | repeated hread =>
    obtain ⟨c, tail, htext, hsuffix⟩ := (Lexeme.quantifier?_eq_some.1 hread).tail
    have hlength := hsuffix.length_le
    rw [hrest, htext, List.length_cons] at hlength
    exact absurd hlength (Nat.not_succ_le_self _)

theorem Ends.hasBackreference {element : Node} {repeats : Bool} {text rest : List Char}
    (h : Ends setting element repeats text n rest) :
    n.hasBackreference = element.hasBackreference := by
  cases h with
  | repeatable _ | unrepeatable _ => rfl
  | repeated _ => rw [Node.hasBackreference]

section
variable {depth : Nat} (hinner : ∀ {s s' : Progress} {ns : List Node},
  inner s = .ok (ns, s') → s'.rest <:+ s.rest)

include hinner

/-- A term takes a character at least, without its quantifier too. -/
theorem unquantified_tail {repeats : Bool}
    (h : unquantified setting inner (Class.nested setting depth) s = .ok ((n, repeats), s')) :
    ∃ c tail, s.rest = c :: tail ∧ s'.rest <:+ tail := by
  obtain ⟨rest, hleaf, rfl⟩ | ⟨o, r, ns, s1, hencloses, -, -⟩ := unquantified_iff.1 h
  · exact hleaf.tail
  · obtain ⟨tail, htext⟩ := o.exists_text_cons
    have hinside := hinner hencloses.inside
    rw [hencloses.closes, o.rest_enter] at hinside
    refine ⟨'(', tail ++ r, by rw [hencloses.opens, htext, List.cons_append], ?_⟩
    exact ((List.suffix_cons _ _).trans hinside).trans (List.suffix_append _ _)

theorem term_tail (h : term setting inner (Class.nested setting depth) s = .ok (n, s')) :
    ∃ c tail, s.rest = c :: tail ∧ s'.rest <:+ tail := by
  obtain ⟨element, repeats, s1, rest, hread, hends, rfl⟩ := term_iff.1 h
  obtain ⟨c, tail, hrest, hsuffix⟩ := unquantified_tail hinner hread
  exact ⟨c, tail, hrest, hends.suffix.trans hsuffix⟩

end

end Pattern

end RegexAudit
