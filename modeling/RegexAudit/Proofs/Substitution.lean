import Mathlib.Data.List.Induction
import RegexAudit.Lint.UnusedCapture

/-!
# Replacement texts and the groups they insert

A replacement text is expanded from left to right. At a dollar sign the longest pattern that makes
sense for the groups there are is taken, and everything else stands for itself:

* `$nn` if there is a group `nn`, otherwise `$n`;
* `$<name>` if some group has a name and a `>` follows, otherwise `$<` is text, and the expansion goes
  on right behind it.

`pieces` divides a text in this way. The uses of captures are collected without a look at the groups,
and there a `$<` takes everything up to the next `>`. So a group inserted between a `$<` that is text
and the next `>` is missed. All others are found:

    pieces labels text = before ++ piece :: after → Settled before → piece.Inserts (i + 1) label
      → (CaptureUses.ofCalls calls).has (i + 1) label = true                      (has_of_inserts)

The other way round, only what a call asks for counts as read, and of a replacement text only what a
pattern in it names (`exists_call_of_has`).
-/

namespace RegexAudit

/-! ## Expansion -/

namespace Substitution

/-- A piece of a replacement text. -/
inductive Piece where
  /-- A character that stands for itself. -/
  | char (c : Char)
  /-- `$$` -/
  | dollar
  /-- The match, or what is before or after it. -/
  | around (c : Char)
  /-- A group by its number; text, if there is no such group. -/
  | number (n : Nat)
  /-- A group by its name. -/
  | named (name : List Char)
  /-- A `$<` that is text. -/
  | opening
deriving DecidableEq

/-- Whether a piece inserts what the group with this number and label has captured. -/
def Piece.Inserts (index : Nat) (label : Option (List Char)) : Piece → Prop
  | number n => n = index
  | named name => label = some name
  | _ => False

/-- The piece at `$` and a digit, and how many characters after `$` belong to it. Two digits are taken
if there are that many groups. -/
def numbered (groups : Nat) (d : Char) : List Char → Piece × Nat
  | e :: _ =>
    let n := CaptureUses.digitValue d * 10 + CaptureUses.digitValue e
    if e.isDigit && decide (n ≤ groups) then (.number n, 2) else (.number (CaptureUses.digitValue d), 1)
  | [] => (.number (CaptureUses.digitValue d), 1)

/-- The piece at `$<`, and how many characters after `$` belong to it. -/
def angled (labels : List (Option (List Char))) (later : List Char) : Piece × Nat :=
  if labels.any Option.isSome && later.contains '>' then
    let name := later.takeWhile (· != '>')
    (.named name, name.length + 2)
  else (.opening, 1)

/-- The piece at a character, and how many characters after it belong to it. -/
def pieceAt (labels : List (Option (List Char))) (c : Char) (rest : List Char) : Piece × Nat :=
  match rest with
  | [] => (.char c, 0)
  | d :: later =>
    if c ≠ '$' then (.char c, 0)
    else if d = '$' then (.dollar, 1)
    else if d ∈ ['&', '\x60', '\x27'] then (.around d, 1)
    else if d.isDigit then numbered labels.length d later
    else if d = '<' then angled labels later
    else (.char c, 0)

/-- The pieces behind the first `skip` characters. -/
def piecesFrom (labels : List (Option (List Char))) : (skip : Nat) → List Char → List Piece
  | _, [] => []
  | skip + 1, _ :: rest => piecesFrom labels skip rest
  | 0, c :: rest =>
    let (piece, more) := pieceAt labels c rest
    piece :: piecesFrom labels more rest

/-- The pieces of a replacement text; there is a label for each group. -/
def pieces (labels : List (Option (List Char))) (text : List Char) : List Piece :=
  piecesFrom labels 0 text

/-- Behind every `$<` that is text there is a `>`. -/
def Settled (before : List Piece) : Prop :=
  ∀ u v, before = u ++ .opening :: v → .char '>' ∈ v

section
variable {labels : List (Option (List Char))} {text rest : List Char} {c : Char} {piece : Piece}
  {before : List Piece}

theorem piecesFrom_eq (labels : List (Option (List Char))) (skip : Nat) (text : List Char) :
    piecesFrom labels skip text = pieces labels (text.drop skip) := by
  induction text generalizing skip with
  | nil => simp [pieces, piecesFrom]
  | cons c rest ih =>
    cases skip with
    | zero => rfl
    | succ skip => rw [piecesFrom, ih, List.drop_succ_cons]

theorem settled_of_not_mem (h : .opening ∉ before) : Settled before := by
  rintro u v rfl
  exact absurd (List.mem_append_right u List.mem_cons_self) h

theorem Settled.tail (h : Settled (piece :: before)) : Settled before :=
  fun u v huv => h (piece :: u) v (by rw [huv, List.cons_append])

theorem Settled.mem (h : Settled (.opening :: before)) : .char '>' ∈ before := h [] before rfl

/-- What a text starts with. -/
inductive Starts (labels : List (Option (List Char))) : List Char → Piece → List Char → Prop
  | char {c : Char} {rest : List Char} : c ≠ '$' → Starts labels (c :: rest) (.char c) rest
  | sign {rest : List Char} :
    (∀ d ∈ rest.head?, d ≠ '$' ∧ d.isDigit = false ∧ d ≠ '<') →
      Starts labels ('$' :: rest) (.char '$') rest
  | dollar {rest : List Char} : Starts labels ('$' :: '$' :: rest) .dollar rest
  | around {d : Char} {rest : List Char} : d ∈ ['&', '\x60', '\x27'] →
    Starts labels ('$' :: d :: rest) (.around d) rest
  | two {d e : Char} {rest : List Char} : d.isDigit = true → e.isDigit = true →
    Starts labels ('$' :: d :: e :: rest)
      (.number (CaptureUses.digitValue d * 10 + CaptureUses.digitValue e)) rest
  | one {d : Char} {rest : List Char} : d.isDigit = true →
    Starts labels ('$' :: d :: rest) (.number (CaptureUses.digitValue d)) rest
  | named {name rest : List Char} : labels.any Option.isSome = true → '>' ∉ name →
    Starts labels ('$' :: '<' :: (name ++ '>' :: rest)) (.named name) rest
  | opening {rest : List Char} : (labels.any Option.isSome = true → '>' ∉ rest) →
    Starts labels ('$' :: '<' :: rest) .opening rest

theorem starts_numbered {d : Char} (hd : d.isDigit = true) (groups : Nat) (later : List Char) :
    Starts labels ('$' :: d :: later) (numbered groups d later).1
      ((d :: later).drop (numbered groups d later).2) := by
  cases later with
  | nil => exact .one hd
  | cons e later =>
    simp only [numbered]
    split
    · rename_i h
      exact .two hd (Bool.and_eq_true_iff.1 h).1
    · exact .one hd

theorem starts_angled (labels : List (Option (List Char))) (later : List Char) :
    Starts labels ('$' :: '<' :: later) (angled labels later).1
      (('<' :: later).drop (angled labels later).2) := by
  simp only [angled]
  split
  · rename_i h
    obtain ⟨hlabels, hmem⟩ := Bool.and_eq_true_iff.1 h
    obtain ⟨name, rest, rfl, hname⟩ := List.eq_append_cons_of_mem (List.contains_iff_mem.1 hmem)
    have htake : (name ++ '>' :: rest).takeWhile (· != '>') = name := by
      rw [List.takeWhile_append_of_pos fun c hc => bne_iff_ne.2 (ne_of_mem_of_not_mem hc hname)]
      simp
    have hdrop : ('<' :: (name ++ '>' :: rest)).drop (name.length + 2) = rest := by
      rw [List.drop_succ_cons, List.drop_append]
      simp
    rw [htake, hdrop]
    exact .named hlabels hname
  · rename_i h
    refine .opening fun hlabels hmem => h ?_
    rw [hlabels, List.contains_iff_mem.2 hmem]
    rfl

theorem starts_pieceAt (labels : List (Option (List Char))) (c : Char) (rest : List Char) :
    Starts labels (c :: rest) (pieceAt labels c rest).1 (rest.drop (pieceAt labels c rest).2) := by
  by_cases hc : c = '$'
  · subst hc
    cases rest with
    | nil => exact .sign nofun
    | cons d later =>
      simp only [pieceAt, ne_eq, not_true_eq_false, ↓reduceIte]
      split_ifs with hdollar haround hdigit hangle
      · rw [hdollar]
        exact .dollar
      · exact .around haround
      · exact starts_numbered hdigit _ later
      · rw [hangle]
        exact starts_angled labels later
      · refine .sign ?_
        rintro _ ⟨⟩
        exact ⟨hdollar, Bool.eq_false_iff.2 hdigit, hangle⟩
  · cases rest with
    | nil => exact .char hc
    | cons d later =>
      rw [pieceAt, if_pos hc]
      exact .char hc

/-- The pieces of a text are the one it starts with and those of the rest. -/
theorem exists_starts (labels : List (Option (List Char))) (c : Char) (rest : List Char) :
    ∃ piece later, pieces labels (c :: rest) = piece :: pieces labels later ∧
      Starts labels (c :: rest) piece later ∧ later.length ≤ rest.length := by
  refine ⟨_, _, ?_, starts_pieceAt labels c rest, (List.drop_suffix _ _).length_le⟩
  simp only [pieces, piecesFrom]
  rw [piecesFrom_eq, pieces]

/-- A piece takes up a stretch of the text, without a `>` if that is not all there is to it; a name
is only taken where a `>` ends it. -/
theorem Starts.stretch (h : Starts labels text piece rest)
    (hnames : labels.any Option.isSome = true → '>' ∉ text) :
    (piece = .char '>' ∧ text = '>' :: rest) ∨
      (piece ≠ .char '>' ∧ ∃ w, text = w ++ rest ∧ '>' ∉ w) := by
  have hdigit {d : Char} (hd : d.isDigit = true) : '>' ≠ d := by
    rintro rfl
    cases hd
  cases h with
  | @char c rest hc =>
    by_cases hgreater : c = '>'
    · subst hgreater
      exact .inl ⟨rfl, rfl⟩
    · exact .inr ⟨by simpa using hgreater, [c], rfl, by simpa using Ne.symm hgreater⟩
  | sign _ => exact .inr ⟨by decide, ['$'], rfl, by decide⟩
  | dollar => exact .inr ⟨nofun, ['$', '$'], rfl, by decide⟩
  | @around d rest hd =>
    refine .inr ⟨nofun, ['$', d], rfl, ?_⟩
    rintro hmem
    simp at hmem
    rw [← hmem] at hd
    revert hd
    decide
  | @two d e rest hd he =>
    exact .inr ⟨nofun, ['$', d, e], rfl, by simp [hdigit hd, hdigit he]⟩
  | @one d rest hd => exact .inr ⟨nofun, ['$', d], rfl, by simp [hdigit hd]⟩
  | named hlabels _ => exact absurd (by simp) (hnames hlabels)
  | opening _ => exact .inr ⟨nofun, ['$', '<'], rfl, by decide⟩

end

end Substitution

/-! ## Uses -/

namespace CaptureUses

open Substitution

/-- Whatever counts as read still does. -/
def Le (uses uses' : CaptureUses) : Prop :=
  ∀ index label, uses.has index label = true → uses'.has index label = true

section
variable {uses uses' : CaptureUses} {text rest : List Char} {n : Nat} {c d : Char}

theorem Le.refl (uses : CaptureUses) : Le uses uses := fun _ _ h => h

theorem Le.trans {uses'' : CaptureUses} (h : Le uses uses') (h' : Le uses' uses'') : Le uses uses'' :=
  fun index label hhas => h' index label (h index label hhas)

@[simp] theorem has_addIndex {index : Nat} {label : Option (List Char)} :
    (uses.addIndex n).has index label = true ↔ uses.has index label = true ∨ index = n := by
  simp only [has, addIndex, Bool.or_eq_true, List.contains_cons, beq_iff_eq]
  tauto

@[simp] theorem has_addName {index : Nat} {label : Option (List Char)} {name : List Char} :
    (uses.addName name).has index label = true ↔
      uses.has index label = true ∨ label = some name := by
  cases label with
  | none => simp [has, addName]
  | some s =>
    simp only [has, addName, Bool.or_eq_true, List.contains_cons, Option.any_some, beq_iff_eq,
      Option.some.injEq]
    tauto

@[simp] theorem has_addNumber {index : Nat} {label : Option (List Char)} :
    (uses.addNumber n).has index label = true ↔
      uses.has index label = true ∨ n ≠ 0 ∧ index = n := by
  unfold addNumber
  split <;> simp [*]

theorem le_addName (uses : CaptureUses) (name : List Char) : Le uses (uses.addName name) :=
  fun _ _ h => has_addName.2 (.inl h)

theorem le_addNumber (uses : CaptureUses) (n : Nat) : Le uses (uses.addNumber n) :=
  fun _ _ h => has_addNumber.2 (.inl h)

theorem le_readChar (uses : CaptureUses) (reading : Reading) (c : Char) :
    Le uses (uses.readChar reading c).1 := by
  cases reading with
  | plain => exact .refl uses
  | dollar =>
    simp only [readChar]
    split
    · exact .refl uses
    · split <;> exact .refl uses
  | digit d =>
    simp only [readChar]
    split
    · exact (le_addNumber uses _).trans (le_addNumber _ _)
    · exact le_addNumber uses _
  | name letters =>
    simp only [readChar]
    split
    · exact le_addName uses _
    · exact .refl uses

theorem le_readFrom (uses : CaptureUses) (reading : Reading) (text : List Char) :
    Le uses (uses.readFrom reading text) := by
  induction text generalizing uses reading with
  | nil =>
    cases reading with
    | digit d => exact le_addNumber uses _
    | _ => exact .refl uses
  | cons c text ih => exact (le_readChar uses reading c).trans (ih _ _)

theorem readFrom_plain (uses : CaptureUses) (hc : c ≠ '$') (rest : List Char) :
    uses.readFrom .plain (c :: rest) = uses.readFrom .plain rest := by
  simp [readFrom, readChar, hc]

theorem readFrom_dollar (uses : CaptureUses) (hdigit : d.isDigit = false) (hd : d ≠ '<')
    (rest : List Char) :
    uses.readFrom .plain ('$' :: d :: rest) = uses.readFrom .plain rest := by
  simp [readFrom, readChar, hdigit, hd]

theorem readFrom_digit (uses : CaptureUses) (hrest : ∀ c ∈ rest.head?, c.isDigit = false) :
    uses.readFrom (.digit d) rest = (uses.addNumber (digitValue d)).readFrom .plain rest := by
  cases rest with
  | nil => rfl
  | cons c rest => simp [readFrom, readChar, hrest c rfl]

theorem readFrom_name (uses : CaptureUses) {w : List Char} (hw : '>' ∉ w) (letters rest : List Char) :
    uses.readFrom (.name letters) (w ++ rest) =
      uses.readFrom (.name (w.reverse ++ letters)) rest := by
  induction w generalizing letters with
  | nil => rfl
  | cons c w ih =>
    rw [List.mem_cons, not_or] at hw
    rw [List.reverse_cons, List.append_assoc, List.singleton_append, ← ih hw.2]
    simp [readFrom, readChar, Ne.symm hw.1]

/-- Reading goes past a piece, and what the piece inserts counts as read then. -/
theorem exists_readFrom {labels : List (Option (List Char))} {piece : Piece}
    (h : Starts labels text piece rest) (hpiece : piece ≠ .opening) (uses : CaptureUses) :
    ∃ uses' : CaptureUses, uses.readFrom .plain text = uses'.readFrom .plain rest ∧
      ∀ index label, index ≠ 0 → piece.Inserts index label → uses'.has index label = true := by
  cases h with
  | char hc => exact ⟨uses, readFrom_plain uses hc rest, fun _ _ _ => False.elim⟩
  | sign hhead =>
    refine ⟨uses, ?_, fun _ _ _ => False.elim⟩
    cases rest with
    | nil => rfl
    | cons d rest =>
      obtain ⟨hdollar, hdigit, hd⟩ := hhead d rfl
      rw [readFrom_dollar uses hdigit hd, readFrom_plain uses hdollar]
  | dollar => exact ⟨uses, readFrom_dollar uses rfl (by decide) rest, fun _ _ _ => False.elim⟩
  | @around d rest hd =>
    refine ⟨uses, ?_, fun _ _ _ => False.elim⟩
    simp only [List.mem_cons, List.not_mem_nil, or_false] at hd
    obtain rfl | rfl | rfl := hd <;> exact readFrom_dollar uses rfl (by decide) rest
  | @two d e rest hd he =>
    refine ⟨(uses.addNumber (digitValue d * 10 + digitValue e)).addNumber (digitValue d), ?_, ?_⟩
    · simp [readFrom, readChar, hd, he]
    · rintro _ label hindex rfl
      exact le_addNumber _ _ _ label (has_addNumber.2 (.inr ⟨hindex, rfl⟩))
  | @one d rest hd =>
    have hread : uses.readFrom .plain ('$' :: d :: rest) = uses.readFrom (.digit d) rest := by
      simp [readFrom, readChar, hd]
    by_cases hhead : ∀ c ∈ rest.head?, c.isDigit = false
    · refine ⟨uses.addNumber (digitValue d), hread.trans (readFrom_digit uses hhead), ?_⟩
      rintro _ label hindex rfl
      exact has_addNumber.2 (.inr ⟨hindex, rfl⟩)
    · -- Reading takes the second digit along, which is plain text if it is not taken.
      simp only [Option.mem_def, not_forall, Bool.not_eq_false] at hhead
      obtain ⟨e, he, hdigit⟩ := hhead
      obtain ⟨tail, rfl⟩ := List.head?_eq_some_iff.1 he
      have hdollar : e ≠ '$' := by
        rintro rfl
        cases hdigit
      refine ⟨(uses.addNumber (digitValue d * 10 + digitValue e)).addNumber (digitValue d), ?_, ?_⟩
      · rw [hread, readFrom_plain _ hdollar]
        simp [readFrom, readChar, hdigit]
      · rintro _ label hindex rfl
        exact has_addNumber.2 (.inr ⟨hindex, rfl⟩)
  | @named name rest hlabels hname =>
    refine ⟨uses.addName name, ?_, ?_⟩
    · show uses.readFrom (.name []) (name ++ '>' :: rest) = _
      rw [readFrom_name uses hname]
      simp [readFrom, readChar]
    · rintro index _ - rfl
      exact has_addName.2 (.inr rfl)
  | opening _ => exact absurd rfl hpiece

/-- A group that a piece inserts counts as read if the `$<` before it are settled, also while a name
is read that a `>` ends before the piece. -/
theorem has_of_pieces {labels : List (Option (List Char))} {piece : Piece} {index : Nat}
    {label : Option (List Char)} (hindex : index ≠ 0) (hinserts : piece.Inserts index label)
    {before after : List Piece} (hpieces : pieces labels text = before ++ piece :: after)
    (hsettled : Settled before) (uses : CaptureUses) :
    (uses.readFrom .plain text).has index label = true ∧
      ((labels.any Option.isSome = true → '>' ∉ text) → .char '>' ∈ before →
        ∀ letters, (uses.readFrom (.name letters) text).has index label = true) := by
  induction hlength : text.length using Nat.strongRecOn generalizing text before uses with
  | ind length ih =>
    cases text with
    | nil =>
      cases before <;> cases hpieces
    | cons c rest =>
      obtain ⟨first, later, hfirst, hstarts, hlater⟩ := exists_starts labels c rest
      rw [hfirst] at hpieces
      have hless : later.length < length := by
        rw [← hlength, List.length_cons]
        omega
      cases before with
      | nil =>
        obtain ⟨rfl, -⟩ := List.cons.inj hpieces
        refine ⟨?_, fun _ hmem => nomatch hmem⟩
        obtain ⟨uses', hread, hhas⟩ := exists_readFrom hstarts (by rintro rfl; exact hinserts) uses
        rw [hread]
        exact le_readFrom uses' _ _ _ _ (hhas index label hindex hinserts)
      | cons _ before =>
        rw [List.cons_append] at hpieces
        obtain ⟨rfl, htail⟩ := List.cons.inj hpieces
        have hrest (uses : CaptureUses) := ih _ hless htail hsettled.tail uses rfl
        constructor
        · by_cases hopening : first = .opening
          · subst hopening
            cases hstarts with
            | opening hnames => exact (hrest uses).2 hnames hsettled.mem []
          · obtain ⟨uses', hread, -⟩ := exists_readFrom hstarts hopening uses
            rw [hread]
            exact (hrest uses').1
        · intro hnames hmem letters
          obtain ⟨rfl, htext⟩ | ⟨hne, w, htext, hw⟩ := hstarts.stretch hnames
          · obtain ⟨rfl, rfl⟩ := List.cons.inj htext
            exact (hrest (uses.addName letters.reverse)).1
          · rw [htext, readFrom_name uses hw]
            refine (hrest uses).2 (fun h hlater => hnames h ?_) ?_ _
            · rw [htext]
              exact List.mem_append_right w hlater
            · exact (List.mem_cons.1 hmem).resolve_left (Ne.symm hne)

end

/-! ## Patterns in the text -/

/-- A pattern for the group stands in a text. -/
inductive Mentions (text : List Char) (index : Nat) (label : Option (List Char)) : Prop
  | one {d : Char} : d.isDigit = true → index = digitValue d → ['$', d] <:+: text →
    Mentions text index label
  | two {d e : Char} : d.isDigit = true → e.isDigit = true →
    index = digitValue d * 10 + digitValue e → ['$', d, e] <:+: text → Mentions text index label
  | name {name : List Char} : label = some name → '$' :: '<' :: name ++ ['>'] <:+: text →
    Mentions text index label

/-- What the text that has been read ends with. -/
def Reading.Ends (reading : Reading) (consumed : List Char) : Prop :=
  match reading with
  | .plain => True
  | .dollar => ['$'] <:+ consumed
  | .digit d => d.isDigit = true ∧ ['$', d] <:+ consumed
  | .name letters => '$' :: '<' :: letters.reverse <:+ consumed

section
variable {uses : CaptureUses} {reading : Reading} {consumed text : List Char} {c d : Char} {index : Nat}
  {label : Option (List Char)}

theorem Mentions.mono {text' : List Char} (h : Mentions text index label) (htext : text <:+: text') :
    Mentions text' index label := by
  cases h with
  | one hd hindex hstands => exact .one hd hindex (hstands.trans htext)
  | two hd he hindex hstands => exact .two hd he hindex (hstands.trans htext)
  | name hlabel hstands => exact .name hlabel (hstands.trans htext)

theorem mentions_of_digit (hends : (Reading.digit d).Ends consumed) (hindex : index = digitValue d) :
    Mentions consumed index label :=
  .one hends.1 hindex hends.2.isInfix

theorem suffix_concat {w : List Char} (h : w <:+ consumed) (c : Char) : w ++ [c] <:+ consumed ++ [c] := by
  obtain ⟨front, rfl⟩ := h
  exact ⟨front, (List.append_assoc front w [c]).symm⟩

/-- Without a pattern going on, a dollar sign starts one. -/
theorem ends_fresh (consumed : List Char) (c : Char) :
    (if c = '$' then Reading.dollar else .plain).Ends (consumed ++ [c]) := by
  split
  · rename_i hc
    rw [hc]
    exact List.suffix_append consumed ['$']
  · trivial

/-- A character is read into the pattern that it goes on or ends. -/
theorem ends_readChar (hends : reading.Ends consumed) (uses : CaptureUses) (c : Char) :
    (uses.readChar reading c).2.Ends (consumed ++ [c]) := by
  cases reading with
  | plain => exact ends_fresh consumed c
  | dollar =>
    simp only [readChar]
    split
    · rename_i hc
      exact ⟨hc, suffix_concat hends c⟩
    · split
      · rename_i hc
        rw [hc]
        exact suffix_concat hends '<'
      · trivial
  | digit d =>
    simp only [readChar]
    split
    · trivial
    · exact ends_fresh consumed c
  | name letters =>
    simp only [readChar]
    split
    · trivial
    · show '$' :: '<' :: (c :: letters).reverse <:+ consumed ++ [c]
      rw [List.reverse_cons]
      exact suffix_concat hends c

/-- What a character makes count as read is mentioned. -/
theorem has_readChar (hends : reading.Ends consumed)
    (h : (uses.readChar reading c).1.has index label = true) :
    uses.has index label = true ∨ Mentions (consumed ++ [c]) index label := by
  have hmono : consumed <:+: consumed ++ [c] := (List.prefix_append consumed [c]).isInfix
  cases reading with
  | plain => exact .inl h
  | dollar =>
    simp only [readChar] at h
    split at h
    · exact .inl h
    · split at h <;> exact .inl h
  | digit d =>
    simp only [readChar] at h
    split at h
    · rename_i hc
      rw [has_addNumber, has_addNumber] at h
      rcases h with (h | ⟨-, hindex⟩) | ⟨-, hindex⟩
      · exact .inl h
      · exact .inr (.two hends.1 hc hindex (suffix_concat hends.2 c).isInfix)
      · exact .inr ((mentions_of_digit hends hindex).mono hmono)
    · rw [has_addNumber] at h
      exact h.imp_right fun h => (mentions_of_digit hends h.2).mono hmono
  | name letters =>
    simp only [readChar] at h
    split at h
    · rename_i hc
      rw [has_addName] at h
      refine h.imp_right fun hlabel => .name hlabel ?_
      rw [hc]
      exact (suffix_concat hends '>').isInfix
    · exact .inl h

theorem has_readFrom (hends : reading.Ends consumed)
    (h : (uses.readFrom reading text).has index label = true) :
    uses.has index label = true ∨ Mentions (consumed ++ text) index label := by
  induction text generalizing uses reading consumed with
  | nil =>
    rw [List.append_nil]
    cases reading with
    | digit d => exact (has_addNumber.1 h).imp_right fun h => mentions_of_digit hends h.2
    | _ => exact .inl h
  | cons c text ih =>
    rw [← List.singleton_append, ← List.append_assoc]
    rcases ih (ends_readChar hends uses c) h with h | h
    · exact (has_readChar hends h).imp_right fun h => h.mono (List.prefix_append _ text).isInfix
    · exact .inr h

end

/-! ## Tables -/

/-- What the code around a pattern does with a match. -/
inductive Call where
  | index (n : Nat)
  | name (name : List Char)
  /-- All groups are read, or it cannot be followed what is read. -/
  | all
  | replacement (text : List Char)

def call (uses : CaptureUses) : Call → CaptureUses
  | .index n => uses.addIndex n
  | .name name => uses.addName name
  | .all => uses.addAll
  | .replacement text => uses.addReplacement text

/-- The uses of some calls. -/
def ofCalls (calls : List Call) : CaptureUses := calls.foldl call .none

theorem le_call (uses : CaptureUses) (c : Call) : Le uses (uses.call c) := by
  cases c with
  | index n => exact fun _ _ h => has_addIndex.2 (.inl h)
  | name name => exact le_addName uses name
  | all => exact fun _ _ _ => rfl
  | replacement text => exact le_readFrom uses .plain text

theorem le_foldl_call (uses : CaptureUses) (calls : List Call) : Le uses (calls.foldl call uses) := by
  induction calls generalizing uses with
  | nil => exact .refl uses
  | cons c calls ih => exact (le_call uses c).trans (ih _)

/-- A call reads the group, or may read it. -/
def Call.Reads (index : Nat) (label : Option (List Char)) : Call → Prop
  | .index n => index = n
  | .name s => label = some s
  | .all => True
  | .replacement text => Mentions text index label

/-- What counts as read is read by some call: at most the patterns that stand in a replacement text
count. -/
theorem exists_call_of_has {calls : List Call} {index : Nat} {label : Option (List Char)}
    (h : (ofCalls calls).has index label = true) : ∃ c ∈ calls, c.Reads index label := by
  induction calls using List.reverseRecOn with
  | nil => cases label <;> cases h
  | append_singleton calls c ih =>
    rw [ofCalls, List.foldl_append, List.foldl_cons, List.foldl_nil] at h
    have hcall : (ofCalls calls).has index label = true ∨ c.Reads index label := by
      cases c with
      | index n => exact has_addIndex.1 h
      | name name => exact has_addName.1 h
      | all => exact .inr trivial
      | replacement text =>
        have hends : Reading.plain.Ends [] := trivial
        exact has_readFrom hends h
    rcases hcall with h | h
    · obtain ⟨c', hc', hreads⟩ := ih h
      exact ⟨c', List.mem_append_left _ hc', hreads⟩
    · exact ⟨c, List.mem_append_right _ (List.mem_singleton_self c), h⟩

/-- A group that a replacement text inserts counts as read, unless it stands between a `$<` that is
text and the next `>`. -/
theorem has_of_inserts {labels : List (Option (List Char))} {calls : List Call} {text : List Char}
    (hcall : .replacement text ∈ calls) {before after : List Piece} {piece : Piece}
    (hpieces : pieces labels text = before ++ piece :: after) (hsettled : Settled before)
    {index : Nat} {label : Option (List Char)} (hindex : index ≠ 0)
    (hinserts : piece.Inserts index label) : (ofCalls calls).has index label = true := by
  obtain ⟨front, back, rfl⟩ := List.append_of_mem hcall
  have hread := (has_of_pieces hindex hinserts hpieces hsettled (front.foldl call .none)).1
  rw [ofCalls, List.foldl_append, List.foldl_cons]
  exact le_foldl_call _ back _ _ hread

/-- In `$<a>$12` the group `a` is inserted and, as there are less than twelve groups, the first one. -/
theorem has_of_inserts_two :
    let labels : List (Option (List Char)) := [.none, some ['a']]
    let text := ['$', '<', 'a', '>', '$', '1', '2']
    pieces labels text = [.named ['a'], .number 1, .char '2'] ∧
      ∀ calls, .replacement text ∈ calls →
        (ofCalls calls).has 1 .none = true ∧ (ofCalls calls).has 2 (some ['a']) = true := by
  intro labels text
  have hpieces : pieces labels text = [.named ['a'], .number 1, .char '2'] := by decide
  have hnumber : pieces labels text = [.named ['a']] ++ .number 1 :: [.char '2'] := hpieces
  have hnamed : pieces labels text = [] ++ .named ['a'] :: [.number 1, .char '2'] := hpieces
  refine ⟨hpieces, fun calls hcall => ⟨?_, ?_⟩⟩
  · exact has_of_inserts hcall hnumber (settled_of_not_mem (by decide)) (by decide) rfl
  · exact has_of_inserts hcall hnamed (settled_of_not_mem (by decide)) (by decide) rfl

/-- With a single group, and no name, `$<$1>` inserts the group, but it does not count as read. So it is
reported as unused, and the fix makes it a plain one. -/
theorem not_has_of_opening :
    let text := ['$', '<', '$', '1', '>']
    let uses := ofCalls [.replacement text]
    let r : Regex := ⟨['(', 'a', ')'], {}, .choice .whole [.alternative [
      .choice (.capture 1 .none) [.alternative [.character ⟨97, ['a']⟩]]]]⟩
    Regex.parse ['(', 'a', ')'] {} = .ok r ∧
      pieces [.none] text = [.opening, .number 1, .char '>'] ∧ uses.has 1 .none = false ∧
        (UnusedCapture.check ⟨r, some uses⟩).map (·.fix) = [some ⟨0, 1, ['(', '?', ':']⟩] :=
  ⟨rfl, by decide, rfl, rfl⟩

end CaptureUses

end RegexAudit
