import RegexAudit.Proofs.Classes
import RegexAudit.Proofs.Numerals
import RegexAudit.Syntax.Cursor

/-!
# Positions and the text that is left

The parser keeps a byte of the source, the readers of lexemes take the text that is left. An end of
the source begins at one byte (`Text.cut?_position`), so the two say the same, and each action on
the position is the reader of the same name on the text from there on:

    h : r <:+ source  →  (counts source setting).run (s.goTo source r)
                           = outcome s source (Lexeme.counts? setting r)          (run_counts)

An action that reads on to see whether something is written, and goes back if it is not, is a reader
that gives none; where it may stop in between is left open until it has gone back
(`run_insideBraces`, `run_trailSurrogate`).
-/

namespace RegexAudit

namespace Text

variable {source front rest : List Char}

theorem cut?_eq_some {n : Nat} {text back : List Char} (h : cut? n text = some (front, back)) :
    text = front ++ back ∧ width front = n := by
  fun_induction cut? n text generalizing front with
  | case1 text =>
    cases h
    exact ⟨rfl, rfl⟩
  | case2 => cases h
  | case3 n c text hle ih =>
    obtain ⟨⟨front', back'⟩, hcut, heq⟩ := Option.map_eq_some_iff.1 h
    cases heq
    obtain ⟨rfl, hwidth⟩ := ih hcut
    refine ⟨rfl, ?_⟩
    rw [width_cons, hwidth]
    omega
  | case4 => cases h

theorem position_append (front rest : List Char) : position (front ++ rest) rest = width front := by
  rw [position, width_append, Nat.add_sub_cancel]

/-- The position of a rest cuts the source in front of it. -/
theorem cut?_position (h : rest <:+ source) :
    ∃ front, cut? (position source rest) source = some (front, rest) := by
  obtain ⟨front, rfl⟩ := h
  rw [position_append]
  exact ⟨front, cut?_width front rest⟩

/-- What stands in front of a rest moves its position by its width. -/
theorem position_add (h : front ++ rest <:+ source) :
    position source (front ++ rest) + width front = position source rest := by
  obtain ⟨before, rfl⟩ := h
  rw [position_append, ← List.append_assoc, position_append, width_append]

/-- The slice between two positions is the text between their rests. -/
theorem slice?_position (h : front ++ rest <:+ source) :
    slice? (position source (front ++ rest)) (position source (front ++ rest) + width front) source
      = some front := by
  obtain ⟨before, rfl⟩ := h
  rw [position_append, ← List.append_assoc]
  exact slice?_width before front rest

/-- A slice that begins where an end of the source does is a beginning of that end. -/
theorem of_slice?_position {text : List Char} {bytes : Nat} (h : rest <:+ source)
    (hslice : slice? (position source rest) (position source rest + bytes) source = some text) :
    ∃ after, rest = text ++ after ∧ width text = bytes := by
  obtain ⟨before, hbefore⟩ := cut?_position h
  obtain ⟨⟨front, back⟩, hfront, hslice⟩ := Option.bind_eq_some_iff.1 hslice
  obtain ⟨⟨front', middle⟩, hmiddle, hslice⟩ := Option.bind_eq_some_iff.1 hslice
  cases hslice
  obtain ⟨hsource, hwidth⟩ := cut?_eq_some hfront
  obtain ⟨rfl, hwidth'⟩ := cut?_eq_some hmiddle
  rw [← hwidth', hsource, List.append_assoc, cut?_width] at hbefore
  cases hbefore
  refine ⟨back, rfl, ?_⟩
  rw [width_append, hwidth'] at hwidth
  exact Nat.add_left_cancel hwidth

theorem strip?_eq_none {c : Char} {text : List Char} (h : ∀ rest, text = c :: rest → False) :
    strip? [c] text = none := by
  refine Option.eq_none_iff_forall_ne_some.2 fun rest hstrip => ?_
  exact h rest (Class.strip?_iff.1 hstrip)

end Text

namespace Parser

/-! ## Running actions -/

section
variable {α β : Type}

@[simp] theorem run_failAt (cause : Cause) (offset : Nat) (s : Parser) :
    (failAt cause offset : Action α).run s = .error (.fault ⟨cause, offset⟩) := rfl

@[simp] theorem ok_bind (a : α) (f : α → Except Stop β) : (Except.ok a >>= f) = f a := rfl

@[simp] theorem error_bind (e : Stop) (f : α → Except Stop β) :
    ((Except.error e : Except Stop α) >>= f) = .error e := rfl

@[simp] theorem ok_map (a : α) (f : α → β) : f <$> (Except.ok a : Except Stop α) = .ok (f a) := rfl

@[simp] theorem pure_eq_ok (a : α) : (pure a : Except Stop α) = .ok a := rfl

end

/-- The state with the parser where `rest` begins. -/
def goTo (s : Parser) (source rest : List Char) : Parser :=
  { s with pos := Text.position source rest }

section
variable {α : Type} {source front r r' : List Char} {s : Parser} {c : Char}

@[simp] theorem goTo_goTo : (s.goTo source r).goTo source r' = s.goTo source r' := rfl

@[simp] theorem run_position :
    position.run (s.goTo source r) = .ok (Text.position source r, s.goTo source r) := rfl

@[simp] theorem run_seek :
    (seek (Text.position source r)).run (s.goTo source r') = .ok ((), s.goTo source r) := rfl

@[simp] theorem run_fail (cause : Cause) :
    (fail cause : Action α).run (s.goTo source r)
      = .error (.fault ⟨cause, Text.position source r⟩) := rfl

/-- One action after another, where the first is known to succeed. -/
theorem run_step {β : Type} {action : Action α} {f : α → Action β} {a : α} {s' : Parser}
    {z : Except Stop (β × Parser)} (h : action.run s = .ok (a, s')) (hnext : (f a).run s' = z) :
    (action >>= f).run s = z := by
  rw [StateT.run_bind, h]
  exact hnext

theorem run_rest (h : r <:+ source) :
    (rest source).run (s.goTo source r) = .ok (r, s.goTo source r) := by
  obtain ⟨front, hcut⟩ := Text.cut?_position h
  simp [rest, show (s.goTo source r).pos = Text.position source r from rfl, hcut]

/-- A move by the width of a text that stands there goes to its end. -/
theorem run_advance (h : front ++ r <:+ source) :
    (advance (Text.width front)).run (s.goTo source (front ++ r)) = .ok ((), s.goTo source r) := by
  simp [advance, goTo, Text.position_add h]

theorem run_advance_cons (h : c :: r <:+ source) :
    (advance c.utf8Size).run (s.goTo source (c :: r)) = .ok ((), s.goTo source r) :=
  run_advance (show [c] ++ r <:+ source from h)

theorem run_slice (h : front ++ r <:+ source) :
    (slice source (Text.width front)).run (s.goTo source (front ++ r))
      = .ok (front, s.goTo source (front ++ r)) := by
  simp [slice, Text.slice?_position h]

theorem run_peek (h : r <:+ source) :
    (peek source).run (s.goTo source r) = .ok (r.head?, s.goTo source r) := by
  simp [peek, run_rest h]

/-- Characters ahead are counted in the rest. -/
theorem run_peekNth (h : r <:+ source) (n : Nat) :
    (peekNth source n).run (s.goTo source r) = .ok (r[n]?, s.goTo source r) := by
  simp [peekNth, run_rest h]

theorem run_bump (h : c :: r <:+ source) :
    (bump source).run (s.goTo source (c :: r)) = .ok (some c, s.goTo source r) := by
  simp [bump, run_peek h, run_advance_cons h]

theorem run_bump_nil : (bump source).run (s.goTo source []) = .ok (none, s.goTo source []) := by
  simp [bump, run_peek List.nil_suffix]

/-- A text is eaten where it stands, and otherwise nothing is. -/
theorem run_eatText (h : r <:+ source) (text : List Char) :
    (eatText source text).run (s.goTo source r)
      = match Text.strip? text r with
        | some r' => .ok (true, s.goTo source r')
        | none => .ok (false, s.goTo source r) := by
  cases hstrip : Text.strip? text r with
  | some r' =>
    obtain rfl := Class.strip?_iff.1 hstrip
    simp [eatText, run_rest h, run_advance h]
  | none =>
    have hnot : ¬ text <+: r := by
      rintro ⟨r', rfl⟩
      rw [Class.strip?_iff.2 rfl] at hstrip
      cases hstrip
    simp [eatText, run_rest h, hnot]

theorem run_eatText_append (text : List Char) (h : text ++ r <:+ source) :
    (eatText source text).run (s.goTo source (text ++ r)) = .ok (true, s.goTo source r) := by
  rw [run_eatText h, Class.strip?_iff.2 rfl]

theorem run_eatText_of_ne {text : List Char} (h : r <:+ source)
    (hne : ∀ r', r = text ++ r' → False) :
    (eatText source text).run (s.goTo source r) = .ok (false, s.goTo source r) := by
  have hstrip : Text.strip? text r = none :=
    Option.eq_none_iff_forall_ne_some.2 fun r' hr' => hne r' (Class.strip?_iff.1 hr')
  rw [run_eatText h, hstrip]

theorem run_eat (h : c :: r <:+ source) :
    (eat source c).run (s.goTo source (c :: r)) = .ok (true, s.goTo source r) := by
  simp [eat, run_eatText h, Text.strip?]

theorem run_eat_of_ne (h : r <:+ source) (hne : ∀ r', r = c :: r' → False) :
    (eat source c).run (s.goTo source r) = .ok (false, s.goTo source r) := by
  simp [eat, run_eatText h, Text.strip?_eq_none hne]

theorem suffix_of_cons (h : c :: r <:+ source) : r <:+ source := (List.suffix_cons c r).trans h

/-- An action that takes a character and gives what it stands for. -/
theorem run_taking (h : c :: r <:+ source) (a : α) :
    (taking source a).run (s.goTo source (c :: r)) = .ok (a, s.goTo source r) := by
  simp [taking, run_bump h]

/-! ## Numbers -/

/-- What an action gives that reads something or leaves the position as it is. -/
def ifRead (s : Parser) (source r : List Char) :
    Option (α × List Char) → Except Stop (Option α × Parser)
  | some (a, r') => .ok (some a, s.goTo source r')
  | none => .ok (none, s.goTo source r)

@[simp] theorem ifRead_some (a : α) (r' : List Char) :
    ifRead s source r (some (a, r')) = .ok (some a, s.goTo source r') := rfl

@[simp] theorem ifRead_none :
    ifRead s source r (none : Option (α × List Char)) = .ok (none, s.goTo source r) := rfl

theorem toNat_lt_of_isHexDigit (h : Lexeme.isHexDigit c = true) : c.toNat < 0x80 := by
  simp only [Lexeme.isHexDigit, Bool.or_eq_true, Bool.and_eq_true, decide_eq_true_eq, Char.isDigit,
    Char.le_def] at h
  have h9 : '9'.val.toNat = 57 := rfl
  have hf : 'f'.val.toNat = 102 := rfl
  have hF : 'F'.val.toNat = 70 := rfl
  simp only [UInt32.le_iff_toNat_le] at h
  show c.val.toNat < 0x80
  omega

theorem isHexDigit_of_isDigit (h : c.isDigit = true) : Lexeme.isHexDigit c = true := by
  simp [Lexeme.isHexDigit, h]

/-- A digit takes one byte. -/
theorem width_hexDigits {digits : List Char} (h : ∀ c ∈ digits, Lexeme.isHexDigit c = true) :
    Text.width digits = digits.length := by
  induction digits with
  | nil => rfl
  | cons c digits ih =>
    rw [List.forall_mem_cons] at h
    have hsize : c.utf8Size = 1 := by
      rw [Char.utf8Size_eq_one_iff]
      exact Nat.le_of_lt_succ (toNat_lt_of_isHexDigit h.1)
    rw [Text.width_cons, ih h.2, hsize, List.length_cons, Nat.add_comm]

/-- Digits take a byte each, so their number is how far the parser moves. -/
theorem run_digits (h : r <:+ source) {isDigit : Char → Bool}
    (hdigit : ∀ c, isDigit c = true → Lexeme.isHexDigit c = true) :
    (digits source isDigit).run (s.goTo source r) = .ok (r.takeWhile isDigit, s.goTo source r) := by
  have hwidth : Text.width (r.takeWhile isDigit) = (r.takeWhile isDigit).length :=
    width_hexDigits fun c hc => hdigit c (List.mem_takeWhile_imp hc)
  have hslice := @run_slice source (r.takeWhile isDigit) (r.dropWhile isDigit) s
    (by rwa [List.takeWhile_append_dropWhile])
  rw [List.takeWhile_append_dropWhile, hwidth] at hslice
  simp [digits, run_rest h, hslice]

theorem run_advance_digits (h : r <:+ source) {isDigit : Char → Bool}
    (hdigit : ∀ c, isDigit c = true → Lexeme.isHexDigit c = true) :
    (advance (r.takeWhile isDigit).length).run (s.goTo source r)
      = .ok ((), s.goTo source (r.dropWhile isDigit)) := by
  have hwidth : Text.width (r.takeWhile isDigit) = (r.takeWhile isDigit).length :=
    width_hexDigits fun c hc => hdigit c (List.mem_takeWhile_imp hc)
  have hadvance := @run_advance source (r.takeWhile isDigit) (r.dropWhile isDigit) s
    (by rwa [List.takeWhile_append_dropWhile])
  rwa [List.takeWhile_append_dropWhile, hwidth] at hadvance

theorem run_decimal (h : r <:+ source) :
    (decimal source).run (s.goTo source r) = ifRead s source r (Lexeme.decimal? r) := by
  have hdigit (c : Char) (hc : c.isDigit = true) := isHexDigit_of_isDigit hc
  simp only [decimal, StateT.run_bind, run_digits h hdigit, ok_bind, Lexeme.decimal?]
  split
  · rfl
  · simp [run_advance_digits h hdigit]

theorem run_count (h : r <:+ source) :
    (count source).run (s.goTo source r) = ifRead s source r (Lexeme.count? r) := by
  simp only [count, StateT.run_bind, run_decimal h, Lexeme.count?]
  cases Lexeme.decimal? r <;> rfl

/-- If there are not enough digits, the parser goes back. -/
theorem run_hexDigits (h : r <:+ source) (n : Nat) :
    (hexDigits source n).run (s.goTo source r) = ifRead s source r (Lexeme.hex? n r) := by
  simp only [hexDigits, StateT.run_bind, run_position, ok_bind]
  cases hhex : Lexeme.hex? n r with
  | some read =>
    obtain ⟨value, r'⟩ := read
    obtain ⟨digits, rfl, hn, hdigits, rfl⟩ := Lexeme.hex?_eq_some.1 hhex
    have hslice := Text.slice?_position h
    have hadvance := @run_advance source digits r' s h
    rw [width_hexDigits hdigits, hn] at hslice hadvance
    simp [hslice, List.all_eq_true.2 hdigits, hadvance]
  | none =>
    split
    · rename_i digits hslice
      obtain ⟨after, rfl, hn⟩ := Text.of_slice?_position h hslice
      have hnot : digits.all Lexeme.isHexDigit ≠ true := fun hall => by
        have hdigits := List.all_eq_true.1 hall
        rw [Lexeme.hex?_eq_some.2
          ⟨digits, rfl, (width_hexDigits hdigits).symm.trans hn, hdigits, rfl⟩] at hhex
        cases hhex
      rw [if_neg hnot]
      rfl
    · rfl

/-- The parser looks at a digit before it takes it. -/
theorem run_octal (h : r <:+ source) (n value : Nat) :
    (octal source n value).run (s.goTo source r)
      = .ok ((Lexeme.octal n value r).1, s.goTo source (Lexeme.octal n value r).2) := by
  induction n generalizing value r with
  | zero => rfl
  | succ n ih =>
    cases r with
    | nil => simp [octal, run_peek h, Lexeme.octal]
    | cons c r =>
      simp only [octal, StateT.run_bind, run_peek h, ok_bind, List.head?_cons, Lexeme.octal]
      split
      · simp [run_advance_cons h, ih (suffix_of_cons h)]
      · rfl

theorem run_octalOrSelf (h : r <:+ source) :
    (octalOrSelf source).run (s.goTo source r)
      = .ok ((Lexeme.octalOrSelf r).1, s.goTo source (Lexeme.octalOrSelf r).2) := by
  cases r with
  | nil => simp [octalOrSelf, run_peek h, Lexeme.octalOrSelf]
  | cons c r =>
    simp only [octalOrSelf, StateT.run_bind, run_peek h, ok_bind, List.head?_cons,
      Lexeme.octalOrSelf]
    split
    · exact run_octal h 3 0
    · simp [run_advance_cons h]

/-! ## Quantifiers -/

theorem run_closeBraces (h : r <:+ source) (counts : Nat × Option Nat) :
    (closeBraces source counts).run (s.goTo source r)
      = ifRead s source r ((Text.strip? ['}'] r).map (counts, ·)) := by
  simp only [closeBraces, eat, StateT.run_bind, run_eatText h]
  cases Text.strip? ['}'] r <;> rfl

/-- What is no quantifier may be read in part. -/
theorem run_insideBraces (h : r <:+ source) : ∃ r', (insideBraces source).run (s.goTo source r)
    = ifRead s source r' (Lexeme.braces? ('{' :: r)) := by
  simp only [insideBraces, StateT.run_bind, run_count h, Lexeme.braces?]
  cases hleast : Lexeme.count? r with
  | none => exact ⟨_, rfl⟩
  | some read =>
    obtain ⟨least, r1⟩ := read
    have h1 : r1 <:+ source := (Lexeme.suffix_count? hleast).trans h
    simp only [ifRead_some, ok_bind, StateT.run_bind, Option.bind_eq_bind, Option.bind_some]
    split
    · exact ⟨[], by simp [run_eat_of_ne h1, run_closeBraces h1, Text.strip?]⟩
    · have h2 := suffix_of_cons h1
      refine ⟨[], ?_⟩
      simp [run_eat h1, run_peek h2, run_closeBraces h2, Text.strip?]
    · rename_i r2 hclose
      have h2 := suffix_of_cons h1
      have hhead : (r2.head? == some '}') = false := by
        cases r2 with
        | nil => rfl
        | cons c r2 => simpa using fun hc => hclose r2 (by rw [hc])
      simp only [run_eat h1, ok_bind, if_true, StateT.run_bind, run_peek h2, hhead,
        Bool.false_eq_true, if_false, run_count h2]
      cases hmost : Lexeme.count? r2 with
      | none => exact ⟨_, rfl⟩
      | some read =>
        obtain ⟨most, r3⟩ := read
        have h3 : r3 <:+ source := (Lexeme.suffix_count? hmost).trans h2
        simp only [ifRead_some, ok_bind, run_closeBraces h3, Option.bind_some]
        refine ⟨r3, ?_⟩
        split
        · simp [Text.strip?]
        · rename_i hne
          rw [Text.strip?_eq_none hne]
          rfl
    · rename_i hclose _ hcomma
      refine ⟨r1, ?_⟩
      simp [run_eat_of_ne h1 hcomma, run_closeBraces h1, Text.strip?_eq_none hclose]

theorem braces?_eq_none (hne : ∀ r', r = '{' :: r' → False) : Lexeme.braces? r = none := by
  unfold Lexeme.braces?
  split
  · exact absurd rfl (hne _)
  · rfl

/-- A brace that starts no counts is left, wherever its reader stopped. -/
theorem run_braces (h : r <:+ source) :
    (braces source).run (s.goTo source r) = ifRead s source r (Lexeme.braces? r) := by
  by_cases hbrace : ∃ r', r = '{' :: r'
  · obtain ⟨r', rfl⟩ := hbrace
    obtain ⟨r1, hinside⟩ := @run_insideBraces source r' s (suffix_of_cons h)
    simp only [braces, StateT.run_bind, run_position, ok_bind, run_eat h, if_true, hinside]
    cases Lexeme.braces? ('{' :: r') <;> rfl
  · have hne (r' : List Char) (hr : r = '{' :: r') : False := hbrace ⟨r', hr⟩
    simp [braces, run_eat_of_ne h hne, braces?_eq_none hne]

/-- Whether a quantifier follows is found out by reading it and going back. -/
theorem run_atQuantifier (h : r <:+ source) :
    (atQuantifier source).run (s.goTo source r) = .ok (Lexeme.atQuantifier r, s.goTo source r) := by
  simp only [atQuantifier, StateT.run_bind, run_peek h, ok_bind]
  cases r with
  | nil => rfl
  | cons c r =>
    rw [List.head?_cons]
    split
    iterate 3
      next hc =>
        cases hc
        rfl
    · rename_i hc
      cases hc
      have hread : Lexeme.atQuantifier ('{' :: r) = (Lexeme.braces? ('{' :: r)).isSome := rfl
      simp only [StateT.run_bind, run_position, ok_bind, run_braces h, hread]
      cases Lexeme.braces? ('{' :: r) <;> rfl
    · rename_i hstar hplus hmark hbrace
      have hnone : Lexeme.braces? (c :: r) = none :=
        braces?_eq_none fun r' hr => hbrace (by rw [(List.cons.inj hr).1])
      have hnot : Lexeme.atQuantifier (c :: r) = false := by
        unfold Lexeme.atQuantifier
        split
        · rename_i hc
          cases hc
          exact (hstar rfl).elim
        · rename_i hc
          cases hc
          exact (hplus rfl).elim
        · rename_i hc
          cases hc
          exact (hmark rfl).elim
        · rw [hnone]
          rfl
      rw [hnot]
      rfl

end

section
variable {α β : Type} {source r r' : List Char} {setting : Setting} {s : Parser} {c : Char}

/-- What an action gives that reads as a reader does. -/
def outcome (s : Parser) (source : List Char) :
    Except Fault (α × List Char) → Except Stop (α × Parser)
  | .ok (a, r) => .ok (a, s.goTo source r)
  | .error f => .error (.fault ⟨f.cause, Text.position source f.rest⟩)

@[simp] theorem outcome_ok (a : α) (r : List Char) :
    outcome s source (.ok (a, r)) = .ok (a, s.goTo source r) := rfl

@[simp] theorem outcome_error (cause : Cause) (r : List Char) :
    outcome s source (.error ⟨cause, r⟩ : Except Fault (α × List Char))
      = .error (.fault ⟨cause, Text.position source r⟩) := rfl

/-- Counts are read with the faults of the reader of texts, at its offsets. -/
theorem run_counts (h : r <:+ source) :
    (counts source setting).run (s.goTo source r)
      = outcome s source (Lexeme.counts? setting r) := by
  simp only [counts, StateT.run_bind, run_peek h, ok_bind]
  cases r with
  | nil => rfl
  | cons c r =>
    rw [List.head?_cons]
    split
    iterate 3
      next hc =>
        cases hc
        exact run_taking h _
    · rename_i hc
      cases hc
      simp only [StateT.run_bind, run_braces h, Lexeme.counts?]
      cases Lexeme.braces? ('{' :: r) with
      | none =>
        simp only [ifRead_none, ok_bind]
        split <;> rfl
      | some read => rfl
    · rename_i hstar hplus hmark hbrace
      unfold Lexeme.counts?
      split
      · rename_i hc
        cases hc
        exact (hstar rfl).elim
      · rename_i hc
        cases hc
        exact (hplus rfl).elim
      · rename_i hc
        cases hc
        exact (hmark rfl).elim
      · rename_i hc
        cases hc
        exact (hbrace rfl).elim
      · rfl

/-! ## Names -/

/-- The loop over a name stops behind its last part. -/
theorem run_nameFrom (h : r <:+ source) {name : List Char} {fuel : Nat} (hfuel : r.length ≤ fuel)
    (hname : name ≠ []) :
    (nameFrom source fuel name).run (s.goTo source r)
      = .ok (name ++ r.takeWhile Lexeme.isNamePart,
          s.goTo source (r.dropWhile Lexeme.isNamePart)) := by
  induction r generalizing name fuel with
  | nil =>
    unfold nameFrom
    simp [run_peek h]
  | cons c r ih =>
    obtain ⟨fuel, rfl⟩ : ∃ k, fuel = k + 1 :=
      Nat.exists_eq_succ_of_ne_zero (Nat.ne_of_gt (Nat.lt_of_lt_of_le (Nat.succ_pos _) hfuel))
    have hempty : name.isEmpty = false := by simpa using hname
    unfold nameFrom
    simp only [StateT.run_bind, run_peek h, ok_bind, List.head?_cons, hempty, Bool.false_eq_true,
      if_false]
    split
    · rename_i hpart
      simp only [StateT.run_bind, run_advance_cons h, ok_bind]
      rw [ih (suffix_of_cons h) (Nat.le_of_succ_le_succ hfuel) (by simp),
        List.takeWhile_cons_of_pos hpart, List.dropWhile_cons_of_pos hpart, List.append_assoc]
      rfl
    · rename_i hpart
      rw [List.takeWhile_cons_of_neg hpart, List.dropWhile_cons_of_neg hpart, List.append_nil]
      rfl

/-- A name that breaks off is reported where the parser stands then. -/
theorem run_groupName (h : r <:+ source) :
    (groupName source).run (s.goTo source r) = outcome s source (Lexeme.groupName r) := by
  simp only [groupName, StateT.run_bind, run_rest h, ok_bind]
  cases r with
  | nil =>
    unfold nameFrom
    simp [run_peek h, Lexeme.groupName]
  | cons c r =>
    unfold nameFrom
    simp only [StateT.run_bind, run_peek h, ok_bind, List.head?_cons, List.length_cons,
      List.isEmpty_nil, if_true, Lexeme.groupName]
    split
    · have hr := suffix_of_cons h
      have hdrop : r.dropWhile Lexeme.isNamePart <:+ source := (List.dropWhile_suffix _).trans hr
      simp only [StateT.run_bind, run_advance_cons h, ok_bind, List.nil_append,
        run_nameFrom hr (Nat.le_refl _) (List.cons_ne_nil c []), List.cons_append,
        List.isEmpty_cons, Bool.false_eq_true, if_false]
      split
      · rename_i after hafter
        rw [hafter] at hdrop ⊢
        simp [run_eat hdrop]
      · rename_i hne
        simp [run_eat_of_ne hdrop hne]
    · rfl

/-- A property is read between two positions, both of them found before it is cut out. -/
theorem run_property (h : r <:+ source) (negate : Bool) :
    (property source setting negate).run (s.goTo source r)
      = outcome s source (Lexeme.property setting negate r) := by
  unfold Lexeme.property
  split
  · rename_i r
    have hr := suffix_of_cons h
    simp only [property, StateT.run_bind, run_eat h, ok_bind, if_true, run_rest hr]
    cases hdrop : r.dropWhile (· != '}') with
    | nil => rfl
    | cons close after =>
      have hclose := List.head?_dropWhile_not (· != '}') r
      have hsplit := List.takeWhile_append_dropWhile (p := (· != '}')) (l := r)
      rw [hdrop] at hclose hsplit
      simp only [List.head?_cons, bne_eq_false_iff_eq] at hclose
      subst hclose
      generalize r.takeWhile (· != '}') = body at hsplit
      subst hsplit
      have hadvance : (advance (Text.width body + 1)).run (s.goTo source (body ++ '}' :: after))
          = .ok ((), s.goTo source after) := by
        have hwhole := @run_advance source (body ++ ['}']) after s (by simpa using hr)
        rwa [Text.width_append, List.append_assoc] at hwhole
      simp only [StateT.run_bind, run_slice hr, ok_bind]
      cases Lexeme.propertyParts? body with
      | none => rfl
      | some parts =>
        simp only
        split
        · rfl
        · rw [StateT.run_bind, hadvance]
          rfl
  · rename_i hne
    simp [property, run_eat_of_ne h hne]

/-! ## Escapes -/

theorem run_setEscape (h : r <:+ source) :
    (setEscape source setting).run (s.goTo source r)
      = outcome s source (Lexeme.shorthand? setting r) := by
  simp only [setEscape, StateT.run_bind, run_peek h, ok_bind]
  cases r with
  | nil => rfl
  | cons c r =>
    rw [List.head?_cons]
    split
    iterate 6
      next hc =>
        cases hc
        exact run_taking h _
    · rename_i hd hD hs hS hw hW hc
      cases hc
      rw [Lexeme.shorthand?]
      · split
        · simp only [StateT.run_bind, run_bump h, ok_bind, run_property (suffix_of_cons h)]
          cases Lexeme.property setting (c == 'P') r <;> rfl
        · rfl
      all_goals
        rintro rfl
        contradiction
    · contradiction

theorem run_bracedCode (h : '{' :: r <:+ source) :
    (bracedCode source).run (s.goTo source ('{' :: r))
      = outcome s source (match Lexeme.bracedCode? r with
        | some read => .ok read
        | none => .error ⟨.unicodeEscape, '{' :: r⟩) := by
  have hr := suffix_of_cons h
  have hafter : r.dropWhile Lexeme.isHexDigit <:+ source := (List.dropWhile_suffix _).trans hr
  have hdigit (c : Char) (hc : Lexeme.isHexDigit c = true) := hc
  simp only [bracedCode, StateT.run_bind, run_position, ok_bind, run_bump h, run_digits hr hdigit,
    run_advance_digits hr hdigit]
  by_cases hclose : ∃ after, r.dropWhile Lexeme.isHexDigit = '}' :: after
  · obtain ⟨after, hclose⟩ := hclose
    simp only [Lexeme.bracedCode?, hclose]
    rw [hclose] at hafter
    split
    · simp [run_eat hafter]
    · rfl
  · have hne (after : List Char) (heq : r.dropWhile Lexeme.isHexDigit = '}' :: after) : False :=
      hclose ⟨after, heq⟩
    have hnone : Lexeme.bracedCode? r = none := by
      unfold Lexeme.bracedCode?
      simp only
    rw [hnone]
    split
    · simp [run_eat_of_ne hafter hne]
    · rfl

/-- What is no second surrogate may be read in part. -/
theorem run_trailSurrogate (h : r <:+ source) : ∃ r',
    (trailSurrogate source).run (s.goTo source r)
      = ifRead s source r' (Lexeme.trailSurrogate? r) := by
  simp only [trailSurrogate, StateT.run_bind, run_eatText h]
  cases hstrip : Text.strip? ['\\', 'u'] r with
  | none =>
    have hnone : Lexeme.trailSurrogate? r = none := by
      unfold Lexeme.trailSurrogate?
      split
      · cases hstrip
      · rfl
    rw [hnone]
    exact ⟨r, rfl⟩
  | some r1 =>
    obtain rfl := Class.strip?_iff.1 hstrip
    have h1 : r1 <:+ source := (List.suffix_append _ _).trans h
    simp only [ok_bind, if_true, StateT.run_bind, run_hexDigits h1, List.cons_append,
      List.nil_append, Lexeme.trailSurrogate?]
    cases Lexeme.hex? 4 r1 with
    | none => exact ⟨r1, rfl⟩
    | some read =>
      obtain ⟨trail, r2⟩ := read
      refine ⟨r2, ?_⟩
      simp only [ifRead_some, ok_bind]
      split <;> rfl

/-- Where the digits do not follow, `u` stands for itself and the parser is behind it. -/
theorem run_unicodeEscape (h : r <:+ source) :
    ((fun value => value.getD 'u'.toNat) <$> unicodeEscape source setting).run (s.goTo source r)
      = outcome s source (Lexeme.unicodeEscape setting r) := by
  simp only [StateT.run_map, unicodeEscape, StateT.run_bind, run_peek h, ok_bind]
  by_cases hbrace : setting.strict = true ∧ r.head? = some '{'
  · obtain ⟨hstrict, hhead⟩ := hbrace
    obtain ⟨r, rfl⟩ := List.head?_eq_some_iff.1 hhead
    have hread : Lexeme.unicodeEscape setting ('{' :: r) = match Lexeme.bracedCode? r with
        | some read => .ok read
        | none => .error ⟨.unicodeEscape, '{' :: r⟩ := by
      rw [Lexeme.unicodeEscape]
      exact if_pos hstrict
    rw [hread]
    simp only [hstrict, List.head?_cons, beq_self_eq_true, Bool.and_self, if_true, StateT.run_bind,
      run_bracedCode h]
    cases Lexeme.bracedCode? r <;> rfl
  · have hnot : (setting.strict && r.head? == some '{') = false := by simpa using hbrace
    rw [Lexeme.unicodeEscape_eq setting fun hstrict hhead => hbrace ⟨hstrict, hhead⟩]
    simp only [hnot, Bool.false_eq_true, if_false, StateT.run_bind, run_hexDigits h,
      Lexeme.fourDigits]
    cases hhex : Lexeme.hex? 4 r with
    | none =>
      simp only [ifRead_none, ok_bind]
      split <;> rfl
    | some read =>
      obtain ⟨lead, after⟩ := read
      have hafter : after <:+ source := (Lexeme.suffix_hex? hhex).trans h
      simp only [ifRead_some, ok_bind]
      split
      · obtain ⟨r1, htrail⟩ := @run_trailSurrogate source after s hafter
        simp only [StateT.run_bind, run_position, ok_bind, htrail]
        cases Lexeme.trailSurrogate? after with
        | none => simp
        | some read =>
          obtain ⟨trail, r2⟩ := read
          rw [ifRead_some, ok_bind, StateT.run_pure, pure_eq_ok, ok_map, Option.getD_some,
            outcome_ok]
      · rfl

theorem run_controlEscape (h : r <:+ source) (inClass : Bool) :
    (controlEscape source setting inClass (Text.position source r')).run (s.goTo source r)
      = outcome s source (Lexeme.controlEscape setting inClass r' r) := by
  simp only [controlEscape, StateT.run_bind, run_peek h, ok_bind]
  cases r with
  | nil =>
    simp only [List.head?_nil, Lexeme.controlEscape]
    split <;> rfl
  | cons l r =>
    simp only [List.head?_cons, Lexeme.controlEscape]
    split
    · exact run_taking h _
    · split <;> rfl

/-- The reader of escapes at a position and the one of texts agree, in their faults too. -/
theorem run_characterEscape (h : r <:+ source) (inClass : Bool) :
    (characterEscape source setting inClass).run (s.goTo source r)
      = outcome s source (Lexeme.characterEscape setting inClass r) := by
  cases r with
  | nil => simp [characterEscape, run_bump_nil, Lexeme.characterEscape]
  | cons c r =>
    have hr := suffix_of_cons h
    simp only [characterEscape, StateT.run_bind, run_position, ok_bind, run_bump h]
    split
    · contradiction
    iterate 5
      next hc =>
        cases hc
        rfl
    · rename_i hc
      cases hc
      exact run_controlEscape hr inClass
    · rename_i hc
      cases hc
      simp only [StateT.run_bind, run_hexDigits hr, Lexeme.characterEscape]
      cases Lexeme.hex? 2 r with
      | none =>
        simp only [ifRead_none, ok_bind]
        split <;> rfl
      | some read => rfl
    · rename_i hc
      cases hc
      exact run_unicodeEscape hr
    · rename_i ht hn hv hf hrr hcc hx hu hc
      cases hc
      rw [Lexeme.characterEscape_eq]
      · simp only [StateT.run_bind, run_peek hr, ok_bind]
        split
        · rfl
        · split
          · split
            · rfl
            · simp only [StateT.run_bind, run_seek, ok_bind, run_octalOrSelf h]
              rfl
          · split
            · rfl
            · split
              · split <;> rfl
              · split <;> rfl
      · simp only [List.mem_cons, List.not_mem_nil, or_false, not_or]
        refine ⟨?_, ?_, ?_, ?_, ?_, ?_, ?_, ?_⟩ <;>
          (rintro rfl; contradiction)

end

end Parser

end RegexAudit
