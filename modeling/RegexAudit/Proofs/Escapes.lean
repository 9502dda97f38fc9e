import RegexAudit.Proofs.Lexemes
import RegexAudit.Syntax.Pattern

/-!
# Escapes

What the readers of escapes can do, said once and in both directions. The rules of a relation are the
ways to read the text after a backslash:

    characterEscape setting inClass r = .ok (n, rest)  ↔  CharacterEscape setting inClass r n rest
    Pattern.escaped setting r = .ok (n, rest)          ↔  Pattern.Escape setting r n rest

What holds of escapes is proved rule by rule, without the order in which the readers try them.
-/

namespace RegexAudit

namespace Lexeme

variable {setting : Setting} {r rest after : List Char} {n : Nat}

/-! ## Sets -/

/-- The letters that write a set on their own, with what they write. -/
def sets : List (Char × Shorthand) :=
  [('d', .digit false), ('D', .digit true), ('s', .space false), ('S', .space true),
    ('w', .word false), ('W', .word true)]

theorem shorthand?_of_mem {c : Char} {set : Shorthand} (h : (c, set) ∈ sets) :
    set.text = ['\\', c] ∧ ∀ setting r, shorthand? setting (c :: r) = .ok (some set, r) := by
  simp only [sets, List.mem_cons, List.not_mem_nil, or_false, Prod.mk.injEq] at h
  obtain ⟨rfl, rfl⟩ | ⟨rfl, rfl⟩ | ⟨rfl, rfl⟩ | ⟨rfl, rfl⟩ | ⟨rfl, rfl⟩ | ⟨rfl, rfl⟩ := h <;>
    exact ⟨rfl, fun _ _ => rfl⟩

/-- A letter that stands for a set is a lexeme of its own; any other is for the reader of properties
or for no set. -/
theorem shorthand?_cons (c : Char) :
    (∃ set, (c, set) ∈ sets ∧ ∀ setting r, shorthand? setting (c :: r) = .ok (some set, r)) ∨
      (∀ set, (c, set) ∉ sets) ∧ ∀ setting r, shorthand? setting (c :: r) =
        if setting.strict && (c == 'p' || c == 'P') then
          (property setting (c == 'P') r).map fun (set, r) => (some set, r)
        else .ok (none, c :: r) := by
  by_cases hc : ∃ set, (c, set) ∈ sets
  · obtain ⟨set, hset⟩ := hc
    exact .inl ⟨set, hset, (shorthand?_of_mem hset).2⟩
  · have hc := not_exists.1 hc
    refine .inr ⟨hc, fun setting r => ?_⟩
    simp only [sets, List.mem_cons, List.not_mem_nil, or_false, Prod.mk.injEq, not_or,
      not_and] at hc
    rw [shorthand?]
    · split
      · cases property setting (c == 'P') r <;> rfl
      · rfl
    all_goals
      rintro rfl
      simp at hc

/-- A set is a letter of its own, or a property with `u` or `v`. -/
theorem shorthand?_iff {set : Shorthand} : shorthand? setting r = .ok (some set, rest) ↔
    ∃ c tail, r = c :: tail ∧ ((c, set) ∈ sets ∧ rest = tail ∨
      setting.strict = true ∧ (c = 'p' ∨ c = 'P') ∧
        property setting (c == 'P') tail = .ok (set, rest)) := by
  constructor
  · intro h
    cases r with
    | nil => cases h
    | cons c tail =>
      refine ⟨c, tail, rfl, ?_⟩
      rcases shorthand?_cons c with ⟨set', hset, hread⟩ | ⟨-, hread⟩
      · rw [hread] at h
        cases h
        exact .inl ⟨hset, rfl⟩
      · rw [hread] at h
        split at h
        · rename_i hp
          simp only [Bool.and_eq_true, Bool.or_eq_true, beq_iff_eq] at hp
          obtain ⟨_, hproperty, heq⟩ := map_eq_ok.1 h
          cases heq
          exact .inr ⟨hp.1, hp.2, hproperty⟩
        · cases h
  · rintro ⟨c, tail, rfl, ⟨hset, rfl⟩ | ⟨hstrict, hp, hproperty⟩⟩
    · exact (shorthand?_of_mem hset).2 setting rest
    · rcases shorthand?_cons c with ⟨set', hset, -⟩ | ⟨-, hread⟩
      · rcases hp with rfl | rfl <;> simp [sets] at hset
      · rw [hread, if_pos (by simp [hstrict, hp]), hproperty]
        rfl

/-- Whether a set is written is told by the first character. -/
theorem shorthand?_none_iff {c : Char} : shorthand? setting (c :: r) = .ok (none, rest) ↔
    rest = c :: r ∧ (∀ set, (c, set) ∉ sets) ∧ (setting.strict = true → c ≠ 'p' ∧ c ≠ 'P') := by
  rcases shorthand?_cons c with ⟨set, hset, hread⟩ | ⟨hother, hread⟩
  · rw [hread]
    exact ⟨fun h => (nomatch h), fun h => absurd hset (h.2.1 set)⟩
  · rw [hread]
    constructor
    · intro h
      split at h
      · obtain ⟨_, -, heq⟩ := map_eq_ok.1 h
        cases heq
      · rename_i hp
        cases h
        exact ⟨rfl, hother, fun hstrict => by simpa [hstrict] using hp⟩
    · rintro ⟨rfl, -, hp⟩
      rw [if_neg]
      simpa using hp

theorem shorthand?_none (h : shorthand? setting r = .ok (none, after)) : after = r := by
  cases r with
  | nil =>
    cases h
    rfl
  | cons c r => exact (shorthand?_none_iff.1 h).1

theorem shorthand?_source {set : Shorthand} (h : shorthand? setting r = .ok (some set, rest)) :
    '\\' :: r = set.text ++ rest := by
  obtain ⟨c, tail, rfl, ⟨hset, rfl⟩ | ⟨-, hp, hproperty⟩⟩ := shorthand?_iff.1 h
  · rw [(shorthand?_of_mem hset).1]
    rfl
  · rw [← property_source hproperty]
    rcases hp with rfl | rfl <;> rfl

/-- Letters are no digits. -/
theorem not_mem_of_isDigit {c : Char} (h : c.isDigit = true) :
    c ∉ ['d', 'D', 's', 'S', 'w', 'W', 'p', 'P', 'k'] := by
  intro hc
  simp only [List.mem_cons, List.not_mem_nil, or_false] at hc
  rcases hc with rfl | rfl | rfl | rfl | rfl | rfl | rfl | rfl | rfl <;> exact absurd h (by decide)

/-- No set is written with a digit. -/
theorem shorthand?_digit {c : Char} (h : c.isDigit = true) (r : List Char) :
    shorthand? setting (c :: r) = .ok (none, c :: r) := by
  have hletter := not_mem_of_isDigit h
  simp only [List.mem_cons, List.not_mem_nil, or_false, not_or] at hletter
  unfold shorthand?
  split <;> simp_all

/-! ## Code points -/

theorem trailSurrogate?_eq_some : trailSurrogate? r = some (n, after) ↔
    ∃ tail, r = '\\' :: 'u' :: tail ∧ hex? 4 tail = some (n, after) ∧ 0xDC00 ≤ n ∧ n ≤ 0xDFFF := by
  constructor
  · intro h
    unfold trailSurrogate? at h
    split at h
    · rename_i tail
      split at h
      · rename_i hhex
        split at h
        · rename_i hrange
          cases h
          simp only [Bool.and_eq_true, decide_eq_true_eq] at hrange
          exact ⟨tail, rfl, hhex, hrange⟩
        · cases h
      · cases h
    · cases h
  · rintro ⟨tail, rfl, hhex, hrange⟩
    simp [trailSurrogate?, hhex, hrange]

theorem suffix_trailSurrogate? (h : trailSurrogate? r = some (n, after)) : after <:+ r := by
  obtain ⟨tail, rfl, hhex, -⟩ := trailSurrogate?_eq_some.1 h
  exact (suffix_hex? hhex).trans ((List.suffix_cons _ _).trans (List.suffix_cons _ _))

theorem isHexDigit_close : isHexDigit '}' = false := by decide

theorem bracedCode?_eq_some : bracedCode? r = some (n, after) ↔
    ∃ digits, r = digits ++ '}' :: after ∧ digits ≠ [] ∧ (∀ c ∈ digits, isHexDigit c = true) ∧
      n = numeral 16 digits ∧ n ≤ 0x10FFFF := by
  constructor
  · intro h
    have hbody := List.takeWhile_append_dropWhile (p := isHexDigit) (l := r)
    unfold bracedCode? at h
    simp only at h
    split at h
    · rename_i hdrop
      split at h
      · rename_i hcode
        cases h
        rw [hdrop] at hbody
        simp only [Bool.and_eq_true, Bool.not_eq_true', List.isEmpty_eq_false_iff,
          decide_eq_true_eq] at hcode
        exact ⟨_, hbody.symm, hcode.1, fun c hc => List.mem_takeWhile_imp hc, rfl, hcode.2⟩
      · cases h
    · cases h
  · rintro ⟨digits, rfl, hne, hdigits, rfl, hle⟩
    have hdrop : (digits ++ '}' :: after).dropWhile isHexDigit = '}' :: after := by
      rw [List.dropWhile_append_of_pos hdigits, List.dropWhile_cons_of_neg]
      simp [isHexDigit_close]
    have htake : (digits ++ '}' :: after).takeWhile isHexDigit = digits := by
      rw [List.takeWhile_append_of_pos hdigits, List.takeWhile_cons_of_neg, List.append_nil]
      simp [isHexDigit_close]
    simp [bracedCode?, hdrop, htake, hne, hle]

theorem suffix_bracedCode? (h : bracedCode? r = some (n, after)) : after <:+ r := by
  obtain ⟨digits, rfl, -⟩ := bracedCode?_eq_some.1 h
  exact (List.suffix_cons _ _).trans (List.suffix_append _ _)

/-- What is read after a backslash and `u`, with `u` or `v` if `strict` is set: a code point in
braces, two surrogates, four digits, or nothing. -/
inductive UnicodeEscape (strict : Bool) : (text : List Char) → (n : Nat) → (rest : List Char) → Prop
  | braced {r rest : List Char} {n : Nat} : strict = true → bracedCode? r = some (n, rest) →
    UnicodeEscape strict ('{' :: r) n rest
  | pair {r after rest : List Char} {lead trail : Nat} : strict = true →
    hex? 4 r = some (lead, after) → 0xD800 ≤ lead → lead ≤ 0xDBFF →
    trailSurrogate? after = some (trail, rest) →
    UnicodeEscape strict r (joinSurrogates lead trail) rest
  | single {r rest : List Char} {n : Nat} : hex? 4 r = some (n, rest) →
    (strict = true → 0xD800 ≤ n → n ≤ 0xDBFF → trailSurrogate? rest = none) →
    UnicodeEscape strict r n rest
  | self {r : List Char} : strict = false → hex? 4 r = none → UnicodeEscape strict r 'u'.toNat r

theorem not_brace_of_hex? {k : Nat} (h : hex? (k + 1) r = some (n, after)) :
    r.head? ≠ some '{' := by
  obtain ⟨digits, rfl, hlength, hdigits, -⟩ := hex?_eq_some.1 h
  obtain ⟨d, digits, rfl⟩ := List.exists_cons_of_length_eq_add_one hlength
  rintro ⟨⟩
  exact absurd (hdigits '{' List.mem_cons_self) (by decide)

theorem fourDigits_iff : fourDigits setting r = .ok (n, rest) ↔
    UnicodeEscape setting.strict r n rest ∧ (setting.strict = true → r.head? ≠ some '{') := by
  constructor
  · intro h
    unfold fourDigits at h
    split at h
    · rename_i hhex
      split at h
      · cases h
      · rename_i hlenient
        cases h
        exact ⟨.self (Bool.eq_false_iff.2 hlenient) hhex, fun hstrict => absurd hstrict hlenient⟩
    · rename_i lead after hhex
      refine ⟨?_, fun _ => not_brace_of_hex? hhex⟩
      split at h
      · rename_i hlead
        simp only [Bool.and_eq_true, decide_eq_true_eq] at hlead
        split at h
        · rename_i htrail
          obtain ⟨rfl, rfl⟩ := Prod.mk.inj (Except.ok.inj h)
          exact .pair hlead.1.1 hhex hlead.1.2 hlead.2 htrail
        · rename_i htrail
          cases h
          exact .single hhex fun _ _ _ => htrail
      · rename_i hlead
        cases h
        simp only [Bool.and_eq_true, decide_eq_true_eq, not_and] at hlead
        exact .single hhex fun hstrict hlow hhigh => absurd hhigh (hlead ⟨hstrict, hlow⟩)
  · rintro ⟨h, hhead⟩
    cases h with
    | braced hstrict _ => exact absurd rfl (hhead hstrict)
    | pair hstrict hhex hlow hhigh htrail => simp [fourDigits, hhex, hstrict, hlow, hhigh, htrail]
    | single hhex htrail =>
      simp only [fourDigits, hhex]
      split
      · rename_i hlead
        simp only [Bool.and_eq_true, decide_eq_true_eq] at hlead
        rw [htrail hlead.1.1 hlead.1.2 hlead.2]
      · rfl
    | self hlenient hhex => simp [fourDigits, hhex, hlenient]

/-- Without a brace the digits are read at once. -/
theorem unicodeEscape_eq (setting : Setting) {r : List Char}
    (h : setting.strict = true → r.head? ≠ some '{') :
    unicodeEscape setting r = fourDigits setting r := by
  unfold unicodeEscape
  split
  · rw [if_neg fun hstrict => h hstrict rfl]
  · rfl

theorem unicodeEscape_iff :
    unicodeEscape setting r = .ok (n, rest) ↔ UnicodeEscape setting.strict r n rest := by
  by_cases hbrace : setting.strict = true ∧ r.head? = some '{'
  · obtain ⟨hstrict, hhead⟩ := hbrace
    obtain ⟨r, rfl⟩ := List.head?_eq_some_iff.1 hhead
    simp only [unicodeEscape, hstrict, if_true]
    constructor
    · intro h
      split at h
      · rename_i hcode
        cases h
        exact .braced rfl hcode
      · cases h
    · intro h
      cases h with
      | braced _ hcode => rw [hcode]
      | pair _ hhex _ _ _ | single hhex _ => exact absurd rfl (not_brace_of_hex? hhex)
      | self hlenient _ => cases hlenient
  · have hbrace : setting.strict = true → r.head? ≠ some '{' := fun hstrict hhead =>
      hbrace ⟨hstrict, hhead⟩
    rw [unicodeEscape_eq setting hbrace]
    exact fourDigits_iff.trans (and_iff_left hbrace)

theorem UnicodeEscape.suffix {strict : Bool} (h : UnicodeEscape strict r n rest) : rest <:+ r := by
  cases h with
  | braced _ hcode => exact (suffix_bracedCode? hcode).trans (List.suffix_cons _ _)
  | pair _ hhex _ _ htrail => exact (suffix_trailSurrogate? htrail).trans (suffix_hex? hhex)
  | single hhex _ => exact suffix_hex? hhex
  | self _ _ => exact List.suffix_refl _

/-! ## Characters -/

/-- The letters that write a control on their own, with what they write. -/
def controls : List (Char × Nat) :=
  [('t', 0x09), ('n', 0x0A), ('v', 0x0B), ('f', 0x0C), ('r', 0x0D)]

/-- Whether `l` is read together with the letter `c` before it. -/
def isControlLetter (setting : Setting) (inClass : Bool) (l : Char) : Bool :=
  l.isAlpha || (inClass && !setting.strict && (l.isDigit || l == '_'))

/-- A character after a backslash stands for itself. -/
structure IsEscaped (setting : Setting) (inClass : Bool) (c : Char) : Prop where
  meaningless : c ∉ ['t', 'n', 'v', 'f', 'r', 'c', 'x', 'u']
  noDigit : c.isDigit = false
  noBackspace : inClass = true → c ≠ 'b'
  allowed : setting.strict = true → mayEscape setting inClass c = true
  unnamed : setting.strict = false → c = 'k' → setting.named = false

/-- What is read after a backslash as a character. -/
inductive CharacterEscape (setting : Setting) (inClass : Bool) :
    (text : List Char) → (n : Nat) → (rest : List Char) → Prop
  | control {c : Char} {n : Nat} {r : List Char} : (c, n) ∈ controls →
    CharacterEscape setting inClass (c :: r) n r
  | letter {l : Char} {r : List Char} : isControlLetter setting inClass l = true →
    CharacterEscape setting inClass ('c' :: l :: r) (l.toNat % 32) r
  | backslash {r : List Char} : setting.strict = false →
    r.head?.any (isControlLetter setting inClass) = false →
    CharacterEscape setting inClass ('c' :: r) '\\'.toNat ('c' :: r)
  | hex {r rest : List Char} {n : Nat} : hex? 2 r = some (n, rest) →
    CharacterEscape setting inClass ('x' :: r) n rest
  | plainHex {r : List Char} : setting.strict = false → hex? 2 r = none →
    CharacterEscape setting inClass ('x' :: r) 'x'.toNat r
  | unicode {r rest : List Char} {n : Nat} : UnicodeEscape setting.strict r n rest →
    CharacterEscape setting inClass ('u' :: r) n rest
  | zero {r : List Char} : r.head?.any Char.isDigit = false →
    CharacterEscape setting inClass ('0' :: r) 0 r
  | octal {c : Char} {r rest : List Char} {n : Nat} : setting.strict = false → c.isDigit = true →
    (c = '0' → r.head?.any Char.isDigit = true) → octalOrSelf (c :: r) = (n, rest) →
    CharacterEscape setting inClass (c :: r) n rest
  | backspace {r : List Char} : inClass = true → CharacterEscape setting inClass ('b' :: r) 0x08 r
  | self {c : Char} {r : List Char} : IsEscaped setting inClass c →
    CharacterEscape setting inClass (c :: r) c.toNat r

/-- Characters that are none of these letters are told apart by tests. -/
theorem characterEscape_eq {inClass : Bool} {c : Char}
    (h : c ∉ ['t', 'n', 'v', 'f', 'r', 'c', 'x', 'u']) (r : List Char) :
    characterEscape setting inClass (c :: r) =
      if c == '0' && !(r.head?.any Char.isDigit) then .ok (0, r)
      else if c.isDigit then
        if setting.strict then .error ⟨.invalidEscape, c :: r⟩ else .ok (octalOrSelf (c :: r))
      else if inClass && c == 'b' then .ok (0x08, r)
      else if setting.strict then
        if mayEscape setting inClass c then .ok (c.toNat, r)
        else .error ⟨.invalidEscape, c :: r⟩
      else if c == 'k' && setting.named then .error ⟨.namedReference, c :: r⟩
      else .ok (c.toNat, r) := by
  simp only [List.mem_cons, List.not_mem_nil, or_false, not_or] at h
  obtain ⟨ht, hn, hv, hf, hr, hc, hx, hu⟩ := h
  rw [characterEscape]
  all_goals assumption

theorem controlEscape_cases {inClass : Bool}
    (h : controlEscape setting inClass ('c' :: r) r = .ok (n, rest)) :
    CharacterEscape setting inClass ('c' :: r) n rest := by
  unfold controlEscape at h
  split at h
  · rename_i l after
    split at h
    · rename_i hletter
      cases h
      exact .letter hletter
    · rename_i hletter
      split at h
      · cases h
      · rename_i hlenient
        cases h
        exact .backslash (Bool.eq_false_iff.2 hlenient) (Bool.eq_false_iff.2 hletter)
  · split at h
    · cases h
    · rename_i hlenient
      cases h
      exact .backslash (Bool.eq_false_iff.2 hlenient) rfl

/-- A character that is none of these letters is zero, starts an octal number, is a backspace or
stands for itself. -/
theorem CharacterEscape.of_symbol {inClass : Bool} {c : Char} {r : List Char}
    (hc : c ∉ ['t', 'n', 'v', 'f', 'r', 'c', 'x', 'u'])
    (h : characterEscape setting inClass (c :: r) = .ok (n, rest)) :
    CharacterEscape setting inClass (c :: r) n rest := by
  rw [characterEscape_eq hc] at h
  split at h
  · rename_i hzero
    simp only [Bool.and_eq_true, beq_iff_eq, Bool.not_eq_true'] at hzero
    obtain ⟨rfl, hdigit⟩ := hzero
    cases h
    exact .zero hdigit
  · rename_i hzero
    split at h
    · rename_i hdigit
      split at h
      · cases h
      · rename_i hlenient
        refine .octal (Bool.eq_false_iff.2 hlenient) hdigit ?_ (Except.ok.inj h)
        rintro rfl
        simpa using hzero
    · rename_i hdigit
      split at h
      · rename_i hb
        simp only [Bool.and_eq_true, beq_iff_eq] at hb
        obtain ⟨hclass, rfl⟩ := hb
        cases h
        exact .backspace hclass
      · rename_i hb
        have hself (hallowed : setting.strict = true → mayEscape setting inClass c = true)
            (hunnamed : setting.strict = false → c = 'k' → setting.named = false) :
            CharacterEscape setting inClass (c :: r) c.toNat r :=
          .self ⟨hc, Bool.eq_false_iff.2 hdigit, by simpa using hb, hallowed, hunnamed⟩
        split at h
        · rename_i hstrict
          split at h
          · rename_i hmay
            cases h
            exact hself (fun _ => hmay) fun hlenient => by simp [hstrict] at hlenient
          · cases h
        · rename_i hlenient
          split at h
          · cases h
          · rename_i hk
            cases h
            exact hself (fun hstrict => absurd hstrict hlenient) fun _ => by simpa using hk

theorem CharacterEscape.of_ok {inClass : Bool}
    (h : characterEscape setting inClass r = .ok (n, rest)) :
    CharacterEscape setting inClass r n rest := by
  cases r with
  | nil => cases h
  | cons c r =>
    by_cases hc : c ∈ ['t', 'n', 'v', 'f', 'r', 'c', 'x', 'u']
    · have hcontrol {c : Char} {m : Nat} (hm : (c, m) ∈ controls)
          (h : (.ok (m, r) : Except Fault (Nat × List Char)) = .ok (n, rest)) :
          CharacterEscape setting inClass (c :: r) n rest := by
        cases h
        exact .control hm
      simp only [List.mem_cons, List.not_mem_nil, or_false] at hc
      rcases hc with rfl | rfl | rfl | rfl | rfl | rfl | rfl | rfl
      · exact hcontrol (by decide) h
      · exact hcontrol (by decide) h
      · exact hcontrol (by decide) h
      · exact hcontrol (by decide) h
      · exact hcontrol (by decide) h
      · exact controlEscape_cases h
      · simp only [characterEscape] at h
        split at h
        · rename_i hhex
          cases h
          exact .hex hhex
        · rename_i hhex
          split at h
          · cases h
          · rename_i hlenient
            cases h
            exact .plainHex (Bool.eq_false_iff.2 hlenient) hhex
      · exact .unicode (unicodeEscape_iff.1 h)
    · exact .of_symbol hc h

theorem CharacterEscape.ok {inClass : Bool} (h : CharacterEscape setting inClass r n rest) :
    characterEscape setting inClass r = .ok (n, rest) := by
  cases h with
  | control hm =>
    simp only [controls, List.mem_cons, List.not_mem_nil, or_false, Prod.mk.injEq] at hm
    obtain ⟨rfl, rfl⟩ | ⟨rfl, rfl⟩ | ⟨rfl, rfl⟩ | ⟨rfl, rfl⟩ | ⟨rfl, rfl⟩ := hm <;> rfl
  | letter hletter => exact if_pos hletter
  | backslash hlenient hletter =>
    rename_i r
    cases r with
    | nil => simp [characterEscape, controlEscape, hlenient]
    | cons l after =>
      have hletter : isControlLetter setting inClass l = false := hletter
      simp only [characterEscape, controlEscape]
      rw [← isControlLetter, hletter, hlenient]
      rfl
  | hex hhex => simp [characterEscape, hhex]
  | plainHex hlenient hhex => simp [characterEscape, hhex, hlenient]
  | unicode hcode => exact unicodeEscape_iff.2 hcode
  | zero hdigit =>
    rw [characterEscape_eq (by decide), hdigit]
    rfl
  | octal hlenient hdigit hzero hoctal =>
    rename_i c r
    have hc : c ∉ ['t', 'n', 'v', 'f', 'r', 'c', 'x', 'u'] := by
      intro hc
      simp only [List.mem_cons, List.not_mem_nil, or_false] at hc
      rcases hc with rfl | rfl | rfl | rfl | rfl | rfl | rfl | rfl <;>
        exact absurd hdigit (by decide)
    rw [characterEscape_eq hc]
    split
    · rename_i hzero'
      simp only [Bool.and_eq_true, beq_iff_eq] at hzero'
      rw [hzero hzero'.1] at hzero'
      cases hzero'.2
    · simp [hlenient, hoctal]
  | backspace hclass =>
    rw [characterEscape_eq (by decide), hclass]
    rfl
  | self hc =>
    rename_i c
    obtain ⟨hmeaning, hdigit, hb, hallowed, hunnamed⟩ := hc
    have hzero : (c == '0') = false := by
      rw [beq_eq_false_iff_ne]
      rintro rfl
      cases hdigit
    have hb' : (inClass && c == 'b') = false := by simpa using hb
    rw [characterEscape_eq hmeaning]
    simp only [hzero, Bool.false_and, hdigit, hb', Bool.false_eq_true, if_false]
    cases hstrict : setting.strict with
    | true => simp [hallowed hstrict]
    | false =>
      have hk : (c == 'k' && setting.named) = false := by simpa using hunnamed hstrict
      simp [hk]

theorem characterEscape_iff {inClass : Bool} : characterEscape setting inClass r = .ok (n, rest) ↔
    CharacterEscape setting inClass r n rest :=
  ⟨.of_ok, fun h => h.ok⟩

/-- An escape takes a character at least. Without `u` and `v`, a backslash before a `c` may stand
alone. -/
theorem characterEscape_tail {inClass : Bool}
    (h : characterEscape setting inClass r = .ok (n, rest)) : ∃ c tail, r = c :: tail ∧
      (rest <:+ tail ∨ (c = 'c' ∧ n = '\\'.toNat ∧ rest = r ∧ setting.strict = false)) := by
  cases characterEscape_iff.1 h with
  | backslash hlenient _ => exact ⟨_, _, rfl, .inr ⟨rfl, rfl, rfl, hlenient⟩⟩
  | letter _ => exact ⟨_, _, rfl, .inl (List.suffix_cons _ _)⟩
  | hex hhex => exact ⟨_, _, rfl, .inl (suffix_hex? hhex)⟩
  | unicode hcode => exact ⟨_, _, rfl, .inl hcode.suffix⟩
  | octal _ _ _ hoctal =>
    rename_i c r _ _ _
    have hsuffix := suffix_octalOrSelf c r
    rw [hoctal] at hsuffix
    exact ⟨_, _, rfl, .inl hsuffix⟩
  | _ => exact ⟨_, _, rfl, .inl (List.suffix_refl _)⟩

theorem suffix_characterEscape {inClass : Bool}
    (h : characterEscape setting inClass r = .ok (n, rest)) : rest <:+ r := by
  obtain ⟨c, tail, rfl, hsuffix | ⟨-, -, rfl, -⟩⟩ := characterEscape_tail h
  · exact hsuffix.trans (List.suffix_cons _ _)
  · exact List.suffix_refl _

/-- With `u` or `v` an escape takes a character at least. -/
theorem characterEscape_lt {inClass : Bool} (hstrict : setting.strict = true)
    (h : characterEscape setting inClass r = .ok (n, rest)) : rest.length < r.length := by
  obtain ⟨c, tail, rfl, hrest | ⟨-, -, -, hlenient⟩⟩ := characterEscape_tail h
  · exact Nat.lt_succ_of_le hrest.length_le
  · rw [hstrict] at hlenient
    cases hlenient

end Lexeme

namespace Pattern

open Node

variable {setting : Setting} {r rest : List Char} {n : Node}

/-! ## Escapes outside of classes -/

/-- What is read after a backslash outside of classes. -/
inductive Escape (setting : Setting) : (text : List Char) → Node → (rest : List Char) → Prop
  | shorthand {r rest : List Char} {set : Shorthand} :
    Lexeme.shorthand? setting r = .ok (some set, rest) → Escape setting r (.shorthand set) rest
  | name {name rest : List Char} : (setting.strict || setting.named) = true → Lexeme.IsName name →
    Escape setting ('k' :: '<' :: (name ++ '>' :: rest)) (.backreference (.name name)) rest
  | index {c : Char} {r rest : List Char} {k : Nat} : '1' ≤ c → c ≤ '9' →
    Lexeme.decimal? (c :: r) = some (k, rest) → k ≤ setting.groups →
    Escape setting (c :: r) (.backreference (.index k)) rest
  | octal {c : Char} {r after rest : List Char} {k value : Nat} : '1' ≤ c → c ≤ '9' →
    Lexeme.decimal? (c :: r) = some (k, after) → setting.groups < k → setting.strict = false →
    Lexeme.octalOrSelf (c :: r) = (value, rest) →
    Escape setting (c :: r) (.character ⟨value, '\\' :: textBefore (c :: r) rest⟩) rest
  | character {c : Char} {r rest : List Char} {value : Nat} : ¬ ('1' ≤ c ∧ c ≤ '9') →
    (c = 'k' → (setting.strict || setting.named) = false) →
    Lexeme.shorthand? setting (c :: r) = .ok (none, c :: r) →
    Lexeme.characterEscape setting false (c :: r) = .ok (value, rest) →
    Escape setting (c :: r) (.character ⟨value, '\\' :: textBefore (c :: r) rest⟩) rest

theorem escaped_iff : escaped setting r = .ok (n, rest) ↔ Escape setting r n rest := by
  constructor
  · intro h
    unfold escaped at h
    obtain ⟨⟨set, after⟩, hset, h⟩ := bind_eq_ok.1 h
    cases set with
    | some set =>
      cases h
      exact .shorthand hset
    | none =>
      obtain rfl := Lexeme.shorthand?_none hset
      simp only at h
      split at h
      · cases h
      · rename_i c r
        split at h
        · rename_i hk
          simp only [Bool.and_eq_true, beq_iff_eq] at hk
          obtain ⟨rfl, hk⟩ := hk
          split at h
          · obtain ⟨⟨name, after⟩, hname, h⟩ := bind_eq_ok.1 h
            cases h
            obtain ⟨hisName, rfl⟩ := Lexeme.groupName_iff.1 hname
            exact .name hk hisName
          · cases h
        · rename_i hk
          split at h
          · rename_i hdigit
            simp only [Bool.and_eq_true, decide_eq_true_eq] at hdigit
            split at h
            · rename_i k after hdecimal
              split at h
              · rename_i hle
                cases h
                exact .index hdigit.1 hdigit.2 hdecimal hle
              · rename_i hle
                split at h
                · cases h
                · rename_i hstrict
                  cases h
                  exact .octal hdigit.1 hdigit.2 hdecimal (Nat.lt_of_not_le hle)
                    (by simpa using hstrict) rfl
            · cases h
          · rename_i hdigit
            obtain ⟨⟨value, after⟩, hvalue, h⟩ := bind_eq_ok.1 h
            cases h
            refine .character (by simpa using hdigit) ?_ hset hvalue
            rintro rfl
            simpa using hk
  · intro h
    cases h with
    | shorthand hset => exact bind_eq_ok.2 ⟨_, hset, rfl⟩
    | name hk hname =>
      rename_i name
      refine bind_eq_ok.2 ⟨(none, 'k' :: '<' :: (name ++ '>' :: rest)), ?_, ?_⟩
      · simp [Lexeme.shorthand?]
      · simp only [hk, beq_self_eq_true, Bool.true_and, if_true]
        exact bind_eq_ok.2 ⟨_, Lexeme.groupName_iff.2 ⟨hname, rfl⟩, rfl⟩
    | index h1 h9 hdecimal hle =>
      rename_i c r k
      have hdigit := Lexeme.isDigit_of_le h1 h9
      refine bind_eq_ok.2 ⟨_, Lexeme.shorthand?_digit hdigit _, ?_⟩
      have hk : c ≠ 'k' := fun hc => Lexeme.not_mem_of_isDigit hdigit (by simp [hc])
      simp [hk, h1, h9, hdecimal, hle]
    | octal h1 h9 hdecimal hlt hstrict hoctal =>
      rename_i c r after k value
      have hdigit := Lexeme.isDigit_of_le h1 h9
      refine bind_eq_ok.2 ⟨_, Lexeme.shorthand?_digit hdigit _, ?_⟩
      have hk : c ≠ 'k' := fun hc => Lexeme.not_mem_of_isDigit hdigit (by simp [hc])
      simp [hk, h1, h9, hdecimal, Nat.not_le_of_lt hlt, hstrict, hoctal]
    | character hdigit hk hset hvalue =>
      refine bind_eq_ok.2 ⟨_, hset, ?_⟩
      rename_i c r value
      have hk' : (c == 'k' && (setting.strict || setting.named)) = false := by
        by_cases hc : c = 'k'
        · rw [hk hc, Bool.and_false]
        · simp [hc]
      have hdigit' : ('1' ≤ c && c ≤ '9') = false := by simpa using hdigit
      simp only [hk', hdigit', Bool.false_eq_true, if_false]
      exact bind_eq_ok.2 ⟨_, hvalue, rfl⟩

end Pattern

end RegexAudit
