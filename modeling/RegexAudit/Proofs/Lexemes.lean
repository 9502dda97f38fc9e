import Mathlib.Data.List.TakeWhile
import RegexAudit.Syntax.Lexeme

/-!
# Lexemes are read from the front

Each reader of a lexeme takes a beginning of the text and leaves the end of it: what is left is a
suffix of the text. Where the lexeme is kept as a value, its text is what was taken.
-/

namespace RegexAudit

theorem bind_eq_ok {ε α β : Type} {x : Except ε α} {f : α → Except ε β} {b : β} :
    x >>= f = .ok b ↔ ∃ a, x = .ok a ∧ f a = .ok b := by
  cases x <;> simp [bind, Except.bind]

theorem map_eq_ok {ε α β : Type} {x : Except ε α} {f : α → β} {b : β} :
    x.map f = .ok b ↔ ∃ a, x = .ok a ∧ f a = b := by
  cases x <;> simp [Except.map]

theorem textBefore_left (w r : List Char) : textBefore (w ++ r) r = w := by
  rw [textBefore, List.length_append, Nat.add_sub_cancel, List.take_left]

theorem textBefore_append {text rest : List Char} (h : rest <:+ text) :
    textBefore text rest ++ rest = text := by
  obtain ⟨front, rfl⟩ := h
  rw [textBefore_left]

namespace Lexeme

/-! ## Numbers -/

theorem decimal?_eq_some {r after : List Char} {n : Nat} :
    decimal? r = some (n, after) ↔ r.takeWhile Char.isDigit ≠ [] ∧
      n = numeral 10 (r.takeWhile Char.isDigit) ∧ after = r.dropWhile Char.isDigit := by
  simp only [decimal?, List.isEmpty_iff, Option.ite_none_left_eq_some, Option.some.injEq,
    Prod.mk.injEq, @eq_comm _ n, @eq_comm _ after]

theorem exists_decimal? {c : Char} (h : c.isDigit = true) (r : List Char) :
    ∃ n after, decimal? (c :: r) = some (n, after) :=
  ⟨_, _, decimal?_eq_some.2 ⟨by simp [List.takeWhile_cons_of_pos h], rfl, rfl⟩⟩

theorem suffix_decimal? {r after : List Char} {n : Nat} (h : decimal? r = some (n, after)) :
    after <:+ r := by
  obtain ⟨-, -, rfl⟩ := decimal?_eq_some.1 h
  exact List.dropWhile_suffix _

theorem digitChar_digitValue {c : Char} (h : c.isDigit = true) :
    digitValue c < 10 ∧ (digitValue c).digitChar = c := by
  have hc : 48 ≤ c.toNat ∧ c.toNat ≤ 57 := Char.isDigit_iff_toNat.1 h
  have hv : digitValue c = c.toNat - 48 := by
    rw [digitValue, if_pos h]
    rfl
  have hlt : digitValue c < 10 := by omega
  refine ⟨hlt, Char.toNat_inj.1 ?_⟩
  rw [Nat.toNat_digitChar_of_lt_ten hlt]
  omega

/-- Digits are the digits of the number they write, as long as the first of them is not zero. -/
theorem toDigits_foldl {digits : List Char} (h : ∀ d ∈ digits, d.isDigit = true) {n : Nat}
    (hn : 0 < n) :
    Nat.toDigits 10 (digits.foldl (fun n d => n * 10 + digitValue d) n)
      = Nat.toDigits 10 n ++ digits := by
  induction digits generalizing n with
  | nil => simp
  | cons d digits ih =>
    rw [List.forall_mem_cons] at h
    obtain ⟨hlt, hchar⟩ := digitChar_digitValue h.1
    rw [List.foldl_cons, ih h.2 (by omega), Nat.mul_comm n 10,
      ← Nat.toDigits_append_toDigits (by decide) hn hlt, Nat.toDigits_of_lt_base hlt, hchar,
      List.append_assoc, List.singleton_append]

theorem toDigits_numeral {d : Char} {digits : List Char} (hd : d.isDigit = true)
    (h0 : 0 < digitValue d) (h : ∀ d ∈ digits, d.isDigit = true) :
    Nat.toDigits 10 (numeral 10 (d :: digits)) = d :: digits := by
  obtain ⟨hlt, hchar⟩ := digitChar_digitValue hd
  rw [numeral, List.foldl_cons, Nat.zero_mul, Nat.zero_add, toDigits_foldl h h0,
    Nat.toDigits_of_lt_base hlt, hchar, List.singleton_append]

theorem isDigit_of_le {c : Char} (h1 : '1' ≤ c) (h9 : c ≤ '9') : c.isDigit = true :=
  Char.isDigit_iff_toNat.2 ⟨Nat.le_trans (by decide) h1, h9⟩

/-- A number that does not start with zero is its digits. -/
theorem decimal?_source {c : Char} {r after : List Char} {n : Nat} (h1 : '1' ≤ c) (h9 : c ≤ '9')
    (h : decimal? (c :: r) = some (n, after)) : c :: r = Nat.toDigits 10 n ++ after := by
  have hc : 49 ≤ c.toNat := h1
  have hdigit := isDigit_of_le h1 h9
  have hvalue : 0 < digitValue c := by
    rw [digitValue, if_pos hdigit]
    show 0 < c.toNat - 48
    omega
  obtain ⟨-, hn, hafter⟩ := decimal?_eq_some.1 h
  rw [List.takeWhile_cons_of_pos hdigit] at hn
  rw [List.dropWhile_cons_of_pos hdigit] at hafter
  rw [hn, hafter, toDigits_numeral hdigit hvalue fun d hd => List.mem_takeWhile_imp hd,
    List.cons_append, List.takeWhile_append_dropWhile]

/-- A number that does not start with zero is above zero. -/
theorem decimal?_pos {c : Char} {r after : List Char} {k : Nat} (h1 : '1' ≤ c) (h9 : c ≤ '9')
    (h : decimal? (c :: r) = some (k, after)) : 0 < k := by
  rcases Nat.eq_zero_or_pos k with rfl | hk
  · have hsource := decimal?_source h1 h9 h
    obtain ⟨rfl, -⟩ : c = '0' ∧ r = after := by simpa using hsource
    exact absurd h1 (by decide)
  · exact hk

theorem hex?_eq_some {k : Nat} {r after : List Char} {n : Nat} :
    hex? k r = some (n, after) ↔ ∃ digits, r = digits ++ after ∧ digits.length = k ∧
      (∀ c ∈ digits, isHexDigit c = true) ∧ n = numeral 16 digits := by
  simp only [hex?, Bool.and_eq_true, decide_eq_true_eq, List.all_eq_true,
    Option.ite_none_right_eq_some, Option.some.injEq, Prod.mk.injEq]
  constructor
  · rintro ⟨⟨hlength, hdigits⟩, rfl, rfl⟩
    exact ⟨_, (List.take_append_drop k r).symm, hlength, hdigits, rfl⟩
  · rintro ⟨digits, rfl, rfl, hdigits, rfl⟩
    rw [List.take_left, List.drop_left]
    exact ⟨⟨rfl, hdigits⟩, rfl, rfl⟩

theorem suffix_hex? {k : Nat} {r after : List Char} {n : Nat} (h : hex? k r = some (n, after)) :
    after <:+ r := by
  obtain ⟨digits, rfl, -⟩ := hex?_eq_some.1 h
  exact List.suffix_append _ _

theorem suffix_octal (k value : Nat) (r : List Char) : (octal k value r).2 <:+ r := by
  induction k generalizing value r with
  | zero => exact List.suffix_refl r
  | succ k ih =>
    cases r with
    | nil => exact List.suffix_refl []
    | cons c r =>
      simp only [octal]
      split
      · exact (ih _ r).trans (List.suffix_cons c r)
      · exact List.suffix_refl _

theorem digitValue_octal {c : Char} (h : isOctalDigit c = true) : digitValue c ≤ 7 := by
  simp only [isOctalDigit, Bool.and_eq_true, decide_eq_true_eq] at h
  have hc : 48 ≤ c.toNat ∧ c.toNat ≤ 55 := h
  have hdigit : c.isDigit = true :=
    Char.isDigit_iff_toNat.2 ⟨hc.1, Nat.le_trans hc.2 (by decide)⟩
  have hvalue : digitValue c = c.toNat - 48 := by
    rw [digitValue, if_pos hdigit]
    rfl
  omega

theorem suffix_octalOrSelf (c : Char) (r : List Char) : (octalOrSelf (c :: r)).2 <:+ r := by
  simp only [octalOrSelf]
  split
  · rename_i hdigit
    have hnext : 0 * 8 + digitValue c ≤ 255 := by
      have := digitValue_octal hdigit
      omega
    simp only [octal, hdigit, hnext, decide_true, Bool.and_self, if_true]
    exact suffix_octal 2 _ r
  · exact List.suffix_refl r

/-! ## Quantifiers -/

theorem suffix_count? {r after : List Char} {n : Nat} (h : count? r = some (n, after)) :
    after <:+ r := by
  obtain ⟨⟨m, after'⟩, hd, h⟩ := Option.map_eq_some_iff.1 h
  cases h
  exact suffix_decimal? hd

/-- Counts that are written here: one of the three marks, or one of the three forms in braces. -/
inductive Counts : (text : List Char) → Nat × Option Nat → (rest : List Char) → Prop
  | star (r : List Char) : Counts ('*' :: r) (0, none) r
  | plus (r : List Char) : Counts ('+' :: r) (1, none) r
  | optional (r : List Char) : Counts ('?' :: r) (0, some 1) r
  | exactly {r rest : List Char} {n : Nat} : count? r = some (n, '}' :: rest) →
    Counts ('{' :: r) (n, some n) rest
  | atLeast {r rest : List Char} {least : Nat} : count? r = some (least, ',' :: '}' :: rest) →
    Counts ('{' :: r) (least, none) rest
  | between {r mid rest : List Char} {least most : Nat} : count? r = some (least, ',' :: mid) →
    count? mid = some (most, '}' :: rest) → Counts ('{' :: r) (least, some most) rest

theorem braces?_eq_some {r after : List Char} {counts : Nat × Option Nat} :
    braces? r = some (counts, after) ↔ r.head? = some '{' ∧ Counts r counts after := by
  constructor
  · intro h
    unfold braces? at h
    split at h
    · obtain ⟨⟨least, r1⟩, hleast, h⟩ := Option.bind_eq_some_iff.1 h
      refine ⟨rfl, ?_⟩
      simp only at h
      split at h
      · cases h
        exact .exactly hleast
      · cases h
        exact .atLeast hleast
      · obtain ⟨⟨most, r2⟩, hmost, h⟩ := Option.bind_eq_some_iff.1 h
        simp only at h
        split at h
        · cases h
          exact .between hleast hmost
        · cases h
      · cases h
    · cases h
  · rintro ⟨hbrace, h⟩
    cases h with
    | star _ | plus _ | optional _ => cases hbrace
    | exactly hread | atLeast hread => simp [braces?, hread]
    | between hleast hmost =>
      rename_i mid _ _
      have hmid : ∀ t, mid ≠ '}' :: t := by
        rintro t rfl
        cases hmost
      simp only [braces?, hleast, hmost, Option.bind_eq_bind, Option.bind_some]

theorem atQuantifier_iff {r : List Char} :
    atQuantifier r = true ↔ ∃ counts after, Counts r counts after := by
  constructor
  · intro h
    unfold atQuantifier at h
    split at h
    · exact ⟨_, _, .star _⟩
    · exact ⟨_, _, .plus _⟩
    · exact ⟨_, _, .optional _⟩
    · obtain ⟨⟨counts, after⟩, hread⟩ := Option.isSome_iff_exists.1 h
      exact ⟨counts, after, (braces?_eq_some.1 hread).2⟩
  · rintro ⟨counts, after, h⟩
    have hbraces (hbrace : r.head? = some '{') : (braces? r).isSome = true := by
      rw [braces?_eq_some.2 ⟨hbrace, h⟩]
      rfl
    cases h with
    | star _ | plus _ | optional _ => rfl
    | exactly _ | atLeast _ | between _ _ => exact hbraces rfl

section
variable {setting : Setting} {r after : List Char}

theorem counts?_eq_some {counts : Nat × Option Nat} :
    counts? setting r = .ok (some counts, after) ↔ Counts r counts after := by
  constructor
  · intro h
    unfold counts? at h
    split at h
    · cases h
      exact .star _
    · cases h
      exact .plus _
    · cases h
      exact .optional _
    · split at h
      · rename_i hbraces
        cases h
        exact (braces?_eq_some.1 hbraces).2
      · split at h <;> cases h
    · cases h
  · intro h
    have hbraces (hbrace : r.head? = some '{') := braces?_eq_some.2 ⟨hbrace, h⟩
    cases h with
    | star _ | plus _ | optional _ => rfl
    | exactly _ | atLeast _ | between _ _ => simp only [counts?, hbraces rfl]

/-- No counts are read where none are written, if nothing looks like the brace of some. -/
theorem counts?_eq_none : counts? setting r = .ok (none, after) ↔
    after = r ∧ atQuantifier r = false ∧ (setting.strict = true → r.head? ≠ some '{') := by
  constructor
  · intro h
    unfold counts? at h
    split at h
    · cases h
    · cases h
    · cases h
    · split at h
      · cases h
      · rename_i hnone
        split at h
        · cases h
        · rename_i hlenient
          cases h
          exact ⟨rfl, by simp [atQuantifier, hnone], fun hstrict => absurd hstrict hlenient⟩
    · rename_i hstar hplus hoptional hbrace
      cases h
      have hhead : r.head? ≠ some '{' := fun hhead => by
        obtain ⟨t, ht⟩ := List.head?_eq_some_iff.1 hhead
        exact hbrace t ht
      refine ⟨rfl, Bool.eq_false_iff.2 fun hsome => ?_, fun _ => hhead⟩
      obtain ⟨counts, rest, hcounts⟩ := atQuantifier_iff.1 hsome
      cases hcounts with
      | star _ => exact hstar _ rfl
      | plus _ => exact hplus _ rfl
      | optional _ => exact hoptional _ rfl
      | exactly _ | atLeast _ | between _ _ => exact hbrace _ rfl
  · rintro ⟨rfl, hnone, hbrace⟩
    unfold counts?
    split
    · cases hnone
    · cases hnone
    · cases hnone
    · rename_i tail
      have hbraces : braces? ('{' :: tail) = none := by simpa [atQuantifier] using hnone
      simp only [hbraces]
      rw [if_neg fun hstrict => hbrace hstrict rfl]
    · rfl

/-- A quantifier that is written here: counts, and a question mark if it is lazy. -/
inductive Quantifies : (text : List Char) → Bounds × Bool → (rest : List Char) → Prop
  | lazy {text rest : List Char} {counts : Nat × Option Nat} {bounds : Bounds} :
    Counts text counts ('?' :: rest) → Bounds.make? counts.1 counts.2 = some bounds →
    Quantifies text (bounds, false) rest
  | greedy {text rest : List Char} {counts : Nat × Option Nat} {bounds : Bounds} :
    Counts text counts rest → Bounds.make? counts.1 counts.2 = some bounds →
    rest.head? ≠ some '?' → Quantifies text (bounds, true) rest

theorem quantifier?_eq_some {read : Bounds × Bool} :
    quantifier? setting r = .ok (some read, after) ↔ Quantifies r read after := by
  rw [quantifier?, bind_eq_ok]
  constructor
  · rintro ⟨⟨counts, r1⟩, hcounts, h⟩
    cases counts with
    | none => cases h
    | some counts =>
      have hcounts := counts?_eq_some.1 hcounts
      simp only at h
      split at h
      · cases h
      · rename_i hbounds
        split at h
        · cases h
          exact .lazy hcounts hbounds
        · rename_i hmark
          cases h
          refine .greedy hcounts hbounds fun hhead => ?_
          obtain ⟨t, ht⟩ := List.head?_eq_some_iff.1 hhead
          exact hmark t ht
  · intro h
    cases h with
    | lazy hcounts hbounds => exact ⟨_, counts?_eq_some.2 hcounts, by simp only [hbounds]⟩
    | greedy hcounts hbounds hmark =>
      refine ⟨_, counts?_eq_some.2 hcounts, ?_⟩
      simp only [hbounds]
      split
      · exact absurd rfl hmark
      · rfl

theorem quantifier?_eq_none : quantifier? setting r = .ok (none, after) ↔
    after = r ∧ atQuantifier r = false ∧ (setting.strict = true → r.head? ≠ some '{') := by
  rw [← counts?_eq_none, quantifier?, bind_eq_ok]
  constructor
  · rintro ⟨⟨counts, r1⟩, hcounts, h⟩
    cases counts with
    | none =>
      cases h
      exact hcounts
    | some counts =>
      simp only at h
      split at h
      · cases h
      · split at h <;> cases h
  · exact fun h => ⟨_, h, rfl⟩

end

/-- Counts take a character at least. -/
theorem Counts.tail {text rest : List Char} {counts : Nat × Option Nat}
    (h : Counts text counts rest) : ∃ c tail, text = c :: tail ∧ rest <:+ tail := by
  cases h with
  | star _ | plus _ | optional _ => exact ⟨_, _, rfl, List.suffix_refl _⟩
  | exactly hread => exact ⟨_, _, rfl, (List.suffix_cons _ _).trans (suffix_count? hread)⟩
  | atLeast hread =>
    exact ⟨_, _, rfl, (List.suffix_append [',', '}'] _).trans (suffix_count? hread)⟩
  | between hleast hmost =>
    have hmid := (List.suffix_cons _ _).trans (suffix_count? hleast)
    exact ⟨_, _, rfl, ((List.suffix_cons _ _).trans (suffix_count? hmost)).trans hmid⟩

theorem Quantifies.tail {text rest : List Char} {read : Bounds × Bool}
    (h : Quantifies text read rest) : ∃ c tail, text = c :: tail ∧ rest <:+ tail := by
  cases h with
  | lazy hcounts _ =>
    obtain ⟨c, tail, rfl, hsuffix⟩ := hcounts.tail
    exact ⟨c, tail, rfl, (List.suffix_cons _ _).trans hsuffix⟩
  | greedy hcounts _ _ => exact hcounts.tail

theorem Quantifies.suffix {text rest : List Char} {read : Bounds × Bool}
    (h : Quantifies text read rest) : rest <:+ text := by
  obtain ⟨c, tail, rfl, hsuffix⟩ := h.tail
  exact hsuffix.trans (List.suffix_cons _ _)

theorem suffix_quantifier? {setting : Setting} {r after : List Char}
    {read : Option (Bounds × Bool)} (h : quantifier? setting r = .ok (read, after)) :
    after <:+ r := by
  cases read with
  | none =>
    obtain ⟨rfl, -, -⟩ := quantifier?_eq_none.1 h
    exact List.suffix_refl _
  | some read => exact (quantifier?_eq_some.1 h).suffix

/-! ## Names -/

/-- A name that a group may have. -/
def IsName (name : List Char) : Prop :=
  ∃ c tail, name = c :: tail ∧ isNameStart c = true ∧ ∀ d ∈ tail, isNamePart d = true

theorem isNamePart_close : isNamePart '>' = false := by decide +kernel

theorem groupName_iff {r name after : List Char} :
    groupName r = .ok (name, after) ↔ IsName name ∧ r = name ++ '>' :: after := by
  constructor
  · intro h
    unfold groupName at h
    split at h
    · cases h
    · rename_i c tail
      split at h
      · rename_i hstart
        split at h
        · rename_i hdrop
          cases h
          have htail := List.takeWhile_append_dropWhile (p := isNamePart) (l := tail)
          rw [hdrop] at htail
          refine ⟨⟨c, _, rfl, hstart, fun d hd => List.mem_takeWhile_imp hd⟩, ?_⟩
          rw [List.cons_append, htail]
        · cases h
      · cases h
  · rintro ⟨⟨c, tail, rfl, hstart, hpart⟩, rfl⟩
    have hdrop : (tail ++ '>' :: after).dropWhile isNamePart = '>' :: after := by
      rw [List.dropWhile_append_of_pos hpart, List.dropWhile_cons_of_neg]
      simp [isNamePart_close]
    have htake : (tail ++ '>' :: after).takeWhile isNamePart = tail := by
      rw [List.takeWhile_append_of_pos hpart, List.takeWhile_cons_of_neg, List.append_nil]
      simp [isNamePart_close]
    simp only [groupName, List.cons_append, hstart, if_true, hdrop, htake]

theorem groupName_source {r after name : List Char} (h : groupName r = .ok (name, after)) :
    r = name ++ '>' :: after := (groupName_iff.1 h).2

/-- A name starts with none of the marks after which a lookbehind is read. -/
theorem IsName.ne_mark {name : List Char} (h : IsName name) :
    name.head? ≠ some '=' ∧ name.head? ≠ some '!' := by
  obtain ⟨c, tail, rfl, hstart, -⟩ := h
  constructor
  · rintro h
    cases h
    revert hstart
    decide +kernel
  · rintro h
    cases h
    revert hstart
    decide +kernel

theorem propertyParts?_source {body value : List Char} {key : Option (List Char)}
    (h : propertyParts? body = some (key, value)) :
    body = (key.map (· ++ ['='])).getD [] ++ value := by
  unfold propertyParts? at h
  have hbody := List.takeWhile_append_dropWhile (p := (· != '=')) (l := body)
  split at h
  · split at h
    · cases h
      rfl
    · cases h
  · rename_i c _ hdrop
    simp only at h
    split at h
    · cases h
      have hc := List.head?_dropWhile_not (· != '=') body
      rw [hdrop] at hc hbody
      simp only [List.head?_cons, bne_eq_false_iff_eq] at hc
      subst hc
      simpa using hbody.symm
    · cases h

/-- A property is a key and a value in braces. -/
theorem property_iff {setting : Setting} {negate : Bool} {r after : List Char} {set : Shorthand} :
    property setting negate r = .ok (set, after) ↔ ∃ body key value,
      r = '{' :: (body ++ '}' :: after) ∧ '}' ∉ body ∧ propertyParts? body = some (key, value) ∧
        (isStringProperty key value && (negate || !setting.flags.unicodeSets)) = false ∧
        set = .property key value negate := by
  constructor
  · intro h
    unfold property at h
    split at h
    · rename_i r
      split at h
      · rename_i c after' key value hdrop hparts
        split at h
        · cases h
        · rename_i hstring
          cases h
          have hbody := List.takeWhile_append_dropWhile (p := (· != '}')) (l := r)
          have hc := List.head?_dropWhile_not (· != '}') r
          rw [hdrop] at hc hbody
          simp only [List.head?_cons, bne_eq_false_iff_eq] at hc
          subst hc
          refine ⟨_, key, value, by rw [hbody], fun hclose => ?_, hparts, ?_, rfl⟩
          · simpa using List.mem_takeWhile_imp hclose
          · exact Bool.eq_false_iff.2 hstring
      · cases h
    · cases h
  · rintro ⟨body, key, value, rfl, hclose, hparts, hstring, rfl⟩
    have hall : ∀ c ∈ body, (c != '}') = true := by
      rintro c hc
      rw [bne_iff_ne]
      rintro rfl
      exact hclose hc
    have hdrop : (body ++ '}' :: after).dropWhile (· != '}') = '}' :: after := by
      rw [List.dropWhile_append_of_pos hall, List.dropWhile_cons_of_neg (by simp)]
    have htake : (body ++ '}' :: after).takeWhile (· != '}') = body := by
      rw [List.takeWhile_append_of_pos hall, List.takeWhile_cons_of_neg (by simp), List.append_nil]
    simp only [property, hdrop, htake, hparts, hstring]
    rfl

theorem property_source {setting : Setting} {negate : Bool} {r after : List Char} {set : Shorthand}
    (h : property setting negate r = .ok (set, after)) :
    '\\' :: (if negate then 'P' else 'p') :: r = set.text ++ after := by
  obtain ⟨body, key, value, rfl, -, hparts, -, rfl⟩ := property_iff.1 h
  rw [propertyParts?_source hparts]
  simp [Shorthand.text]

theorem suffix_property {setting : Setting} {negate : Bool} {r after : List Char} {set : Shorthand}
    (h : property setting negate r = .ok (set, after)) :
    ∃ tail, r = '{' :: tail ∧ after <:+ tail := by
  obtain ⟨body, key, value, rfl, -⟩ := property_iff.1 h
  exact ⟨_, rfl, (List.suffix_cons _ _).trans (List.suffix_append _ _)⟩

end Lexeme

end RegexAudit
