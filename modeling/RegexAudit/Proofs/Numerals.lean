import Mathlib.Algebra.Group.Nat.Defs
import RegexAudit.Proofs.Scans

/-!
# Numbers that are written

Digits, and the characters that escapes write, give numbers below `Bounds.limit`, whatever the text.
Digits of a quantifier are cut off at that limit while they are read (`Lexeme.count?`).
-/

namespace RegexAudit.Lexeme

variable {setting : Setting}

/-! ## Digits -/

theorem digitValue_lt {c : Char} (h : isHexDigit c = true) : digitValue c < 16 := by
  unfold digitValue
  split
  · rename_i hdigit
    have hc := Char.isDigit_iff_toNat.1 hdigit
    have hle : c.toNat ≤ 57 := hc.2
    have hzero : '0'.toNat = 48 := rfl
    omega
  · split
    · rename_i hlower
      simp only [Bool.and_eq_true, decide_eq_true_eq] at hlower
      have hle : c.toNat ≤ 102 := hlower.2
      have ha : 'a'.toNat = 97 := rfl
      omega
    · rename_i hdigit hlower
      simp only [isHexDigit, hdigit, hlower, Bool.or_self, Bool.false_or, Bool.and_eq_true,
        decide_eq_true_eq] at h
      have hle : c.toNat ≤ 70 := h.2
      have hA : 'A'.toNat = 65 := rfl
      omega

/-- A numeral is less than the base to the power of the number of its digits. -/
theorem numeral_lt {digits : List Char} (h : ∀ d ∈ digits, isHexDigit d = true) :
    numeral 16 digits < 16 ^ digits.length := by
  have hfold (n : Nat) :
      digits.foldl (fun n d => n * 16 + digitValue d) n < (n + 1) * 16 ^ digits.length := by
    induction digits generalizing n with
    | nil => simp
    | cons d digits ih =>
      have hd := digitValue_lt (h d List.mem_cons_self)
      have hnext : n * 16 + digitValue d + 1 ≤ (n + 1) * 16 := by omega
      calc (d :: digits).foldl (fun n d => n * 16 + digitValue d) n
          < (n * 16 + digitValue d + 1) * 16 ^ digits.length :=
            ih (fun d hd => h d (List.mem_cons_of_mem _ hd)) _
        _ ≤ (n + 1) * 16 * 16 ^ digits.length := Nat.mul_le_mul_right _ hnext
        _ = (n + 1) * 16 ^ (digits.length + 1) := by rw [Nat.pow_succ', Nat.mul_assoc]
  simpa [numeral] using hfold 0

theorem hex?_lt {k n : Nat} {r after : List Char} (h : hex? k r = some (n, after)) :
    n < 16 ^ k := by
  obtain ⟨digits, -, rfl, hdigits, rfl⟩ := hex?_eq_some.1 h
  exact numeral_lt hdigits

theorem toNat_le_limit (c : Char) : c.toNat ≤ Bounds.limit := Nat.le_of_lt_succ c.val.toNat_lt

/-- An octal escape stops before its value is larger than a byte. -/
theorem octal_le (k : Nat) {value : Nat} (h : value ≤ 255) (r : List Char) :
    (octal k value r).1 ≤ 255 := by
  induction k generalizing value r with
  | zero => exact h
  | succ k ih =>
    cases r with
    | nil => exact h
    | cons c r =>
      simp only [octal]
      split
      · rename_i hnext
        rw [Bool.and_eq_true, decide_eq_true_eq] at hnext
        exact ih hnext.2 r
      · exact h

theorem octalOrSelf_le (r : List Char) : (octalOrSelf r).1 ≤ Bounds.limit := by
  unfold octalOrSelf
  split
  · exact Nat.zero_le _
  · split
    · exact Nat.le_trans (octal_le 3 (Nat.zero_le _) _) (by decide)
    · exact toNat_le_limit _

/-! ## Escapes -/

theorem joinSurrogates_le {lead trail : Nat} (hlead : lead ≤ 0xDBFF) (htrail : trail ≤ 0xDFFF) :
    joinSurrogates lead trail ≤ 0x10FFFF := by
  unfold joinSurrogates
  omega

theorem bracedCode?_le {n : Nat} {r after : List Char} (h : bracedCode? r = some (n, after)) :
    n ≤ 0x10FFFF := by
  obtain ⟨_, -, -, -, -, hle⟩ := bracedCode?_eq_some.1 h
  exact hle

/-- Two surrogates that are joined are no larger than the last code point. -/
theorem UnicodeEscape.le {strict : Bool} {n : Nat} {r after : List Char}
    (h : UnicodeEscape strict r n after) : n ≤ Bounds.limit := by
  cases h with
  | braced _ hcode => exact Nat.le_trans (bracedCode?_le hcode) (by decide)
  | pair _ _ _ hhigh htrail =>
    obtain ⟨-, -, -, -, hhigh'⟩ := trailSurrogate?_eq_some.1 htrail
    exact Nat.le_trans (joinSurrogates_le hhigh hhigh') (by decide)
  | single hhex _ => exact Nat.le_trans (Nat.le_of_lt (hex?_lt hhex)) (by decide)
  | self _ _ => exact toNat_le_limit 'u'

/-- Whatever an escape writes is a code point. -/
theorem characterEscape_le {inClass : Bool} {n : Nat} {r after : List Char}
    (h : characterEscape setting inClass r = .ok (n, after)) : n ≤ Bounds.limit := by
  cases characterEscape_iff.1 h with
  | control hm =>
    have hall : ∀ read ∈ controls, read.2 ≤ Bounds.limit := by decide
    exact hall _ hm
  | letter _ => exact Nat.le_trans (Nat.mod_le _ _) (toNat_le_limit _)
  | hex hhex => exact Nat.le_trans (Nat.le_of_lt (hex?_lt hhex)) (by decide)
  | unicode hcode => exact hcode.le
  | zero _ | backspace _ => decide
  | octal _ _ _ hoctal =>
    rename_i c r _ _ _
    have hle := octalOrSelf_le (c :: r)
    rwa [hoctal] at hle
  | backslash _ _ | plainHex _ _ | self _ => exact toNat_le_limit _

end RegexAudit.Lexeme
