import Mathlib.Data.Nat.Digits.Defs
import RegexAudit.Proofs.Loops
import RegexAudit.Proofs.Splices

/-!
# Written bounds and code points

What is read from texts that are written in a known way. The text of bounds is read as these bounds,
greedy or, with a question mark after it, lazy:

    Regex.parse ('a' :: bounds.toText ++ …) flags = .ok (a row of one quantifier)
                                                                         (parse_quantifierText)

With `u` or `v`, digits in braces are read as the code point they write, if there is one, and two
surrogates of four digits each are read as the code point they stand for; without these flags they
stay two characters (`parse_codePoint`).

All these sources are one row of terms outside of groups, and `parse_row` says once what such a source
is parsed as.
-/

namespace RegexAudit

open Node Pattern

/-- The text of a quantifier with these bounds. -/
def Bounds.quantifierText (bounds : Bounds) (greedy : Bool) : List Char :=
  bounds.toText ++ if greedy then [] else ['?']

/-! ## Sources of one row -/

theorem Pattern.term_leaf {setting : Setting} {depth : Nat} {s : Progress} {text after rest : List Char}
    {element n : Node} (htext : s.rest = text)
    (hleaf : Leaf setting (Class.nested setting depth) text element true after)
    (hends : Ends setting element true after n rest) :
    termAt setting depth s = .ok (n, s.next rest) := by
  subst htext
  exact term_iff.2 ⟨_, _, _, _, unquantified_leaf hleaf, hends, rfl⟩

namespace Regex

variable {source : List Char} {flags : Flags}

/-- The regular expression of a source that is one row of elements. -/
def ofRow (source : List Char) (flags : Flags) (row : List Node) : Regex :=
  ⟨source, flags, .choice .whole [.alternative row]⟩

/-- The reader of the terms of a source that stand in no group. -/
abbrev outerTerm (source : List Char) (flags : Flags) : NodeReader :=
  termAt (settingOf flags source) (nestingLimit - 1)

theorem parse_row {row : List Node} {s : Progress}
    (h : Row (outerTerm source flags) ⟨source, 0, []⟩ row s) (hrest : s.rest = [])
    (hreference : (ofRow source flags row).root.nodes.all (fun n => n.kind != .backreference) = true) :
    Regex.parse source flags = .ok (ofRow source flags row) := by
  refine parse_iff.2 ⟨_, s, disjunction_iff.2 (.last h ?_), hrest, fun name hname => ?_, rfl⟩
  · rw [hrest]
    nofun
  · have hkind := List.all_eq_true.1 hreference _ (mem_nodes.2 hname)
    exact absurd hkind Bool.false_ne_true

/-- A source whose first term has a fault is refused with it. -/
theorem parse_error_of_term {f : Fault} (hend : ¬ AtEnd source)
    (h : outerTerm source flags ⟨source, 0, []⟩ = .error f) :
    Regex.parse source flags = .error ⟨f.cause, Text.width source - Text.width f.rest⟩ := by
  obtain ⟨k, hk⟩ : ∃ k, source.length = k + 1 :=
    ⟨source.length - 1, (Nat.sub_add_cancel (length_pos_of_not_atEnd hend)).symm⟩
  have hrow : Pattern.elements (outerTerm source flags) source.length ⟨source, 0, []⟩ =
      .error f := by
    rw [hk, elements_succ hend, h]
    rfl
  have hfirst : Pattern.alternative (outerTerm source flags) ⟨source, 0, []⟩ = .error f := by
    rw [Pattern.alternative, hrow]
    rfl
  have hread : read nestingLimit flags source = .error f := by
    show disjunction _ (nestingLimit - 1 + 1) _ >>= _ = _
    rw [disjunction, alternatives_error hfirst]
    rfl
  rw [Regex.parse, Pattern.parse, parseWithin, hread]
  rfl

theorem not_atEnd_cons {c : Char} (hc : c ∉ ['|', ')']) (r : List Char) : ¬ AtEnd (c :: r) := by
  simp only [List.mem_cons, List.not_mem_nil, or_false, not_or] at hc
  rintro (h | ⟨after, h | h⟩)
  · cases h
  · exact hc.1 (List.cons.inj h).1
  · exact hc.2 (List.cons.inj h).1

/-! ## Bounds -/

/-- Bounds are read back from their text, with a question mark after it if they are lazy. -/
theorem parse_quantifierText (flags : Flags) (bounds : Bounds) (greedy : Bool)
    (hmin : bounds.min ≤ Bounds.limit) (hmax : ∀ m, bounds.max = some m → m ≤ Bounds.limit) :
    Regex.parse ('a' :: bounds.quantifierText greedy) flags =
      .ok (ofRow ('a' :: bounds.quantifierText greedy) flags
        [.quantifier bounds greedy (bounds.quantifierText greedy) (.character ⟨97, ['a']⟩)]) := by
  have hread (setting : Setting) :
      Lexeme.quantifier? setting (bounds.quantifierText greedy) =
        .ok (some (bounds, greedy), []) := by
    have hnone : ([] : List Char).head? ≠ some '?' := nofun
    have hread := Lexeme.quantifier?_toText hmin hmax setting greedy hnone
    rwa [List.append_nil] at hread
  generalize bounds.quantifierText greedy = mark at hread
  have hmark : textBefore mark [] = mark := by
    simpa only [List.append_nil] using textBefore_left mark []
  have hleaf {setting : Setting} {innerClass : List Char → Except Fault (Node × List Char)} :
      Leaf setting innerClass ('a' :: mark) (.character ⟨97, ['a']⟩) true mark :=
    .plain ⟨by decide, rfl, fun _ => by decide⟩
  have hends (setting : Setting) (element : Node) :
      Ends setting element true mark (.quantifier bounds greedy mark element) [] := by
    have hrepeated : Ends setting element true mark
        (.quantifier bounds greedy (textBefore mark []) element) [] := .repeated (hread setting)
    rwa [hmark] at hrepeated
  exact parse_row (.step (not_atEnd_cons (by decide) _) (term_leaf rfl hleaf (hends _ _))
    (.stop (.inl rfl))) rfl rfl

/-- The greatest count is read as it is, and the question mark after it is no quantifier. -/
theorem parse_quantifierText_limit :
    let bounds : Bounds := ⟨2, some 4294967295, fun _ h => Option.some.inj h ▸ (by decide)⟩
    let mark := ['{', '2', ',', '4', '2', '9', '4', '9', '6', '7', '2', '9', '5', '}', '?']
    bounds.quantifierText false = mark ∧ bounds.min ≤ Bounds.limit ∧
      (∀ m, bounds.max = some m → m ≤ Bounds.limit) ∧
      Regex.parse ('a' :: mark) { unicode := true } = .ok (ofRow ('a' :: mark) { unicode := true }
        [.quantifier bounds false mark (.character ⟨97, ['a']⟩)]) := by
  intro bounds mark
  have hmark : bounds.quantifierText false = mark := by decide
  have hmax : ∀ m, bounds.max = some m → m ≤ Bounds.limit := by
    rintro m ⟨⟩
    decide
  have hparse := parse_quantifierText { unicode := true } bounds false (by decide) hmax
  rw [hmark] at hparse
  exact ⟨hmark, by decide, hmax, hparse⟩

end Regex

/-! ## Hexadecimal digits -/

/-- The digits of base sixteen, in order. -/
def hexDigits : List Char :=
  ['0', '1', '2', '3', '4', '5', '6', '7', '8', '9', 'a', 'b', 'c', 'd', 'e', 'f']

/-- The same with capital letters. -/
def capitalHexDigits : List Char :=
  ['0', '1', '2', '3', '4', '5', '6', '7', '8', '9', 'A', 'B', 'C', 'D', 'E', 'F']

/-- A text of hexadecimal digits, each in either case. -/
def IsHex (text : List Char) : Prop := ∀ c ∈ text, c ∈ hexDigits ++ capitalHexDigits

-- The instance is named: another one would go through all characters there are.
instance (text : List Char) : Decidable (IsHex text) := List.decidableBAll _ text

def hexDigitValue (c : Char) : Nat :=
  if hexDigits.contains c then hexDigits.idxOf c else capitalHexDigits.idxOf c

/-- The number that hexadecimal digits write. -/
def hexValue (text : List Char) : Nat := Nat.ofDigits 16 (text.map hexDigitValue).reverse

/-- Four hexadecimal digits that write a number. -/
structure WritesUnit (text : List Char) (n : Nat) : Prop where
  length : text.length = 4
  isHex : IsHex text
  value : hexValue text = n

namespace Lexeme

theorem hexDigit_all : ∀ c ∈ hexDigits ++ capitalHexDigits,
    isHexDigit c = true ∧ digitValue c = hexDigitValue c := by
  have hall : (hexDigits ++ capitalHexDigits).all
      (fun c => isHexDigit c && digitValue c == hexDigitValue c) = true := by decide
  intro c hc
  have hdigit := List.all_eq_true.1 hall c hc
  rwa [Bool.and_eq_true, beq_iff_eq] at hdigit

theorem numeral_eq_hexValue {text : List Char} (h : IsHex text) :
    numeral 16 text = hexValue text := by
  rw [hexValue, Nat.ofDigits_eq_foldr, List.foldr_reverse, List.foldl_map]
  refine List.foldl_ext _ _ _ fun n c hc => ?_
  rw [(hexDigit_all c (h c hc)).2, Nat.mul_comm, Nat.add_comm]
  rfl

theorem hex?_of_writesUnit {text : List Char} {n : Nat} (h : WritesUnit text n)
    (after : List Char) : hex? 4 (text ++ after) = some (n, after) := by
  have hdigits : ∀ c ∈ text, isHexDigit c = true := fun c hc => (hexDigit_all c (h.isHex c hc)).1
  exact hex?_eq_some.2 ⟨text, rfl, h.length, hdigits, by rw [numeral_eq_hexValue h.isHex, h.value]⟩

/-- The digits in braces are read to the closing brace, however many they are. -/
theorem bracedCode?_of_isHex {text : List Char} (hne : text ≠ []) (h : IsHex text)
    (after : List Char) : bracedCode? (text ++ '}' :: after) =
      if hexValue text ≤ 0x10FFFF then some (hexValue text, after) else none := by
  have hall : ∀ c ∈ text, isHexDigit c = true := fun c hc => (hexDigit_all c (h c hc)).1
  have htake : (text ++ '}' :: after).takeWhile isHexDigit = text := by
    rw [List.takeWhile_append_of_pos hall, List.takeWhile_cons_of_neg (by decide), List.append_nil]
  have hdrop : (text ++ '}' :: after).dropWhile isHexDigit = '}' :: after := by
    rw [List.dropWhile_append_of_pos hall, List.dropWhile_cons_of_neg (by decide)]
  have hnotEmpty : text.isEmpty = false := List.isEmpty_eq_false_iff.2 hne
  simp only [bracedCode?, htake, hdrop, numeral_eq_hexValue h, hnotEmpty, Bool.not_false,
    Bool.true_and, decide_eq_true_eq]

end Lexeme

/-! ## Code points -/

/-- The first of the two surrogates that write a code point from U+10000 on. -/
def leadSurrogate (code : Nat) : Nat := 0xD800 + (code - 0x10000) / 0x400

/-- The second of them. -/
def trailSurrogate (code : Nat) : Nat := 0xDC00 + (code - 0x10000) % 0x400

theorem leadSurrogate_bounds {code : Nat} (h : code ≤ 0x10FFFF) :
    0xD800 ≤ leadSurrogate code ∧ leadSurrogate code ≤ 0xDBFF := by
  unfold leadSurrogate
  omega

theorem trailSurrogate_bounds (code : Nat) :
    0xDC00 ≤ trailSurrogate code ∧ trailSurrogate code ≤ 0xDFFF := by
  unfold trailSurrogate
  omega

theorem joinSurrogates_surrogates {code : Nat} (h : 0x10000 ≤ code) :
    Lexeme.joinSurrogates (leadSurrogate code) (trailSurrogate code) = code := by
  unfold Lexeme.joinSurrogates leadSurrogate trailSurrogate
  omega

namespace Pattern

variable {setting : Setting} {depth : Nat} {s : Progress} {r rest : List Char}

theorem escaped_unicode (setting : Setting) (r : List Char) : escaped setting ('u' :: r) =
    (Lexeme.unicodeEscape setting r).map fun (value, after) =>
      (.character ⟨value, '\\' :: textBefore ('u' :: r) after⟩, after) := by
  have hset : Lexeme.shorthand? setting ('u' :: r) = .ok (none, 'u' :: r) := by
    simp [Lexeme.shorthand?]
  have hread : escaped setting ('u' :: r) = Lexeme.unicodeEscape setting r >>= fun (value, after) =>
      .ok (.character ⟨value, '\\' :: textBefore ('u' :: r) after⟩, after) := by
    unfold escaped
    rw [hset]
    rfl
  rw [hread]
  cases Lexeme.unicodeEscape setting r <;> rfl

/-- An escape by number is a term of its own where no quantifier comes after it. -/
theorem term_unicode {value : Nat} (hrest : s.rest = '\\' :: 'u' :: (r ++ rest))
    (hread : Lexeme.unicodeEscape setting (r ++ rest) = .ok (value, rest))
    (hends : Lexeme.quantifier? setting rest = .ok (none, rest)) :
    termAt setting depth s = .ok (.character ⟨value, '\\' :: 'u' :: r⟩, s.next rest) := by
  have hescaped : escaped setting ('u' :: (r ++ rest)) =
      .ok (.character ⟨value, '\\' :: 'u' :: r⟩, rest) := by
    rw [escaped_unicode, hread]
    show Except.ok (Node.character ⟨value, '\\' :: textBefore ('u' :: r ++ rest) rest⟩, rest) = _
    rw [textBefore_left]
  exact term_leaf hrest (.escape nofun nofun hescaped) (.repeatable hends)

theorem term_unicode_error {f : Fault} (hrest : s.rest = '\\' :: 'u' :: r)
    (hread : Lexeme.unicodeEscape setting r = .error f) :
    termAt setting depth s = .error f := by
  have hescaped : escaped setting ('u' :: r) = .error f := by
    rw [escaped_unicode, hread]
    rfl
  simp [term, hrest, Lexeme.atQuantifier, Lexeme.braces?, atom, hescaped, bind, Except.bind]

end Pattern

namespace Regex

/-- The character of an escape by number. -/
abbrev escapeOf (value : Nat) (digits : List Char) : Node :=
  .character ⟨value, '\\' :: 'u' :: digits⟩

/-- Digits in braces are one code point, if there is one with that number. -/
theorem parse_braced {flags : Flags} (hmode : flags.unicodeMode = true) {digits : List Char}
    (hne : digits ≠ []) (hdigits : IsHex digits) :
    let written := '{' :: digits ++ ['}']
    let source := '\\' :: 'u' :: written
    Regex.parse source flags =
      if hexValue digits ≤ 0x10FFFF then .ok (ofRow source flags [escapeOf (hexValue digits) written])
      else .error ⟨.unicodeEscape, 2⟩ := by
  intro written source
  have hstrict : (settingOf flags source).strict = true := hmode
  have hcode := Lexeme.bracedCode?_of_isHex hne hdigits []
  split
  · rename_i hle
    rw [if_pos hle] at hcode
    have hread : Lexeme.unicodeEscape (settingOf flags source) (written ++ []) =
        .ok (hexValue digits, []) := by
      rw [List.append_nil]
      show Lexeme.unicodeEscape _ ('{' :: (digits ++ ['}'])) = _
      simp only [Lexeme.unicodeEscape, hstrict, if_true, hcode]
    have hsource : source = '\\' :: 'u' :: (written ++ []) := by rw [List.append_nil]
    exact parse_row (.step (not_atEnd_cons (by decide) _) (term_unicode hsource hread rfl)
      (.stop (.inl rfl))) rfl rfl
  · rename_i hle
    rw [if_neg hle] at hcode
    have hread : Lexeme.unicodeEscape (settingOf flags source) written =
        .error ⟨.unicodeEscape, written⟩ := by
      show Lexeme.unicodeEscape _ ('{' :: (digits ++ ['}'])) = _
      simp only [Lexeme.unicodeEscape, hstrict, if_true, hcode]
      rfl
    rw [parse_error_of_term (not_atEnd_cons (by decide) _) (term_unicode_error rfl hread)]
    have hwidth : Text.width source - Text.width written = 2 := by
      show Char.utf8Size '\\' + (Char.utf8Size 'u' + Text.width written) - _ = 2
      have hslash : Char.utf8Size '\\' = 1 := rfl
      have hu : Char.utf8Size 'u' = 1 := rfl
      omega
    rw [hwidth]

/-- Two surrogates are the code point they write, or two characters. -/
theorem parse_surrogates (flags : Flags) {code : Nat} {high low : List Char}
    (hlow : 0x10000 ≤ code) (hhigh : code ≤ 0x10FFFF) (hlead : WritesUnit high (leadSurrogate code))
    (htrail : WritesUnit low (trailSurrogate code)) :
    let written := high ++ '\\' :: 'u' :: low
    let source := '\\' :: 'u' :: written
    Regex.parse source flags = .ok (ofRow source flags
      (if flags.unicodeMode then [escapeOf code written]
      else [escapeOf (leadSurrogate code) high, escapeOf (trailSurrogate code) low])) := by
  intro written source
  have hleadBounds := leadSurrogate_bounds hhigh
  cases hmode : flags.unicodeMode with
  | true =>
    have hstrict : (settingOf flags source).strict = true := hmode
    have htwo : Lexeme.trailSurrogate? ('\\' :: 'u' :: low) = some (trailSurrogate code, []) := by
      have hhex := Lexeme.hex?_of_writesUnit htrail []
      rw [List.append_nil] at hhex
      exact Lexeme.trailSurrogate?_eq_some.2 ⟨low, rfl, hhex, trailSurrogate_bounds code⟩
    have hread : Lexeme.unicodeEscape (settingOf flags source) (written ++ []) = .ok (code, []) := by
      rw [List.append_nil, Lexeme.unicodeEscape_iff, ← joinSurrogates_surrogates hlow]
      exact .pair hstrict (Lexeme.hex?_of_writesUnit hlead _) hleadBounds.1 hleadBounds.2 htwo
    have hsource : source = '\\' :: 'u' :: (written ++ []) := by rw [List.append_nil]
    exact parse_row (.step (not_atEnd_cons (by decide) _) (term_unicode hsource hread rfl)
      (.stop (.inl rfl))) rfl rfl
  | false =>
    have hlenient : (settingOf flags source).strict = false := hmode
    have hunit {text : List Char} {n : Nat} (h : WritesUnit text n) (after : List Char) :
        Lexeme.unicodeEscape (settingOf flags source) (text ++ after) = .ok (n, after) := by
      refine Lexeme.unicodeEscape_iff.2 (.single (Lexeme.hex?_of_writesUnit h after) ?_)
      rw [hlenient]
      exact nofun
    have hfirst : outerTerm source flags ⟨source, 0, []⟩ =
        .ok (escapeOf (leadSurrogate code) high, ⟨'\\' :: 'u' :: low, 0, []⟩) :=
      term_unicode rfl (hunit hlead _) rfl
    have hlast : ('\\' :: 'u' :: low) = '\\' :: 'u' :: (low ++ []) := by rw [List.append_nil]
    have hsecond : outerTerm source flags ⟨'\\' :: 'u' :: low, 0, []⟩ =
        .ok (escapeOf (trailSurrogate code) low, ⟨[], 0, []⟩) :=
      term_unicode hlast (hunit htrail []) rfl
    exact parse_row (.step (not_atEnd_cons (by decide) _) hfirst
      (.step (not_atEnd_cons (by decide) _) hsecond (.stop (.inl rfl)))) rfl rfl

/-- With `u` or `v`, hexadecimal digits in braces are the code point they write, or are refused if there
is none. Two surrogates of four digits each are then the code point they stand for, and two
characters otherwise. -/
theorem parse_codePoint (flags : Flags) :
    (flags.unicodeMode = true → ∀ digits, digits ≠ [] → IsHex digits →
      let written := '{' :: digits ++ ['}']
      let source := '\\' :: 'u' :: written
      Regex.parse source flags =
        if hexValue digits ≤ 0x10FFFF then
          .ok (ofRow source flags [escapeOf (hexValue digits) written])
        else .error ⟨.unicodeEscape, 2⟩) ∧
    ∀ code high low, 0x10000 ≤ code → code ≤ 0x10FFFF → WritesUnit high (leadSurrogate code) →
      WritesUnit low (trailSurrogate code) →
      let written := high ++ '\\' :: 'u' :: low
      let source := '\\' :: 'u' :: written
      Regex.parse source flags = .ok (ofRow source flags
        (if flags.unicodeMode then [escapeOf code written]
        else [escapeOf (leadSurrogate code) high, escapeOf (trailSurrogate code) low])) :=
  ⟨fun hmode _ hne hdigits => parse_braced hmode hne hdigits,
    fun _ _ _ hlow hhigh hlead htrail => parse_surrogates flags hlow hhigh hlead htrail⟩

/-- U+1F600 in braces and as two surrogates, and the first number that is no code point. -/
theorem parse_codePoint_face :
    let braced := ['{', '0', '0', '1', 'f', '6', '0', '0', '}']
    let paired := ['D', '8', '3', 'd', '\\', 'u', 'D', 'E', '0', '0']
    let tooLarge := ['\\', 'u', '{', '1', '1', '0', '0', '0', '0', '}']
    Regex.parse ('\\' :: 'u' :: braced) { unicode := true } =
        .ok (ofRow ('\\' :: 'u' :: braced) { unicode := true } [escapeOf 0x1F600 braced]) ∧
      Regex.parse tooLarge { unicodeSets := true } = .error ⟨.unicodeEscape, 2⟩ ∧
      Regex.parse ('\\' :: 'u' :: paired) { unicodeSets := true } =
        .ok (ofRow ('\\' :: 'u' :: paired) { unicodeSets := true } [escapeOf 0x1F600 paired]) ∧
      Regex.parse ('\\' :: 'u' :: paired) .empty = .ok (ofRow ('\\' :: 'u' :: paired) .empty
        [escapeOf 0xD83D ['D', '8', '3', 'd'], escapeOf 0xDE00 ['D', 'E', '0', '0']]) := by
  have hhigh : WritesUnit ['D', '8', '3', 'd'] (leadSurrogate 0x1F600) :=
    ⟨rfl, by decide, by decide⟩
  have hlow : WritesUnit ['D', 'E', '0', '0'] (trailSurrogate 0x1F600) :=
    ⟨rfl, by decide, by decide⟩
  exact ⟨(parse_codePoint { unicode := true }).1 rfl ['0', '0', '1', 'f', '6', '0', '0'] (by decide)
      (by decide),
    (parse_codePoint { unicodeSets := true }).1 rfl ['1', '1', '0', '0', '0', '0'] (by decide)
      (by decide),
    (parse_codePoint { unicodeSets := true }).2 0x1F600 _ _ (by decide) (by decide) hhigh hlow,
    (parse_codePoint .empty).2 0x1F600 _ _ (by decide) (by decide) hhigh hlow⟩

end Regex

end RegexAudit
