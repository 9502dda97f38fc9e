import RegexAudit.Proofs.Groups
import RegexAudit.Proofs.Readings

/-!
# Counting groups in advance

`Lexeme.countGroups` passes over a text without reading it. What the readers take they leave as it
is, except for the groups they open:

    countGroups nested 0 s.rest = tally (ns.flatMap captures) (countGroups nested 0 s'.rest)

where `ns` is read from `s` to `s'` (`scans_disjunction`). There is one exception: the search knows
nothing of strings in classes, and takes a bracket in them for that of a class. So the equation is
about trees without such brackets.
-/

namespace RegexAudit

namespace Lexeme

variable {nested : Bool} {depth : Nat} {setting : Setting}

/-! ## Quiet texts -/

/-- Characters that mean nothing to the search for groups. -/
def isQuiet (c : Char) : Bool := !(['\\', '[', ']', '('].contains c)

/-- Quiet characters and escapes in a row. -/
inductive Quiet : List Char → Prop
  | nil : Quiet []
  | char {c : Char} {w : List Char} : isQuiet c = true → Quiet w → Quiet (c :: w)
  | escape (c : Char) {w : List Char} : Quiet w → Quiet ('\\' :: c :: w)

theorem countGroups_char {c : Char} (h : isQuiet c = true) (r : List Char) :
    countGroups nested depth (c :: r) = countGroups nested depth r := by
  simp only [isQuiet, List.contains_eq_mem, List.mem_cons, List.not_mem_nil, or_false,
    Bool.not_eq_true', decide_eq_false_iff_not, not_or] at h
  obtain ⟨hbackslash, hopen, hclose, hparenthesis⟩ := h
  rw [countGroups]
  · exact fun hc _ => hbackslash hc
  · exact fun _ _ hc _ => hbackslash hc
  · exact hopen
  · exact hclose
  · exact hparenthesis

/-- What is quiet is passed over by the count. -/
theorem Quiet.countGroups {w : List Char} (h : Quiet w) (r : List Char) :
    countGroups nested depth (w ++ r) = Lexeme.countGroups nested depth r := by
  induction h with
  | nil => rfl
  | char hc _ ih => rw [List.cons_append, countGroups_char hc, ih]
  | escape c _ ih => rw [List.cons_append, List.cons_append, Lexeme.countGroups, ih]

theorem Quiet.append {v w : List Char} (hv : Quiet v) (hw : Quiet w) : Quiet (v ++ w) := by
  induction hv with
  | nil => exact hw
  | char hc _ ih => exact .char hc ih
  | escape c _ ih => exact .escape c ih

/-- A test that none of the marks passes tells quiet characters. -/
theorem isQuiet_of {p : Char → Bool} (hp : ['\\', '[', ']', '('].all (fun c => !p c) = true) {c : Char}
    (h : p c = true) : isQuiet c = true := by
  simp only [List.all_cons, List.all_nil, Bool.and_true, Bool.and_eq_true, Bool.not_eq_true'] at hp
  simp only [isQuiet, List.contains_eq_mem, List.mem_cons, List.not_mem_nil, or_false,
    Bool.not_eq_true', decide_eq_false_iff_not, not_or]
  refine ⟨?_, ?_, ?_, ?_⟩ <;> rintro rfl <;> simp_all

theorem quiet_of_forall {w : List Char} (h : ∀ c ∈ w, isQuiet c = true) : Quiet w := by
  induction w with
  | nil => exact .nil
  | cons c w ih => exact .char (h c (by simp)) (ih fun d hd => h d (by simp [hd]))

theorem isQuiet_of_isDigit {c : Char} (h : c.isDigit = true) : isQuiet c = true :=
  isQuiet_of (by decide) h

theorem isQuiet_of_isHexDigit {c : Char} (h : isHexDigit c = true) : isQuiet c = true :=
  isQuiet_of (by decide) h

theorem isQuiet_of_isOctalDigit {c : Char} (h : isOctalDigit c = true) : isQuiet c = true :=
  isQuiet_of (by decide) h

theorem isQuiet_of_isNamePart {c : Char} (h : isNamePart c = true) : isQuiet c = true :=
  isQuiet_of (by decide +kernel) h

theorem isQuiet_of_isNameStart {c : Char} (h : isNameStart c = true) : isQuiet c = true :=
  isQuiet_of (by decide +kernel) h

/-- A name holds none of the four characters that the count looks at. -/
theorem IsName.quiet {name : List Char} (h : IsName name) : Quiet name := by
  obtain ⟨c, tail, rfl, hstart, hpart⟩ := h
  exact .char (isQuiet_of_isNameStart hstart)
    (quiet_of_forall fun d hd => isQuiet_of_isNamePart (hpart d hd))

/-! ## Escapes -/

theorem decimal?_quiet {r after : List Char} {n : Nat} (h : decimal? r = some (n, after)) :
    ∃ w, r = w ++ after ∧ ∀ c ∈ w, c.isDigit = true := by
  obtain ⟨-, -, rfl⟩ := decimal?_eq_some.1 h
  exact ⟨_, List.takeWhile_append_dropWhile.symm, fun c hc => List.mem_takeWhile_imp hc⟩

theorem hex?_quiet {k : Nat} {r after : List Char} {n : Nat} (h : hex? k r = some (n, after)) :
    ∃ w, r = w ++ after ∧ Quiet w := by
  obtain ⟨w, hr, -, hw, -⟩ := hex?_eq_some.1 h
  exact ⟨w, hr, quiet_of_forall fun c hc => isQuiet_of_isHexDigit (hw c hc)⟩

theorem octal_quiet (k value : Nat) (r : List Char) :
    ∃ w, r = w ++ (octal k value r).2 ∧ ∀ c ∈ w, isOctalDigit c = true := by
  induction k generalizing value r with
  | zero => exact ⟨[], by simp [octal], by simp⟩
  | succ k ih =>
    cases r with
    | nil => exact ⟨[], by simp [octal], by simp⟩
    | cons c r =>
      rw [octal]
      split
      · rename_i hc
        simp only [Bool.and_eq_true] at hc
        obtain ⟨w, hw, hdigits⟩ := ih (value * 8 + digitValue c) r
        refine ⟨c :: w, congrArg _ hw, ?_⟩
        simpa using ⟨hc.1, hdigits⟩
      · exact ⟨[], rfl, by simp⟩

/-- Octal digits after a backslash: the first character stands for itself or is one of them. -/
theorem octalOrSelf_quiet {c : Char} {r rest : List Char} {n : Nat}
    (h : octalOrSelf (c :: r) = (n, rest)) : ∃ w, c :: r = w ++ rest ∧ Quiet ('\\' :: w) := by
  have hsuffix := suffix_octalOrSelf c r
  rw [h] at hsuffix
  rw [octalOrSelf] at h
  split at h
  · obtain ⟨w, hw, hdigits⟩ := octal_quiet 3 0 (c :: r)
    rw [h] at hw
    cases w with
    | nil =>
      have hlength := hsuffix.length_le
      rw [← show c :: r = rest from hw, List.length_cons] at hlength
      omega
    | cons d w =>
      refine ⟨_, hw, .escape d (quiet_of_forall fun e he => ?_)⟩
      exact isQuiet_of_isOctalDigit (hdigits e (by simp [he]))
  · cases h
    exact ⟨[c], rfl, .escape c .nil⟩

theorem isPropertyPart_quiet {w : List Char} (h : isPropertyPart w = true) : Quiet w := by
  simp only [isPropertyPart, Bool.and_eq_true, List.all_eq_true] at h
  exact quiet_of_forall fun c hc =>
    isQuiet_of (p := fun c => c.isAlphanum || c == '_') (by decide) (h.2 c hc)

theorem propertyParts?_quiet {body value : List Char} {key : Option (List Char)}
    (h : propertyParts? body = some (key, value)) : Quiet body := by
  have hsource := propertyParts?_source h
  unfold propertyParts? at h
  split at h
  · split at h
    · rename_i hbody
      exact isPropertyPart_quiet hbody
    · cases h
  · simp only at h
    split at h
    · rename_i hparts
      simp only [Bool.and_eq_true] at hparts
      cases h
      rw [hsource]
      exact ((isPropertyPart_quiet hparts.1).append (.char rfl .nil)).append
        (isPropertyPart_quiet hparts.2)
    · cases h

/-- A property is quiet: its name holds letters, digits and underscores. -/
theorem property_quiet {negate : Bool} {r after : List Char} {set : Shorthand}
    (h : property setting negate r = .ok (set, after)) : ∃ w, r = w ++ after ∧ Quiet w := by
  obtain ⟨body, key, value, rfl, -, hparts, -⟩ := property_iff.1 h
  refine ⟨'{' :: (body ++ ['}']), by simp, .char rfl ?_⟩
  exact (propertyParts?_quiet hparts).append (.char rfl .nil)

theorem shorthand?_quiet {r rest : List Char} {set : Shorthand}
    (h : shorthand? setting r = .ok (some set, rest)) : ∃ w, r = w ++ rest ∧ Quiet ('\\' :: w) := by
  obtain ⟨c, tail, rfl, ⟨-, rfl⟩ | ⟨-, -, hproperty⟩⟩ := shorthand?_iff.1 h
  · exact ⟨[c], rfl, .escape c .nil⟩
  · obtain ⟨w, rfl, hw⟩ := property_quiet hproperty
    exact ⟨c :: w, rfl, .escape c hw⟩

theorem UnicodeEscape.quiet {strict : Bool} {r rest : List Char} {n : Nat}
    (h : UnicodeEscape strict r n rest) : ∃ w, r = w ++ rest ∧ Quiet w := by
  cases h with
  | braced _ hcode =>
    obtain ⟨digits, rfl, -, hdigits, -⟩ := bracedCode?_eq_some.1 hcode
    refine ⟨'{' :: (digits ++ ['}']), by simp, .char rfl (.append ?_ (.char rfl .nil))⟩
    exact quiet_of_forall fun c hc => isQuiet_of_isHexDigit (hdigits c hc)
  | pair _ hlead _ _ htrail =>
    obtain ⟨w, rfl, hw⟩ := hex?_quiet hlead
    obtain ⟨tail, rfl, hhex, -⟩ := trailSurrogate?_eq_some.1 htrail
    obtain ⟨v, rfl, hv⟩ := hex?_quiet hhex
    exact ⟨w ++ '\\' :: 'u' :: v, by simp, hw.append (.escape 'u' hv)⟩
  | single hhex _ => exact hex?_quiet hhex
  | self _ _ => exact ⟨[], rfl, .nil⟩

theorem isQuiet_of_isControlLetter {inClass : Bool} {l : Char}
    (h : isControlLetter setting inClass l = true) : isQuiet l = true := by
  refine isQuiet_of (p := fun l => l.isAlpha || (l.isDigit || l == '_')) (by decide) ?_
  rw [isControlLetter] at h
  revert h
  cases l.isAlpha <;> simp +contextual

/-- An escape of a character is quiet, unless it is a backslash alone before a `c`. -/
theorem characterEscape_quiet {inClass : Bool} {r rest : List Char} {n : Nat}
    (h : characterEscape setting inClass r = .ok (n, rest)) :
    (∃ w, r = w ++ rest ∧ Quiet ('\\' :: w)) ∨ ∃ tail, r = 'c' :: tail ∧ rest = r := by
  cases characterEscape_iff.1 h with
  | letter hletter =>
    exact .inl ⟨['c', _], rfl, .escape 'c' (.char (isQuiet_of_isControlLetter hletter) .nil)⟩
  | backslash _ _ => exact .inr ⟨_, rfl, rfl⟩
  | hex hhex =>
    obtain ⟨w, rfl, hw⟩ := hex?_quiet hhex
    exact .inl ⟨'x' :: w, rfl, .escape 'x' hw⟩
  | unicode hcode =>
    obtain ⟨w, rfl, hw⟩ := hcode.quiet
    exact .inl ⟨'u' :: w, rfl, .escape 'u' hw⟩
  | octal _ _ _ hoctal => exact .inl (octalOrSelf_quiet hoctal)
  | _ => exact .inl ⟨[_], rfl, .escape _ .nil⟩

/-! ## Quantifiers -/

theorem count?_quiet {r after : List Char} {n : Nat} (h : count? r = some (n, after)) :
    ∃ w, r = w ++ after ∧ Quiet w := by
  obtain ⟨⟨m, after'⟩, hdecimal, heq⟩ := Option.map_eq_some_iff.1 h
  cases heq
  obtain ⟨w, hr, hw⟩ := decimal?_quiet hdecimal
  exact ⟨w, hr, quiet_of_forall fun c hc => isQuiet_of_isDigit (hw c hc)⟩

/-- Counts are quiet. -/
theorem Counts.quiet {text rest : List Char} {counts : Nat × Option Nat}
    (h : Counts text counts rest) : ∃ w, text = w ++ rest ∧ Quiet w := by
  cases h with
  | star _ => exact ⟨['*'], rfl, .char rfl .nil⟩
  | plus _ => exact ⟨['+'], rfl, .char rfl .nil⟩
  | optional _ => exact ⟨['?'], rfl, .char rfl .nil⟩
  | exactly hread =>
    obtain ⟨w, rfl, hw⟩ := count?_quiet hread
    exact ⟨'{' :: (w ++ ['}']), by simp, .char rfl (hw.append (.char rfl .nil))⟩
  | atLeast hread =>
    obtain ⟨w, rfl, hw⟩ := count?_quiet hread
    exact ⟨'{' :: (w ++ [',', '}']), by simp, .char rfl (hw.append (.char rfl (.char rfl .nil)))⟩
  | between hleast hmost =>
    obtain ⟨w, rfl, hw⟩ := count?_quiet hleast
    obtain ⟨v, rfl, hv⟩ := count?_quiet hmost
    exact ⟨'{' :: (w ++ ',' :: (v ++ ['}'])), by simp,
      .char rfl (hw.append (.char rfl (hv.append (.char rfl .nil))))⟩

theorem Quantifies.quiet {text rest : List Char} {read : Bounds × Bool}
    (h : Quantifies text read rest) : ∃ w, text = w ++ rest ∧ Quiet w := by
  cases h with
  | lazy hcounts _ =>
    obtain ⟨w, rfl, hw⟩ := hcounts.quiet
    exact ⟨w ++ ['?'], by simp, hw.append (.char rfl .nil)⟩
  | greedy hcounts _ _ => exact hcounts.quiet

/-! ## Passing over escapes and classes -/

/-- The search passes over what is read as an escape. -/
theorem countGroups_escape {r rest : List Char}
    (h : (∃ w, r = w ++ rest ∧ Quiet ('\\' :: w)) ∨ ∃ tail, r = 'c' :: tail ∧ rest = r) :
    countGroups nested depth ('\\' :: r) = countGroups nested depth rest := by
  rcases h with ⟨w, rfl, hw⟩ | ⟨tail, rfl, rfl⟩
  · exact hw.countGroups rest
  · rw [countGroups, countGroups_char rfl]

/-- In a class, parentheses are quiet too, and without `v` so are opening brackets. -/
theorem countGroups_inClass {c : Char} (hbackslash : c ≠ '\\') (hclose : c ≠ ']')
    (hopen : nested = true → c ≠ '[') (r : List Char) :
    countGroups nested (depth + 1) (c :: r) = countGroups nested (depth + 1) r := by
  by_cases hparenthesis : c = '('
  · subst hparenthesis
    simp [countGroups]
  · by_cases hbracket : c = '['
    · subst hbracket
      have hnested : nested = false := by
        cases nested
        · rfl
        · exact absurd rfl (hopen rfl)
      simp [countGroups, hnested]
    · refine countGroups_char ?_ r
      simp [isQuiet, hbackslash, hbracket, hclose, hparenthesis]

end Lexeme

namespace Node

/-- Whether this is a string in a class with a bracket that has no backslash. -/
def holdsBracket : Node → Bool
  | string letters => letters.any fun letter => letter.lexeme == ['['] || letter.lexeme == [']']
  | _ => false

/-- No string in the tree holds a bracket without a backslash. -/
def Unbracketed : Node → Prop := Throughout fun m => m.holdsBracket = false

theorem Unbracketed.child {n c : Node} (h : n.Unbracketed) (hc : c ∈ n.children) : c.Unbracketed :=
  (throughout_iff.1 h).2 c hc

theorem unbracketed_character (letter : Letter) : (character letter).Unbracketed :=
  throughout_iff.2 ⟨rfl, by simp [children]⟩

end Node

open Node

/-! ## Classes -/

namespace Class

open Lexeme

variable {setting : Setting} {depth : Nat} {nestedSets : Bool}

theorem Escape.scans {r rest : List Char} {n : Node} (h : Escape setting r n rest) :
    countGroups nestedSets depth ('\\' :: r) = countGroups nestedSets depth rest := by
  cases h with
  | shorthand h => exact countGroups_escape (.inl (shorthand?_quiet h))
  | character _ h => exact countGroups_escape (characterEscape_quiet h)

theorem Atom.scans {text rest : List Char} {n : Node} (h : Atom setting text n rest)
    (hopen : text.head? ≠ some ']') :
    countGroups false (depth + 1) text = countGroups false (depth + 1) rest := by
  cases h with
  | escape h => exact h.scans
  | self hbackslash _ =>
    refine countGroups_inClass hbackslash (fun hc => ?_) (by simp) _
    rw [hc] at hopen
    exact hopen rfl

/-- Inside a class the count passes over an item. -/
theorem Item.scans {text rest : List Char} {ns : List Node} (h : Item setting text ns rest)
    (hopen : text.head? ≠ some ']') :
    countGroups false (depth + 1) text = countGroups false (depth + 1) rest := by
  cases h with
  | single ha _ => exact ha.scans hopen
  | range ha hr hb _ | apart _ ha hr hb _ =>
    rw [ha.scans hopen, countGroups_char rfl, hb.scans hr]

/-- At the bracket that closes a class the count leaves the class. -/
theorem Items.scans {text rest : List Char} {ns : List Node} (h : Items setting text ns rest) :
    countGroups false (depth + 1) text = countGroups false depth rest := by
  induction h with
  | nil => simp [countGroups]
  | cons hopen hitem _ ih => rw [hitem.scans hopen, ih]

theorem scans_negation (text : List Char) :
    countGroups nestedSets depth (negation text).2 = countGroups nestedSets depth text := by
  unfold negation
  split
  · exact (countGroups_char rfl _).symm
  · rfl

theorem scans_listed {text rest : List Char} {n : Node} (h : listed setting text = .ok (n, rest)) :
    countGroups false (depth + 1) text = countGroups false depth rest := by
  obtain ⟨ns, -, hitems⟩ := listed_iff.1 h
  rw [← scans_negation]
  exact hitems.scans

theorem unbracketed_string {letters : List Letter} (h : (string letters).Unbracketed) :
    ∀ letter ∈ letters, letter.lexeme ≠ ['['] ∧ letter.lexeme ≠ [']'] := by
  have hholds := h _ .self
  simpa [holdsBracket] using hholds

theorem Letters.scans {text rest : List Char} {found : List Letter}
    (h : Letters setting text found rest)
    (hfound : ∀ letter ∈ found, letter.lexeme ≠ ['['] ∧ letter.lexeme ≠ [']']) :
    countGroups nestedSets (depth + 1) text = countGroups nestedSets (depth + 1) rest := by
  induction h with
  | bar | brace => rfl
  | escape hvalue _ ih =>
    rw [countGroups_escape (characterEscape_quiet hvalue)]
    exact ih fun letter hletter => hfound letter (List.mem_cons_of_mem _ hletter)
  | self hc _ ih =>
    simp only [List.mem_cons, List.not_mem_nil, or_false, not_or] at hc
    have hbracket := hfound _ (List.mem_cons_self ..)
    rw [countGroups_inClass hc.2.2 (by simpa using hbracket.2) fun _ => by simpa using hbracket.1]
    exact ih fun letter hletter => hfound letter (List.mem_cons_of_mem _ hletter)

/-- A string is quiet for the count if it holds no bare bracket. -/
theorem Strings.scans {text rest : List Char} {found : List (List Letter)}
    (h : Strings setting text found rest)
    (hfound : ∀ letters ∈ found, (string letters).Unbracketed) :
    countGroups nestedSets (depth + 1) text = countGroups nestedSets (depth + 1) rest := by
  induction h with
  | last h =>
    rw [h.scans (unbracketed_string (hfound _ (List.mem_cons_self ..))), countGroups_char rfl]
  | cons h _ ih =>
    rw [h.scans (unbracketed_string (hfound _ (List.mem_cons_self ..))), countGroups_char rfl]
    exact ih fun letters hletters => hfound letters (List.mem_cons_of_mem _ hletters)

/-- In a class of the flag `v`, the search passes over what a reader takes. -/
def Scans (reader : List Char → Except Fault (Node × List Char)) : Prop :=
  ∀ {text rest : List Char} {n : Node} (depth : Nat), reader text = .ok (n, rest) → n.Unbracketed →
    countGroups true (depth + 1) text = countGroups true (depth + 1) rest

variable {inner reader : List Char → Except Fault (Node × List Char)}

theorem scans_operand (hinner : ∀ {r rest n}, inner r = .ok (n, rest) → n.Unbracketed →
    ∀ depth, countGroups true (depth + 1) r = countGroups true depth rest) :
    Scans (operand setting inner) := by
  intro text rest n depth h hn
  cases operand_iff.1 h with
  | nested h => rw [countGroups, if_pos (by simp), hinner h hn]
  | strings h =>
    rw [countGroups, countGroups_char rfl]
    exact h.scans fun letters hletters => hn.child (List.mem_map_of_mem hletters)
  | escape _ h => exact h.scans
  | self hc hreserved r =>
    refine countGroups_inClass hc.2 ?_ (fun _ => hc.1) _
    rintro rfl
    exact hreserved (by decide)

section
variable (hreader : Scans reader)

include hreader

theorem Element.scans {text rest : List Char} {n : Node} (h : Element reader text n rest)
    (hn : n.Unbracketed) (depth : Nat) :
    countGroups true (depth + 1) text = countGroups true (depth + 1) rest := by
  cases h with
  | single h _ => exact hreader depth h hn
  | range ha _ hb _ =>
    rw [hreader depth ha (unbracketed_character _), countGroups_char rfl,
      hreader depth hb (unbracketed_character _)]

theorem Operations.scans {operator : SetOperator} {left n : Node} {r rest : List Char}
    (h : Operations reader operator left r n rest) (hn : n.Unbracketed) (depth : Nat) :
    left.Unbracketed ∧ countGroups true (depth + 1) r = countGroups true (depth + 1) rest := by
  have hquiet : Quiet operator.text := by
    cases operator <;> exact .char rfl (.char rfl .nil)
  induction h with
  | nil => exact ⟨hn, rfl⟩
  | cons hright _ ih =>
    obtain ⟨hoperation, hscan⟩ := ih hn
    refine ⟨hoperation.child (by simp [children]), ?_⟩
    rw [hquiet.countGroups, hreader depth hright (hoperation.child (by simp [children])), hscan]

theorem Elements.scans {text rest : List Char} {ns : List Node}
    (h : Elements reader text ns rest) (hns : ∀ n ∈ ns, n.Unbracketed) :
    countGroups true (depth + 1) text = countGroups true depth rest := by
  induction h with
  | nil => simp [countGroups]
  | cons _ _ h _ ih =>
    rw [h.scans hreader (hns _ (List.mem_cons_self ..))]
    exact ih fun m hm => hns m (List.mem_cons_of_mem _ hm)

theorem Body.scans {negate : Bool} {text rest : List Char} {n : Node}
    (h : Body reader negate text n rest) (hn : n.Unbracketed) (depth : Nat) :
    countGroups true (depth + 1) text = countGroups true depth rest := by
  cases h with
  | empty => simp [countGroups]
  | list _ hfirst _ hmore =>
    rw [hfirst.scans hreader (hn.child (by simp [children]))]
    exact hmore.scans hreader fun m hm => hn.child (by simp [children, hm])
  | expression _ hfirst _ _ h =>
    obtain ⟨hleft, hscan⟩ := h.scans hreader (hn.child (by simp [children])) depth
    rw [hreader depth hfirst hleft, hscan]
    simp [countGroups]

end

/-- The count passes over a class with `v` if no string in it holds a bare bracket. -/
theorem scans_nested {limit : Nat} {text rest : List Char} {n : Node}
    (h : Class.nested setting limit text = .ok (n, rest)) (hn : n.Unbracketed) (depth : Nat) :
    countGroups true (depth + 1) text = countGroups true depth rest := by
  induction limit generalizing text rest n depth with
  | zero => cases h
  | succ limit ih =>
    rw [← scans_negation text]
    exact (Body.of_ok h).scans (scans_operand ih) hn depth

end Class

namespace Pattern

open Lexeme

variable {setting : Setting}

/-! ## Patterns -/

/-- What a search finds that passes some groups before it goes on. -/
def tally (groups : List (Nat × Option (List Char))) (found : Nat × Bool) : Nat × Bool :=
  (groups.length + found.1, groups.any (·.2.isSome) || found.2)

@[simp] theorem tally_nil (found : Nat × Bool) : tally [] found = found := by
  simp [tally]

/-- Groups are counted one after another. -/
theorem tally_append (xs ys : List (Nat × Option (List Char))) (found : Nat × Bool) :
    tally (xs ++ ys) found = tally xs (tally ys found) := by
  simp [tally, Nat.add_assoc, Bool.or_assoc]

theorem Escape.captures {r rest : List Char} {n : Node} (h : Escape setting r n rest) :
    n.captures = [] := by
  cases h <;> rfl

/-- A leaf holds no group. -/
theorem Leaf.captures {text rest : List Char} {n : Node} {repeats : Bool} {depth : Nat}
    (h : Leaf setting (Class.nested setting depth) text n repeats rest) : n.captures = [] := by
  cases h with
  | edge e => rfl
  | any => rfl
  | charClass hread =>
    split at hread
    · exact captures_of_classPart (Class.nested_source depth hread).shape
    · exact captures_of_classPart (Class.listed_source hread).shape
  | escape _ _ hread => exact (escaped_iff.1 hread).captures
  | plain _ => rfl

theorem Escape.quiet {r rest : List Char} {n : Node} (h : Escape setting r n rest) :
    (∃ w, r = w ++ rest ∧ Quiet ('\\' :: w)) ∨ ∃ tail, r = 'c' :: tail ∧ rest = r := by
  cases h with
  | shorthand hset => exact .inl (shorthand?_quiet hset)
  | name hk hname =>
    rename_i name
    refine .inl ⟨'k' :: '<' :: (name ++ ['>']), by simp, .escape 'k' (.char rfl ?_)⟩
    exact hname.quiet.append (.char rfl .nil)
  | index h1 h9 hdecimal hle =>
    rename_i c r k
    obtain ⟨w, hr, hw⟩ := decimal?_quiet hdecimal
    cases w with
    | nil =>
      obtain ⟨hdigits, -, hrest⟩ := decimal?_eq_some.1 hdecimal
      rw [← show c :: r = rest from hr] at hrest
      have hdigit := isDigit_of_le h1 h9
      rw [List.dropWhile_cons_of_pos hdigit] at hrest
      have hlength := (List.dropWhile_suffix Char.isDigit (l := r)).length_le
      rw [← hrest, List.length_cons] at hlength
      omega
    | cons d w =>
      refine .inl ⟨_, hr, .escape d (quiet_of_forall fun e he => ?_)⟩
      exact isQuiet_of_isDigit (hw e (by simp [he]))
  | octal _ _ _ _ _ hoctal => exact .inl (octalOrSelf_quiet hoctal)
  | character _ _ _ hvalue => exact characterEscape_quiet hvalue

/-- Outside of classes too, the count passes over escapes. -/
theorem Escape.scans {r rest : List Char} {n : Node} (h : Escape setting r n rest)
    (nested : Bool) (depth : Nat) :
    countGroups nested depth ('\\' :: r) = countGroups nested depth rest :=
  countGroups_escape h.quiet

/-- The search passes over leaves. -/
theorem Leaf.scans {text rest : List Char} {n : Node} {repeats : Bool} {depth : Nat}
    (h : Leaf setting (Class.nested setting depth) text n repeats rest) (hn : n.Unbracketed) :
    countGroups setting.flags.unicodeSets 0 text = countGroups setting.flags.unicodeSets 0 rest := by
  cases h with
  | edge e =>
    have hquiet : Quiet e.text := by
      cases e with
      | word negate => cases negate <;> exact .escape _ .nil
      | lineStart => exact .char rfl .nil
      | lineEnd => exact .char rfl .nil
    exact hquiet.countGroups rest
  | any => exact countGroups_char rfl rest
  | charClass hread =>
    rw [countGroups, if_pos (by simp)]
    split at hread
    · rename_i hsets
      rw [hsets]
      exact Class.scans_nested hread hn 0
    · rename_i hsets
      rw [Bool.not_eq_true] at hsets
      rw [hsets]
      exact Class.scans_listed hread
  | escape _ _ hread => exact (escaped_iff.1 hread).scans _ 0
  | plain hplain =>
    rename_i c
    have hmark := hplain.unmarked
    simp only [List.mem_cons, List.not_mem_nil, or_false, not_or] at hmark
    by_cases hclose : c = ']'
    · -- a closing bracket outside of classes closes nothing
      subst hclose
      rw [countGroups]
    · refine countGroups_char ?_ rest
      simp [isQuiet, hmark, hclose]

theorem captures_openings (o : Opening) (groups : Nat) (ns : List Node) :
    (o.node groups ns).captures =
      (o.node groups []).capture?.toList ++ ns.flatMap Node.captures := by
  rw [captures_eq, o.children_node]
  cases o <;> rfl

/-- An opening counts as the group that it opens. -/
theorem Opening.scans {o : Opening} {s : Progress} {r : List Char} (h : o.Allowed s r)
    (nested : Bool) (groups : Nat) : countGroups nested 0 (o.text ++ r) =
      tally (o.node groups []).capture?.toList (countGroups nested 0 r) := by
  cases o with
  | plain => simp [text, Frame.opening, node, capture?, countGroups, opensCapture]
  | look direction negate =>
    cases direction <;> cases negate <;>
      simp [text, lookOpening, node, capture?, countGroups, opensCapture]
  | capture name =>
    cases name with
    | none =>
      have hmark : opensCapture r = (true, false) := by
        have hhead : r.head? ≠ some '?' := h
        unfold opensCapture
        split <;> simp_all
      simp [text, Frame.opening, node, capture?, countGroups, hmark, tally, Nat.add_comm]
    | some name =>
      obtain ⟨hname, -⟩ : IsName name ∧ name ∉ s.names := h
      have hmark : opensCapture ('?' :: '<' :: (name ++ '>' :: r)) = (true, true) := by
        obtain ⟨c, tail, rfl, -, -⟩ := id hname
        have hhead := hname.ne_mark
        unfold opensCapture
        split <;> grind
      have hquiet : Quiet ('?' :: '<' :: (name ++ ['>'])) :=
        .char rfl (.char rfl (hname.quiet.append (.char rfl .nil)))
      have hcount : countGroups nested 0 ('?' :: '<' :: (name ++ ['>']) ++ r) =
          countGroups nested 0 r := hquiet.countGroups r
      simp only [List.cons_append, List.append_assoc, List.nil_append] at hcount
      show countGroups nested 0 ('(' :: ('?' :: '<' :: name ++ ['>'] ++ r)) = _
      simp only [List.cons_append, List.append_assoc, List.nil_append]
      rw [countGroups, hcount, hmark]
      simp [node, capture?, tally, Nat.add_comm]

/-- The search counts the groups that are read. -/
def Counted (nested : Bool) (s : Progress) (ns : List Node) (s' : Progress) : Prop :=
  (∀ n ∈ ns, n.Unbracketed) → countGroups nested 0 s.rest =
    tally (ns.flatMap captures) (countGroups nested 0 s'.rest)

theorem kept_counted (setting : Setting) : Kept setting (Counted setting.flags.unicodeSets) where
  refl s _ := by simp
  trans h h' hns := by
    rw [h fun n hn => hns n (List.mem_append_left _ hn),
      h' fun n hn => hns n (List.mem_append_right _ hn), List.flatMap_append, tally_append]
  leaf h hn := by
    simp [h.captures, h.scans (hn _ (List.mem_singleton_self _)), Progress.next]
  enclosed hopens hallowed h hcloses hn := by
    rename_i s s1 o r rest ns
    have hnode := hn _ (List.mem_singleton_self _)
    have hinside := h fun n hns => hnode.child (by rwa [o.children_node])
    rw [o.rest_enter, hcloses, countGroups_char rfl] at hinside
    rw [hopens, Opening.scans hallowed _ s.groups, hinside]
    simp only [List.flatMap_cons, List.flatMap_nil, List.append_nil, captures_openings,
      tally_append]
    rfl
  repeated h hquantifier hn := by
    rename_i s s1 element bounds greedy rest
    have hnode := hn _ (List.mem_singleton_self _)
    rw [h (by simpa using hnode.child (by simp [children]))]
    obtain ⟨w, hrest, hw⟩ := (quantifier?_eq_some.1 hquantifier).quiet
    rw [hrest, hw.countGroups]
    simp [captures_eq (.quantifier _ _ _ _), capture?, children, Progress.next]
  alternative h hn := by
    have hnode := hn _ (List.mem_singleton_self _)
    rw [h fun n hns => hnode.child hns]
    simp [captures_eq (.alternative _), capture?, children]
  bar hrest _ := by
    rw [hrest, countGroups_char rfl]
    simp [Progress.next]

/-- In a text that is read up to its end, the search finds the groups that are read. -/
theorem countGroups_of_disjunction {text : List Char} {depth : Nat} {ns : List Node} {s : Progress}
    (hread : disjunction setting depth ⟨text, 0, []⟩ = .ok (ns, s)) (hrest : s.rest = [])
    (hns : ∀ n ∈ ns, n.Unbracketed) : countGroups setting.flags.unicodeSets 0 text =
      ((ns.flatMap captures).length, (ns.flatMap captures).any (·.2.isSome)) := by
  have hcount := (kept_counted setting).disjunction hread hns
  rw [hrest] at hcount
  simpa [tally, countGroups] using hcount

end Pattern

end RegexAudit
