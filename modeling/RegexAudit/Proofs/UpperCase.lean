import RegexAudit.Proofs.Cases

/-!
# Upper case and case classes

Letters are compared by upper case, sets are closed under case classes on each side of the end of
ASCII. The two tables say the same of all letters but 62 (`irregular`):

    upper c = upper d  ↔  SameCase c d  and c, d are on one side of the end of ASCII
                                                                             (upper_eq_iff)

For an irregular letter and another one the two sides never hold together (`not_sameCase_of_upper`),
and for each irregular letter there is one for which one of them does (`exists_of_irregular`).
-/

namespace RegexAudit.Unicode

/-! ## Looking up rows -/

/-- Rows as a search tree. Those below end before `stop`, those above begin at `start` or later. -/
inductive RowTree where
  | leaf (rows : List ShiftRow)
  | node (start stop : Nat) (below above : RowTree)

namespace RowTree

def rows : RowTree → List ShiftRow
  | leaf rows => rows
  | node _ _ below above => below.rows ++ above.rows

/-- Split a list of rows in the middle, `depth` times. -/
def build : (depth : Nat) → List ShiftRow → RowTree
  | 0, rows => leaf rows
  | depth + 1, rows =>
    let low := rows.take (rows.length / 2)
    match rows.drop (rows.length / 2) with
    | [] => leaf rows
    | row :: high =>
      node row.first (low.foldl (fun stop row => max stop (row.last + 1)) 0) (build depth low)
        (build depth (row :: high))

def find? (n : Nat) : RowTree → Option ShiftRow
  | leaf rows => rows.find? (·.has n)
  | node start stop below above =>
    bif Nat.ble start n then
      bif Nat.ble stop n then above.find? n else (below.find? n).or (above.find? n)
    else below.find? n

def Ordered : RowTree → Prop
  | leaf _ => True
  | node start stop below above => (∀ row ∈ below.rows, row.last < stop) ∧
      (∀ row ∈ above.rows, start ≤ row.first) ∧ below.Ordered ∧ above.Ordered

instance decidableOrdered : (t : RowTree) → Decidable t.Ordered
  | leaf _ => inferInstanceAs (Decidable True)
  | node start stop below above =>
    have := decidableOrdered below
    have := decidableOrdered above
    inferInstanceAs (Decidable ((∀ row ∈ below.rows, row.last < stop) ∧
      (∀ row ∈ above.rows, start ≤ row.first) ∧ below.Ordered ∧ above.Ordered))

theorem rows_build (depth : Nat) (rows : List ShiftRow) : (build depth rows).rows = rows := by
  induction depth generalizing rows with
  | zero => rfl
  | succ depth ih =>
    rw [build]
    split
    · rfl
    · rename_i row high hdrop
      rw [RowTree.rows, ih, ih, ← hdrop, List.take_append_drop]

theorem find?_eq {t : RowTree} (h : t.Ordered) (n : Nat) :
    t.find? n = t.rows.find? (·.has n) := by
  have hnone {rows : List ShiftRow} (hrows : ∀ row ∈ rows, n < row.first ∨ row.last < n) :
      rows.find? (·.has n) = none := by
    refine List.find?_eq_none.2 fun row hrow => ?_
    have := hrows row hrow
    simp only [ShiftRow.has, Bool.and_eq_true, decide_eq_true_eq]
    omega
  induction t with
  | leaf rows => rfl
  | node start stop below above ihb iha =>
    obtain ⟨hbelow, habove, hb, ha⟩ := h
    rw [find?, rows, List.find?_append, ihb hb, iha ha]
    simp only [cond_eq_ite, Nat.ble_eq]
    split
    · split
      · have hskip := @hnone below.rows fun row hrow => by
          have := hbelow row hrow
          omega
        rw [hskip, Option.none_or]
      · rfl
    · have hskip := @hnone above.rows fun row hrow => by
        have := habove row hrow
        omega
      rw [hskip, Option.or_none]

end RowTree

/-- The rows of the upper case table. -/
def upperTree : RowTree := .build 7 upperRows

theorem find?_upperTree (n : Nat) : upperTree.find? n = upperRows.find? (·.has n) := by
  have hrows : upperTree.rows = upperRows := RowTree.rows_build 7 upperRows
  rw [← hrows]
  exact RowTree.find?_eq (by decide +kernel) n

/-! ## Numbers as bits -/

/-- The numbers as the bits of one number. -/
def maskOf (ns : List Nat) : Nat := ns.foldl (fun mask n => mask ||| 1 <<< n) 0

theorem testBit_maskOf (ns : List Nat) (n : Nat) : (maskOf ns).testBit n = decide (n ∈ ns) := by
  have hfold (mask : Nat) : (ns.foldl (fun mask n => mask ||| 1 <<< n) mask).testBit n
      = (mask.testBit n || decide (n ∈ ns)) := by
    induction ns generalizing mask with
    | nil => simp
    | cons m ns ih =>
      rw [List.foldl_cons, ih, Nat.testBit_or, Nat.one_shiftLeft, Nat.testBit_two_pow]
      simp [Bool.or_assoc, eq_comm]
  rw [maskOf, hfold, Nat.zero_testBit, Bool.false_or]

/-! ## Upper case -/

/-- The code points of a row. -/
def ShiftRow.members (row : ShiftRow) : List Nat :=
  (List.range ((row.last - row.first) / row.step + 1)).map fun k => row.first + k * row.step

theorem ShiftRow.mem_members {row : ShiftRow} {n : Nat} (h : row.has n = true) :
    n ∈ row.members := by
  simp only [has, Bool.and_eq_true, decide_eq_true_eq, beq_iff_eq] at h
  obtain ⟨⟨hfirst, hlast⟩, hstep⟩ := h
  have hmul : (n - row.first) / row.step * row.step = n - row.first :=
    Nat.div_mul_cancel (Nat.dvd_of_mod_eq_zero hstep)
  refine List.mem_map.2 ⟨(n - row.first) / row.step, ?_, by omega⟩
  rw [List.mem_range, Nat.lt_succ_iff]
  exact Nat.div_le_div_right (by omega)

/-- All code points with an upper case of their own. -/
def lower : List Nat := upperRows.flatMap (·.members)

def lowerMask : Nat := maskOf lower

theorem testBit_lowerMask (n : Nat) : lowerMask.testBit n = decide (n ∈ lower) :=
  testBit_maskOf lower n

/-- The number of the upper case. -/
def upperCode (n : Nat) : Nat :=
  bif lowerMask.testBit n then
    match upperTree.find? n with
    | some row => (n + row.shift).toNat
    | none => n
  else n

theorem find?_eq_none_of_not_mem {n : Nat} (h : n ∉ lower) :
    upperRows.find? (·.has n) = none := by
  refine List.find?_eq_none.2 fun row hrow hhas => h ?_
  exact List.mem_flatMap.2 ⟨row, hrow, row.mem_members hhas⟩

/-- Shifted, the ends of a row are characters on one side of the surrogates. -/
theorem shift_upperRows : ∀ row ∈ upperRows, 0 ≤ row.first + row.shift ∧
    (row.last + row.shift < 0xD800 ∨
      0xDFFF < row.first + row.shift ∧ row.last + row.shift < 0x110000) := by decide +kernel

theorem toNat_upper (c : Char) : (upper c).toNat = upperCode c.toNat := by
  rw [upper, upperCode, find?_upperTree, testBit_lowerMask]
  cases hrow : upperRows.find? (·.has c.toNat) with
  | none => simp
  | some row =>
    have hmem : c.toNat ∈ lower := by
      by_contra hnot
      rw [find?_eq_none_of_not_mem hnot] at hrow
      cases hrow
    have hhas : row.has c.toNat = true :=
      List.find?_some (p := fun row : ShiftRow => row.has c.toNat) hrow
    obtain ⟨hpos, hside⟩ := shift_upperRows row (List.mem_of_find?_eq_some hrow)
    simp only [ShiftRow.has, Bool.and_eq_true, decide_eq_true_eq] at hhas
    have hvalid : (c.toNat + row.shift).toNat.isValidChar := by
      unfold Nat.isValidChar
      omega
    rw [decide_eq_true hmem, cond_true]
    exact toNat_ofNat hvalid

theorem upper_eq_upper_iff (c d : Char) :
    upper c = upper d ↔ upperCode c.toNat = upperCode d.toNat := by
  rw [← Char.toNat_inj, toNat_upper, toNat_upper]

theorem upper_of_not_mem {c : Char} (h : c.toNat ∉ lower) : upper c = c := by
  rw [upper, find?_eq_none_of_not_mem h]

/-! ## The tables side by side -/

/-- The letters whose upper case and whose case class do not go together. -/
def irregular : List Nat :=
  [0x3F4, 0x1E9E, 0x1FBC, 0x1FCC, 0x1FD3, 0x1FE3, 0x1FFC, 0x2126, 0x212B, 0xA7CF, 0xA7D3, 0xA7D5,
    0xFB06] ++ .range' 0x1F88 8 ++ .range' 0x1F98 8 ++ .range' 0x1FA8 8 ++ .range' 0x16EBB 25

def irregularMask : Nat := maskOf irregular

theorem testBit_irregularMask (n : Nat) : irregularMask.testBit n = decide (n ∈ irregular) :=
  testBit_maskOf irregular n

/-- Whether two code points are on one side of the end of ASCII. -/
def onOneSide (c d : Nat) : Bool := bif Nat.ble 0x80 c then Nat.ble 0x80 d else !Nat.ble 0x80 d

theorem onOneSide_iff (c d : Nat) : onOneSide c d = true ↔ (c < 0x80 ↔ d < 0x80) := by
  unfold onOneSide
  cases hc : Nat.ble 0x80 c <;> cases hd : Nat.ble 0x80 d <;>
    simp [← Bool.not_eq_true, Nat.ble_eq] at hc hd ⊢ <;> omega

/-- What the upper case table says of a class. A regular letter has its upper case in the class and
on its side, an irregular one has another letter on its side, and two letters on one side have the
same upper case exactly if both are regular. -/
def agrees (cs : List Nat) : Bool :=
  cs.all fun c =>
    (bif irregularMask.testBit c then cs.any fun d => !Nat.beq c d && onOneSide c d
      else cs.elem (upperCode c) && onOneSide c (upperCode c)) &&
    cs.all fun d => Nat.ble d c || !onOneSide c d ||
      (Nat.beq (upperCode c) (upperCode d) != (irregularMask.testBit c || irregularMask.testBit d))

theorem agrees_classes : classes.all agrees = true := by decide +kernel

def caseMask : Nat := maskOf classes.flatten

theorem testBit_caseMask (n : Nat) : caseMask.testBit n = decide (n ∈ classes.flatten) :=
  testBit_maskOf classes.flatten n

/-- What the bits say of letters with an upper case of their own, and of irregular ones. -/
theorem listed : (lower.all (fun n => irregularMask.testBit n || caseMask.testBit n) &&
    irregular.all fun n => caseMask.testBit n ||
      (!Nat.beq (upperCode n) n && Nat.beq (upperCode (upperCode n)) (upperCode n))) = true := by
  decide +kernel

/-- Regular letters with an upper case of their own are in the case tables. -/
theorem mem_classes_of_lower {n : Nat} (h : n ∈ lower) (hregular : n ∉ irregular) :
    n ∈ classes.flatten := by
  have hlisted := List.all_eq_true.1 (Bool.and_eq_true_iff.1 listed).1 n h
  rw [testBit_irregularMask, testBit_caseMask, Bool.or_eq_true, decide_eq_true_eq,
    decide_eq_true_eq] at hlisted
  exact hlisted.resolve_left hregular

/-- Irregular letters that are not in the case tables have an upper case of their own, which has
none. -/
theorem mem_classes_of_irregular {n : Nat} (h : n ∈ irregular) :
    n ∈ classes.flatten ∨ upperCode n ≠ n ∧ upperCode (upperCode n) = upperCode n := by
  have hlisted := List.all_eq_true.1 (Bool.and_eq_true_iff.1 listed).2 n h
  rw [testBit_caseMask, Bool.or_eq_true, decide_eq_true_eq, Bool.and_eq_true, Bool.not_eq_true',
    ← Bool.not_eq_true, Nat.beq_eq, Nat.beq_eq] at hlisted
  exact hlisted

section
variable {cs : List Nat} {c d : Nat}

theorem upperCode_of_agrees (h : agrees cs = true) (hc : c ∈ cs) (hregular : c ∉ irregular) :
    upperCode c ∈ cs ∧ (c < 0x80 ↔ upperCode c < 0x80) := by
  have hagrees := List.all_eq_true.1 h c hc
  rw [Bool.and_eq_true, testBit_irregularMask, decide_eq_false hregular, cond_false,
    Bool.and_eq_true, onOneSide_iff, List.elem_eq_mem, decide_eq_true_eq] at hagrees
  exact hagrees.1

theorem other_of_agrees (h : agrees cs = true) (hc : c ∈ cs) (hirregular : c ∈ irregular) :
    ∃ d ∈ cs, c ≠ d ∧ (c < 0x80 ↔ d < 0x80) := by
  have hagrees := List.all_eq_true.1 h c hc
  rw [Bool.and_eq_true, testBit_irregularMask, decide_eq_true hirregular, cond_true,
    List.any_eq_true] at hagrees
  obtain ⟨d, hd, hother⟩ := hagrees.1
  rw [Bool.and_eq_true, onOneSide_iff, Bool.not_eq_true', ← Bool.not_eq_true, Nat.beq_eq] at hother
  exact ⟨d, hd, hother⟩

theorem upperCode_eq_iff_of_agrees (h : agrees cs = true) (hc : c ∈ cs) (hd : d ∈ cs) (hne : c ≠ d)
    (hside : c < 0x80 ↔ d < 0x80) :
    upperCode c = upperCode d ↔ c ∉ irregular ∧ d ∉ irregular := by
  have hlt {a b : Nat} (ha : a ∈ cs) (hb : b ∈ cs) (hab : a < b) (hside : a < 0x80 ↔ b < 0x80) :
      upperCode a = upperCode b ↔ a ∉ irregular ∧ b ∉ irregular := by
    have hagrees := List.all_eq_true.1 h a ha
    rw [Bool.and_eq_true, List.all_eq_true] at hagrees
    have hpair := hagrees.2 b hb
    have horder : Nat.ble b a = false := by
      rw [← Bool.not_eq_true, Nat.ble_eq]
      omega
    rw [horder, (onOneSide_iff a b).2 hside, testBit_irregularMask, testBit_irregularMask,
      Bool.not_true, Bool.or_false, Bool.false_or, bne_iff_ne, ← Bool.eq_not] at hpair
    rw [← Nat.beq_eq, hpair]
    simp
  rcases Nat.lt_or_gt_of_ne hne with hcd | hdc
  · exact hlt hc hd hcd hside
  · rw [eq_comm, and_comm]
    exact hlt hd hc hdc hside.symm

end

/-! ## Letters -/

/-- The upper case of a regular letter is the same letter up to case, on the same side. -/
theorem sameCase_upper {c : Char} (h : c.toNat ∉ irregular) :
    SameCase c (upper c) ∧ (c.toNat < 0x80 ↔ (upper c).toNat < 0x80) := by
  by_cases hlower : c.toNat ∈ lower
  · obtain ⟨cs, hcs, hc⟩ := List.mem_flatten.1 (mem_classes_of_lower hlower h)
    obtain ⟨hupper, hside⟩ := upperCode_of_agrees (List.all_eq_true.1 agrees_classes cs hcs) hc h
    rw [← toNat_upper] at hupper hside
    exact ⟨.inr ⟨cs, hcs, hc, hupper⟩, hside⟩
  · rw [upper_of_not_mem hlower]
    exact ⟨.inl rfl, Iff.rfl⟩

/-- Two letters of a class on one side have the same upper case exactly if both are regular. -/
theorem upper_eq_iff_of_sameCase {c d : Char} (hne : c ≠ d) (h : SameCase c d)
    (hside : c.toNat < 0x80 ↔ d.toNat < 0x80) :
    upper c = upper d ↔ c.toNat ∉ irregular ∧ d.toNat ∉ irregular := by
  obtain ⟨cs, hcs, hc, hd⟩ := h.resolve_left hne
  rw [upper_eq_upper_iff]
  exact upperCode_eq_iff_of_agrees (List.all_eq_true.1 agrees_classes cs hcs) hc hd
    (fun hsame => hne (Char.toNat_inj.1 hsame)) hside

/-- For regular letters the tables say the same. -/
theorem upper_eq_iff {c d : Char} (hc : c.toNat ∉ irregular) (hd : d.toNat ∉ irregular) :
    upper c = upper d ↔ SameCase c d ∧ (c.toNat < 0x80 ↔ d.toNat < 0x80) := by
  constructor
  · intro hupper
    obtain ⟨hcase, hside⟩ := sameCase_upper hc
    obtain ⟨hcase', hside'⟩ := sameCase_upper hd
    rw [hupper] at hcase hside
    exact ⟨hcase.trans hcase'.symm, hside.trans hside'.symm⟩
  · rintro ⟨hcase, hside⟩
    by_cases hne : c = d
    · rw [hne]
    · exact (upper_eq_iff_of_sameCase hne hcase hside).2 ⟨hc, hd⟩

/-- For an irregular letter and another one they never both tell them equal. -/
theorem not_sameCase_of_upper {c d : Char} (hne : c ≠ d)
    (hirregular : c.toNat ∈ irregular ∨ d.toNat ∈ irregular) (hupper : upper c = upper d) :
    ¬ (SameCase c d ∧ (c.toNat < 0x80 ↔ d.toNat < 0x80)) := by
  rintro ⟨hcase, hside⟩
  obtain ⟨hc, hd⟩ := (upper_eq_iff_of_sameCase hne hcase hside).1 hupper
  exact hirregular.elim hc hd

/-- Each irregular letter has another one that one of the tables tells equal to it. -/
theorem exists_of_irregular {c : Char} (h : c.toNat ∈ irregular) :
    ∃ d, c ≠ d ∧ (upper c = upper d ∨ SameCase c d ∧ (c.toNat < 0x80 ↔ d.toNat < 0x80)) := by
  rcases mem_classes_of_irregular h with hclass | ⟨hne, hupper⟩
  · obtain ⟨cs, hcs, hc⟩ := List.mem_flatten.1 hclass
    obtain ⟨d, hd, hne, hside⟩ := other_of_agrees (List.all_eq_true.1 agrees_classes cs hcs) hc h
    have hdv := toNat_ofNat (isValidChar_classes cs hcs d hd)
    rw [← hdv] at hd hne hside
    exact ⟨Char.ofNat d, fun hsame => hne (congrArg Char.toNat hsame), .inr
      ⟨.inr ⟨cs, hcs, hc, hd⟩, hside⟩⟩
  · refine ⟨upper c, fun hsame => hne ?_, .inl ?_⟩
    · rw [← toNat_upper, ← hsame]
    · rw [upper_eq_upper_iff, toNat_upper, hupper]

end RegexAudit.Unicode
