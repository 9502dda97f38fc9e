import RegexAudit.Proofs.Contexts
import RegexAudit.Proofs.Folding
import RegexAudit.Proofs.RangeOrder

/-!
# Ranges out of order

The complement of a set with a range up to U+D7FF and one from U+E000 on has a range that overlaps
both neighbours, and classes in classes can spread the disorder: by one character for each complement
at most. As classes stand at most 250 deep in one another, the upper end of the sets that occur stays
in order. Hence a set of a parsed pattern loses nothing if it is intersected with the set of
everything, although its ranges may overlap:

    Regex.parse source letters = .ok r → r.root.HasPart n → n.charSet? flags = some set →
      (c ∈ set.meet .all ↔ c ∈ set)                                              (mem_meet_all)

This is what the analysis of first characters does with every set that may come second.
-/

namespace RegexAudit

/-! ## Lists of ranges -/

namespace Range

section
variable {floor : Nat} {rs : List Range} {r : Range}

theorem ApartFrom.mono {more : Nat} (h : ApartFrom floor rs) (hle : floor ≤ more) :
    ApartFrom more rs :=
  h.imp fun hrs => hrs.imp_left fun hlt => Nat.lt_of_lt_of_le hlt hle

/-- A gap after a range that reaches the floor starts after it. -/
theorem lo_of_mem_gaps_of_floor (hfloor : 0xE000 < floor) (h : ApartFrom floor (r :: rs)) :
    ∀ g ∈ gaps (r :: rs), r.hi.toNat < floor ∨ r.hi.toNat < g.lo.toNat := by
  induction rs generalizing r with
  | nil =>
    intro g hg
    simp only [gaps, char_lt_iff] at hg
    split at hg
    · rename_i hlt
      rw [List.mem_singleton] at hg
      subst hg
      exact .inr ((mem_high hlt).1 (lo_mem _)).1
    · simp at hg
  | cons s ss ih =>
    intro g hg
    obtain ⟨hr, hss⟩ := List.pairwise_cons.1 h
    have hdistance := hr s (by simp)
    have hs := s.lo_le_hi
    have hvalid := char_valid s.lo
    rw [gaps] at hg
    rcases List.mem_cons.1 hg with rfl | hg
    · by_cases hlow : r.hi.toNat < floor
      · exact .inl hlow
      · have hafter := toNat_after r.hi (by omega)
        have hbefore := toNat_before s.lo
        rw [toNat_between_lo]
        omega
    · have := ih hss g hg
      omega

/-- The gap in front of a range ends before it, or one character above the floor at most. -/
theorem hi_of_gap (hfloor : 0xE000 < floor) {s : Range}
    (h : r.hi.toNat < floor ∨ r.hi.toNat + 1 < s.lo.toNat) :
    (between (after r.hi) (before s.lo)).hi.toNat < floor + 1 ∨
      (between (after r.hi) (before s.lo)).hi.toNat < s.lo.toNat ∧ floor < s.lo.toNat := by
  have hr := char_valid r.hi
  have hs := char_valid s.lo
  have hgap := char_valid (between (after r.hi) (before s.lo)).hi
  by_cases htop : r.hi.toNat < 0x10FFFF
  · have hafter := toNat_after r.hi htop
    have hbefore := toNat_before s.lo
    rw [toNat_between_hi] at hgap ⊢
    omega
  · omega

/-- The gaps between ranges are out of order one character further than the ranges at most. -/
theorem apartFrom_gaps (hfloor : 0xE000 < floor) (h : ApartFrom floor (r :: rs)) :
    ApartFrom (floor + 1) (gaps (r :: rs)) := by
  induction rs generalizing r with
  | nil =>
    unfold gaps
    split
    · exact List.pairwise_singleton _ _
    · exact .nil
  | cons s ss ih =>
    obtain ⟨hr, hss⟩ := List.pairwise_cons.1 h
    have hs := s.lo_le_hi
    have hgap := hi_of_gap hfloor (hr s (by simp))
    rw [gaps]
    refine List.pairwise_cons.2 ⟨fun g hg => ?_, ih hss⟩
    have hnext := lo_of_mem_gaps_of_floor hfloor hss g hg
    omega

theorem apartFrom_complement (hfloor : 0xE000 < floor) (h : ApartFrom floor rs) :
    ApartFrom (floor + 1) (complement rs) := by
  cases rs with
  | nil => exact List.pairwise_singleton _ _
  | cons r rs =>
    have hr := r.lo_le_hi
    rw [complement]
    refine List.pairwise_append.2 ⟨?_, apartFrom_gaps hfloor h, fun low hlow g hg => ?_⟩
    · split
      · exact List.pairwise_singleton _ _
      · exact .nil
    · simp only [char_lt_iff] at hlow
      split at hlow
      · rename_i hlt
        obtain rfl := List.mem_singleton.1 hlow
        have hend := (mem_low hlt).1 (hi_mem (between (Char.ofNat 0) (before r.lo)))
        have hnext := lo_of_mem_gaps_of_floor hfloor h g hg
        omega
      · simp at hlow

/-- The intersection with one range of all characters. The walk ends at the first range that reaches
the last character; if the upper end is in order, no range comes after that one. -/
theorem inSome_meetAll_all (hfloor : floor ≤ 0x10FFFF) (h : ApartFrom floor rs) (c : Char) :
    inSome (meetAll rs [between (Char.ofNat 0) topChar]) c ↔ inSome rs c := by
  have hall (c : Char) : c ∈ between (Char.ofNat 0) topChar := by
    have hc := char_valid c
    have htop := toNat_topChar
    have hzero : (Char.ofNat 0).toNat = 0 := by decide
    rw [mem_between]
    omega
  have hend : (between (Char.ofNat 0) topChar).hi.toNat = 0x10FFFF := by
    rw [toNat_between_hi, toNat_topChar]
    rfl
  induction rs with
  | nil => rfl
  | cons a as ih =>
    obtain ⟨ha, has⟩ := List.pairwise_cons.1 h
    rw [meetAll, meetEach, inSome_append, mem_meet?, inSome_cons]
    simp only [hall, and_true, char_lt_iff, hend]
    split
    · exact or_congr_right (ih has)
    · rename_i hlast
      -- nothing is left after a range that reaches the last character
      have hnone : as = [] := by
        refine List.eq_nil_iff_forall_not_mem.2 fun s hs => ?_
        have := ha s hs
        have := char_valid s.lo
        omega
      rw [hnone, meetEach]

end

end Range

namespace CharSet

section
variable {s : CharSet} {floor : Nat}

theorem ApartFrom.mono {more : Nat} (h : s.ApartFrom floor) (hle : floor ≤ more) :
    s.ApartFrom more := Range.ApartFrom.mono h hle

theorem apartFrom_complementIf (hfloor : 0xE000 < floor) (h : s.ApartFrom floor) (negate : Bool) :
    (s.complementIf negate).ApartFrom (floor + 1) := by
  unfold complementIf
  split
  · exact Range.apartFrom_complement hfloor h
  · exact h.mono (Nat.le_succ floor)

theorem mem_meet_all (hfloor : floor ≤ 0x10FFFF) (h : s.ApartFrom floor) (c : Char) :
    c ∈ s.meet .all ↔ c ∈ s := by
  unfold meet
  split
  · rfl
  · exact Range.inSome_meetAll_all hfloor h c

end

end CharSet

/-! ## Sets of nodes -/

namespace Node

/-- The set of the node is in order, apart from what complements `depth` deep can disturb. -/
def InOrder [Properties] (flags : Flags) (depth : Nat) (n : Node) : Prop :=
  ∀ set, n.charSet? flags = some set → set.ApartFrom (0xE002 + depth)

section
variable {flags : Flags} {depth : Nat}

theorem inOrder_of_none [Properties]
    {n : Node} (h : n.charSet? flags = none) : n.InOrder flags depth := by
  intro set hset
  rw [h] at hset
  cases hset

theorem inOrder_of_apart [Properties]
    {n : Node} (h : ∀ set, n.charSet? flags = some set → set.Apart) :
    n.InOrder flags depth := fun set hset => (h set hset).apartFrom _

/-- One complement is allowed for anyway. -/
theorem apartFrom_complementIf_of_apart {set : CharSet} (h : set.Apart) (negate : Bool) :
    (set.complementIf negate).ApartFrom (0xE002 + depth) :=
  (CharSet.apartFrom_complementIf (Nat.lt_succ_self _) (h.apartFrom 0xE001) negate).mono
    (Nat.le_add_right _ _)

theorem apart_of_letter {letter : Letter} {set : CharSet} (h : letter.charSet? flags = some set) :
    set.Apart := by
  obtain ⟨single, hsingle, rfl⟩ := Option.map_eq_some_iff.1 h
  unfold CharSet.ofCode? at hsingle
  split at hsingle
  · cases hsingle
    exact CharSet.apart_fold (CharSet.apart_ofRanges _) flags
  · cases hsingle

theorem inOrder_character [Properties] (letter : Letter) : (character letter).InOrder flags depth :=
  inOrder_of_apart fun _ => apart_of_letter

theorem inOrder_range [Properties] (a b : Letter) : (range a b).InOrder flags depth := by
  refine inOrder_of_apart fun set hset => ?_
  rw [charSet?] at hset
  split at hset
  · cases hset
    exact CharSet.apart_fold (CharSet.apart_ofRanges _) flags
  · cases hset

theorem apart_wordSet : (wordSet flags).Apart := by
  unfold wordSet
  simp only
  split
  · exact CharSet.apart_join (CharSet.apart_ofRanges _) _
  · exact CharSet.apart_ofRanges _

variable [Properties]

theorem inOrder_shorthand (hproperties : Properties.Canonical) (set : Shorthand) :
    (shorthand set).InOrder flags depth := by
  have hnegate {codes : CharSet} (hcodes : codes.Apart) (negate : Bool) :
      (codes.complementIf negate).ApartFrom (0xE002 + depth) :=
    apartFrom_complementIf_of_apart hcodes negate
  intro found hfound
  rw [charSet?] at hfound
  cases set with
  | any =>
    cases hfound
    split
    · exact (CharSet.apart_ofRanges _).apartFrom _
    · exact hnegate (CharSet.apart_ofRanges _) true
  | digit negate | space negate =>
    cases hfound
    exact hnegate (CharSet.apart_ofRanges _) negate
  | word negate =>
    cases hfound
    exact hnegate apart_wordSet negate
  | property key value negate =>
    rw [Shorthand.charSet?] at hfound
    split at hfound
    · cases hfound
    · obtain ⟨s, hs, rfl⟩ := Option.map_eq_some_iff.1 hfound
      have hcodes : s.Apart := (hproperties _ _ _ hs).1
      split
      · exact (CharSet.apart_fold hcodes flags).apartFrom _
      · split
        · exact hnegate (CharSet.apart_fold hcodes flags) true
        · exact CharSet.apartFrom_fold (hnegate hcodes true) flags

theorem inOrder_charClass (negate unicodeSets : Bool) (elements : List Node) :
    (charClass negate unicodeSets elements).InOrder flags depth := by
  intro set hset
  obtain ⟨sets, -, rfl⟩ := Option.map_eq_some_iff.1 hset
  exact apartFrom_complementIf_of_apart (CharSet.apart_joinAll sets) negate

theorem inOrder_strings (alternatives : List (List Letter)) :
    (strings alternatives).InOrder flags depth := by
  refine inOrder_of_apart fun set hset => ?_
  obtain ⟨sets, -, rfl⟩ := Option.map_eq_some_iff.1 hset
  exact CharSet.apart_joinAll sets

theorem inOrder_string (letters : List Letter) : (string letters).InOrder flags depth := by
  refine inOrder_of_apart fun set hset => ?_
  rw [charSet?] at hset
  unfold Letter.stringSet? at hset
  split at hset
  · exact apart_of_letter hset
  · cases hset

theorem inOrder_classOperation {operator : SetOperator} {left right : Node}
    (hleft : left.InOrder flags depth) (hright : right.InOrder flags depth) :
    (classOperation operator left right).InOrder flags depth := by
  intro set hset
  rw [charSet?] at hset
  split at hset
  · rename_i s t hs ht
    cases operator with
    | intersection =>
      cases hset
      exact CharSet.apartFrom_meet (hleft s hs) (hright t ht)
    | subtraction =>
      cases hset
      exact CharSet.apartFrom_minus (hleft s hs) t
  · cases hset

/-- Only the complement of an expression takes the disorder further. -/
theorem inOrder_classExpression {negate : Bool} {expression : Node}
    (h : expression.InOrder flags depth) :
    (classExpression negate expression).InOrder flags (depth + 1) := by
  intro set hset
  obtain ⟨s, hs, rfl⟩ := Option.map_eq_some_iff.1 hset
  exact CharSet.apartFrom_complementIf (by omega) (h s hs) negate

end

end Node

/-! ## Sets of classes that were read -/

variable [Properties]

namespace Class

open Node

variable {setting : Setting} {flags : Flags} {depth : Nat} {text rest : List Char} {n : Node}

theorem inOrder_atom (hproperties : Properties.Canonical)
    (h : atom setting text = .ok (n, rest)) : n.InOrder flags depth :=
  (atom_iff.1 h).forall inOrder_character (inOrder_shorthand hproperties)

theorem inOrder_listed (h : listed setting text = .ok (n, rest)) : n.InOrder flags depth := by
  obtain ⟨ns, rfl, -⟩ := listed_iff.1 h
  exact inOrder_charClass _ _ _

theorem members_inOrder (hproperties : Properties.Canonical) (flags : Flags) (depth : Nat) :
    Members (InOrder flags depth) where
  character := inOrder_character
  shorthand := inOrder_shorthand hproperties
  range _ := inOrder_range _ _
  strings := inOrder_strings
  operation _ _ _ := inOrder_classOperation

theorem inOrder_nested (hproperties : Properties.Canonical)
    (h : nested setting depth text = .ok (n, rest)) : n.InOrder flags depth := by
  induction depth generalizing text rest n with
  | zero => cases h
  | succ depth ih =>
    have hp := members_inOrder hproperties flags depth
    exact hp.body (hp.operand ih) (fun _ _ _ => inOrder_charClass _ _ _)
      (fun _ _ => inOrder_classExpression) h

theorem inOrder_afterBracket (hproperties : Properties.Canonical)
    (h : afterBracket setting depth text = .ok (n, rest)) : n.InOrder flags depth := by
  unfold afterBracket at h
  split at h
  · exact inOrder_nested hproperties h
  · exact inOrder_listed h

theorem inOrder_member (hproperties : Properties.Canonical)
    (h : member setting depth text = .ok (n, rest)) : n.InOrder flags depth := by
  unfold member at h
  split at h
  · exact (members_inOrder hproperties flags depth).operand (inOrder_nested hproperties) h
  · exact inOrder_atom hproperties h

end Class

namespace Regex

open Node

variable {source : List Char} {letters : Flags} {r : Regex} {n : Node}

/-- The sets of a parsed pattern are in order, apart from what complements as deep as classes may
stand in one another can disturb. -/
theorem inOrder_of_parse (hproperties : Properties.Canonical)
    (hparse : Regex.parse source letters = .ok r) (hn : r.root.HasPart n) (flags : Flags) : n.InOrder flags Pattern.nestingLimit := by
  obtain rfl | ⟨-, ⟨-, hspelled⟩ | ⟨hclass, -⟩⟩ := part_cases hparse hn
  · obtain ⟨alternatives, hroot, -⟩ := (parse_source hparse).2.2.1
    rw [hroot]
    exact inOrder_of_none rfl
  · cases n with
    | classExpression negate expression =>
      obtain ⟨w, -, hread⟩ := hspelled
      exact Class.inOrder_afterBracket hproperties hread
    | classOperation operator left right =>
      obtain ⟨k, first, w, hfirst, hread⟩ := hspelled
      exact (Class.members_inOrder hproperties flags _).operations
        (Class.inOrder_member hproperties) (Class.inOrder_member hproperties hfirst) (.of_ok hread)
    | character letter => exact inOrder_character letter
    | range a b => exact inOrder_range a b
    | shorthand set => exact inOrder_shorthand hproperties set
    | charClass negate unicodeSets elements => exact inOrder_charClass negate unicodeSets elements
    | strings alternatives => exact inOrder_strings alternatives
    | string letters => exact inOrder_string letters
    | choice _ _ | look _ _ _ | alternative _ | quantifier _ _ _ _ | edge _ | backreference _ =>
      exact inOrder_of_none rfl
  · cases n with
    | choice _ _ | look _ _ _ | alternative _ | quantifier _ _ _ _ | edge _ | backreference _ =>
      exact inOrder_of_none rfl
    | character _ | range _ _ | shorthand _ | charClass _ _ _ | classExpression _ _
    | classOperation _ _ _ | strings _ | string _ => cases hclass

/-- A set of a parsed pattern loses nothing if it is intersected with the set of everything. -/
theorem mem_meet_all (hproperties : Properties.Canonical)
    (hparse : Regex.parse source letters = .ok r) (hn : r.root.HasPart n) {flags : Flags} {set : CharSet} (hset : n.charSet? flags = some set) (c : Char) :
    c ∈ set.meet .all ↔ c ∈ set :=
  CharSet.mem_meet_all (by decide) (inOrder_of_parse hproperties hparse hn flags set hset) c

end Regex

end RegexAudit
