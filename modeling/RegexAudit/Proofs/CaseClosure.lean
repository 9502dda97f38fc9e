import RegexAudit.CharSet.KnownProperties
import RegexAudit.Proofs.ClassMembers

/-!
# Closure under case

Classes are folded where their letters, ranges and properties are read, and never again. As `Folds` is
an equivalence, unions, intersections, differences and complements of closed sets are closed, and so
is the set of every node (`Node.charSet?_closed`), whatever the sets of the properties are.
-/

namespace RegexAudit

open Unicode

namespace CharSet

variable {flags : Flags} {s t : CharSet}

/-! ## Sets that are closed -/

/-- The set is stored with its ranges apart, and has all that its members stand for. -/
structure Saturated (flags : Flags) (s : CharSet) : Prop where
  apart : s.Apart
  closed : ∀ c ∈ s, ∀ d, flags.Folds c d → d ∈ s

theorem Saturated.mem_iff (h : s.Saturated flags) {c d : Char} (hcd : flags.Folds c d) :
    c ∈ s ↔ d ∈ s :=
  ⟨fun hc => h.closed c hc d hcd, fun hd => h.closed d hd c hcd.symm⟩

theorem saturated_fold (hs : s.Apart) (h : s.Honest) (flags : Flags) :
    (s.fold flags).Saturated flags := by
  refine ⟨apart_fold hs flags, fun c hc d hcd => ?_⟩
  rw [mem_fold_iff hs.sorted h.closed_of_mark] at hc ⊢
  obtain ⟨b, hb, hbc⟩ := hc
  exact ⟨b, hb, hbc.trans hcd⟩

theorem saturated_joinAll {sets : List CharSet} (h : ∀ s ∈ sets, s.Saturated flags) :
    (joinAll sets).Saturated flags := by
  refine ⟨apart_joinAll sets, fun c hc d hcd => ?_⟩
  rw [mem_joinAll] at hc ⊢
  obtain ⟨s, hs, hc⟩ := hc
  exact ⟨s, hs, (h s hs).closed c hc d hcd⟩

theorem Saturated.meet (hs : s.Saturated flags) (ht : t.Saturated flags) :
    (s.meet t).Saturated flags := by
  refine ⟨apart_meet hs.apart ht.apart, fun c hc d hcd => ?_⟩
  rw [mem_meet hs.apart.sorted ht.apart.sorted] at hc ⊢
  exact hc.imp (hs.mem_iff hcd).1 (ht.mem_iff hcd).1

theorem Saturated.minus (hs : s.Saturated flags) (ht : t.Saturated flags) :
    (s.minus t).Saturated flags := by
  refine ⟨apart_minus hs.apart t, fun c hc d hcd => ?_⟩
  rw [mem_minus hs.apart.sorted ht.apart.sorted] at hc ⊢
  exact hc.imp (hs.mem_iff hcd).1 (mt (ht.mem_iff hcd).2)

theorem Saturated.complement (hs : s.Saturated flags) (hsplit : ¬ s.Split) :
    s.complement.Saturated flags := by
  refine ⟨apart_complement hs.apart hsplit, fun c hc d hcd => ?_⟩
  rw [mem_complement_iff hs.apart hsplit] at hc ⊢
  exact mt (hs.mem_iff hcd).2 hc

theorem Saturated.complementIf {negate : Bool} (hs : s.Saturated flags)
    (hsplit : negate = true → ¬ s.Split) : (s.complementIf negate).Saturated flags := by
  cases negate with
  | false => exact hs
  | true => exact hs.complement (hsplit rfl)

/-- Folding a closed set changes no member. -/
theorem Saturated.mem_fold (h : s.Saturated flags) (c : Char) : c ∈ s.fold flags ↔ c ∈ s := by
  rw [mem_fold_iff h.apart.sorted fun _ => h.closed]
  exact ⟨fun ⟨d, hd, hdc⟩ => h.closed d hd c hdc, fun hc => ⟨c, hc, .refl flags c⟩⟩

end CharSet

/-! ## Tables that are closed -/

/-- Whether a table has the mates of its intervals. -/
def holdsMates (table : List (Nat × Nat)) : Bool :=
  table.all fun (lo, hi) => (mates lo hi).all fun d => table.any fun (lo, hi) => lo ≤ d && d ≤ hi

theorem isIn_of_sameCase {table : List (Nat × Nat)} (h : holdsMates table = true) {c d : Char}
    (hcd : SameCase c d) (hc : isIn table c = true) : isIn table d = true := by
  obtain rfl | ⟨cs, hcs, hccs, hdcs⟩ := hcd
  · exact hc
  · obtain ⟨⟨lo, hi⟩, hinterval, hc⟩ := List.any_eq_true.1 hc
    simp only [Bool.and_eq_true, decide_eq_true_eq] at hc
    by_cases hd : lo ≤ d.toNat ∧ d.toNat ≤ hi
    · exact List.any_eq_true.2 ⟨_, hinterval, by simpa using hd⟩
    · have hmate : d.toNat ∈ mates lo hi :=
        (mem_mates lo hi _).2 ⟨by omega, cs, hcs, hdcs, c.toNat, hccs, hc⟩
      exact List.all_eq_true.1 (List.all_eq_true.1 h _ hinterval) _ hmate

/-- Whether no letter with a class is from code point `lo` to `hi`, by the ends of the rows. -/
def isCaseless (lo hi : Nat) : Bool :=
  (casePairs.all fun row => (Nat.blt row.last lo || Nat.blt hi row.first) &&
    (Nat.blt (row.last + row.shift) lo || Nat.blt hi (row.first + row.shift))) &&
  caseClasses.all fun cs => cs.all fun c => Nat.blt c lo || Nat.blt hi c

theorem mates_eq_nil {lo hi : Nat} (h : isCaseless lo hi = true) : mates lo hi = [] := by
  simp only [isCaseless, Bool.and_eq_true, Bool.or_eq_true, List.all_eq_true, Nat.blt_eq] at h
  have hclasses : ∀ cs ∈ classes, ∀ c ∈ cs, c < lo ∨ hi < c := by
    refine forall_classes (fun row hrow c hfirst hlast => ?_) h.2
    have := h.1 row hrow
    simp only [List.forall_mem_cons, List.not_mem_nil, false_imp_iff, implies_true, and_true]
    omega
  refine List.eq_nil_iff_forall_not_mem.2 fun d hd => ?_
  obtain ⟨-, cs, hcs, -, c, hc, hin⟩ := (mem_mates lo hi d).1 hd
  have := hclasses cs hcs c hc
  omega

theorem holdsMates_of_isCaseless {table : List (Nat × Nat)}
    (h : (table.all fun e => isCaseless e.1 e.2) = true) : holdsMates table = true := by
  refine List.all_eq_true.2 fun (lo, hi) hinterval => ?_
  dsimp only
  rw [mates_eq_nil (List.all_eq_true.1 h _ hinterval), List.all_nil]

theorem CharSet.saturated_ofCodes {table : List (Nat × Nat)} (htable : IsTable table)
    (hmates : holdsMates table = true) (flags : Flags) : (ofCodes table).Saturated flags := by
  refine ⟨apart_ofRanges _, fun c hc d hcd => ?_⟩
  rw [mem_ofCodes htable] at hc ⊢
  exact isIn_of_sameCase hmates hcd.sameCase hc

theorem isIn_wordCharacters (c : Char) : isIn wordCharacters c = true ↔
    isIn (wordCharacters ++ foldedWordCharacters) c = true ∧ c.toNat < 0x80 := by
  simp [isIn, wordCharacters, foldedWordCharacters]
  omega

theorem holdsMates_wordCharacters : holdsMates (wordCharacters ++ foldedWordCharacters) = true := by
  decide +kernel

/-- Characters that fold to one another are word characters together. With `u` or `v` they are in the
larger table, which is closed, and otherwise on one side of the end of ASCII. -/
theorem isWord_of_folds {flags : Flags} {c d : Char} (h : flags.Folds c d)
    (hc : Input.isWord flags c = true) : Input.isWord flags d = true := by
  unfold Flags.Folds at h
  split at h
  · rename_i hcase
    obtain ⟨hsame, hmode⟩ := h
    cases hunicode : flags.unicodeMode with
    | true =>
      have htable (e : Char) :
          Input.isWord flags e = isIn (wordCharacters ++ foldedWordCharacters) e := by
        simp [Input.isWord, hcase, hunicode, isIn, List.any_append]
      rw [htable] at hc ⊢
      exact isIn_of_sameCase holdsMates_wordCharacters hsame hc
    | false =>
      have htable (e : Char) : Input.isWord flags e = isIn wordCharacters e := by
        simp [Input.isWord, hunicode]
      rw [htable, isIn_wordCharacters] at hc ⊢
      rw [hunicode] at hmode
      exact ⟨isIn_of_sameCase holdsMates_wordCharacters hsame hc.1,
        (hmode.resolve_left Bool.false_ne_true).1 hc.2⟩
  · rwa [← h]

theorem saturated_wordSet (flags : Flags) : (wordSet flags).Saturated flags := by
  refine ⟨(denotes_wordSet flags).apart, fun c hc d hcd => ?_⟩
  rw [UselessAssertion.mem_wordSet] at hc ⊢
  exact isWord_of_folds hcd hc

/-! ## Sets of nodes -/

section
variable {flags : Flags} {s : CharSet}

/-- The sets of letters and ranges are folded. -/
theorem saturated_span (a b : Char) (flags : Flags) :
    ((CharSet.span a b).fold flags).Saturated flags :=
  CharSet.saturated_fold (CharSet.apart_ofRanges _) (CharSet.honest_ofRanges _) flags

theorem Letter.saturated_charSet? {letter : Letter} (h : letter.charSet? flags = some s) :
    s.Saturated flags := by
  obtain ⟨base, hbase, rfl⟩ := Option.map_eq_some_iff.1 h
  obtain ⟨-, hbase⟩ := Option.ite_none_right_eq_some.1 hbase
  obtain rfl := Option.some.inj hbase
  exact saturated_span _ _ flags

theorem Letter.saturated_stringSet? {letters : List Letter}
    (h : Letter.stringSet? flags letters = some s) : s.Saturated flags := by
  unfold Letter.stringSet? at h
  split at h
  · exact Letter.saturated_charSet? h
  · cases h

/-- Tables that are closed and have no U+E000, and their complements. -/
theorem saturated_table {table : List (Nat × Nat)} (htable : CharSet.IsTable table)
    (hmates : holdsMates table = true)
    (hcode : isIn table (Char.ofNat 0xE000) = false) (negate : Bool) (flags : Flags) :
    ((CharSet.ofCodes table).complementIf negate).Saturated flags :=
  (CharSet.saturated_ofCodes htable hmates flags).complementIf fun _ =>
    CharSet.not_split_ofCodes htable hcode

variable [Properties]

theorem Shorthand.saturated_charSet? (hproperties : Properties.Canonical) {set : Shorthand}
    (hsplit : ¬ (Node.shorthand set).Splits flags) (h : set.charSet? flags = some s) :
    s.Saturated flags := by
  cases set with
  | any =>
    obtain rfl := Option.some.inj h
    split
    · exact ⟨CharSet.apart_ofRanges _, fun _ _ d _ => CharSet.mem_all d⟩
    · exact saturated_table (by decide) (holdsMates_of_isCaseless (by decide +kernel)) (by decide)
        true flags
  | digit negate =>
    obtain rfl := Option.some.inj h
    exact saturated_table (by decide) (holdsMates_of_isCaseless (by decide +kernel)) (by decide)
      negate flags
  | space negate =>
    obtain rfl := Option.some.inj h
    exact saturated_table (by decide) (holdsMates_of_isCaseless (by decide +kernel)) (by decide)
      negate flags
  | word negate =>
    obtain rfl := Option.some.inj h
    refine (saturated_wordSet flags).complementIf fun _ => CharSet.not_split_of_not_mem fun hmem => ?_
    rw [UselessAssertion.mem_wordSet] at hmem
    simp [Input.isWord, isIn, wordCharacters, foldedWordCharacters] at hmem
  | property key value negate =>
    rw [charSet?] at h
    obtain ⟨hstring, h⟩ := Option.ite_none_left_eq_some.1 h
    obtain ⟨t, ht, rfl⟩ := Option.map_eq_some_iff.1 h
    obtain ⟨hapart, hhonest⟩ := hproperties _ _ _ ht
    have hfold := CharSet.saturated_fold hapart hhonest flags
    cases negate with
    | false => exact hfold
    | true =>
      have hsplit : ¬ (if flags.unicodeSets then t.fold flags else t).Split := fun hsplits =>
        hsplit ⟨_, by rw [Node.negated?, if_neg hstring, ht]; rfl, hsplits⟩
      simp only [Bool.not_true, Bool.false_eq_true, if_false]
      split at hsplit
      · rename_i hsets
        rw [if_pos hsets]
        exact hfold.complement hsplit
      · rename_i hsets
        rw [if_neg hsets]
        exact CharSet.saturated_fold (CharSet.apart_complement hapart hsplit)
          (CharSet.honest_complement hapart hsplit hhonest) flags

namespace Node

theorem saturated_of_charSets? {ns : List Node} {sets : List CharSet}
    (hns : ∀ n ∈ ns, ∀ t, n.charSet? flags = some t → t.Saturated flags)
    (h : charSets? flags ns = some sets) : ∀ t ∈ sets, t.Saturated flags := by
  induction ns generalizing sets with
  | nil =>
    cases h
    exact List.forall_mem_nil _
  | cons n ns ih =>
    rw [List.forall_mem_cons] at hns
    rw [charSets?] at h
    split at h
    · rename_i t more ht hmore
      cases h
      exact List.forall_mem_cons.2 ⟨hns.1 t ht, ih hns.2 hmore⟩
    · cases h

/-- A node that takes no complement of a split set has a closed set, if it has one. -/
theorem saturated_charSet? (hproperties : Properties.Canonical) {n : Node}
    (hsplits : n.Throughout fun m => ¬ m.Splits flags)
    (h : n.charSet? flags = some s) : s.Saturated flags := by
  induction n using induction_on_children generalizing s with
  | h n ih =>
    have hchild {c : Node} {t : CharSet} (hc : c ∈ n.children)
        (ht : c.charSet? flags = some t) : t.Saturated flags :=
      ih c hc ((throughout_iff.1 hsplits).2 c hc) ht
    have hsplit := hsplits n .self
    cases n with
    | character letter => exact Letter.saturated_charSet? h
    | range a b =>
      obtain ⟨-, h⟩ := Option.ite_none_right_eq_some.1 h
      obtain rfl := Option.some.inj h
      exact saturated_span _ _ flags
    | shorthand set => exact Shorthand.saturated_charSet? hproperties hsplit h
    | charClass negate unicodeSets elements =>
      rw [charSet?] at h
      obtain ⟨sets, hsets, rfl⟩ := Option.map_eq_some_iff.1 h
      have hbody := saturated_of_charSets? (fun c hc t => hchild hc) hsets
      refine (CharSet.saturated_joinAll hbody).complementIf fun hnegate htsplit => ?_
      subst hnegate
      exact hsplit ⟨_, by rw [negated?, hsets]; rfl, htsplit⟩
    | classExpression negate expression =>
      rw [charSet?] at h
      obtain ⟨t, ht, rfl⟩ := Option.map_eq_some_iff.1 h
      refine (hchild (List.mem_singleton_self _) ht).complementIf fun hnegate htsplit => ?_
      subst hnegate
      exact hsplit ⟨t, ht, htsplit⟩
    | classOperation operator left right =>
      rw [charSet?] at h
      split at h
      · rename_i t u ht hu
        have hleft := hchild (by simp [children]) ht
        have hright := hchild (by simp [children]) hu
        cases operator with
        | intersection =>
          obtain rfl := Option.some.inj h
          exact hleft.meet hright
        | subtraction =>
          obtain rfl := Option.some.inj h
          exact hleft.minus hright
      · cases h
    | strings alternatives =>
      obtain ⟨sets, hsets, rfl⟩ := Option.map_eq_some_iff.1 h
      have hall : List.Forall₂ (fun t _ => t.Saturated flags ∧ True) sets alternatives :=
        (forall₂_of_mapM hsets).flip.imp fun _ _ ht => ⟨Letter.saturated_stringSet? ht, trivial⟩
      exact CharSet.saturated_joinAll ((List.forall₂_and_left sets alternatives).1 hall).1
    | string letters => exact Letter.saturated_stringSet? h
    | _ => cases h

/-- Whatever the sets of the properties are, a node in which no complement is taken of a split set has
a set that is closed under case: what is equal to a member up to case is a member, and folding the set
again changes nothing. -/
theorem charSet?_closed (hproperties : Properties.Canonical) {n : Node}
    (hsplits : n.Throughout fun m => ¬ m.Splits flags) (h : n.charSet? flags = some s) :
    (∀ c d, s.has c = true → flags.Folds c d → s.has d = true) ∧
      ∀ c, (s.fold flags).has c = s.has c := by
  have hs := saturated_charSet? hproperties hsplits h
  have hsorted := hs.apart.sorted
  refine ⟨fun c d hc hcd => ?_, fun c => ?_⟩
  · rw [CharSet.has_iff hsorted] at hc ⊢
    exact hs.closed c hc d hcd
  · rw [Bool.eq_iff_iff, CharSet.has_iff (CharSet.sorted_fold hsorted flags), CharSet.has_iff hsorted]
    exact hs.mem_fold c

end Node

end

namespace Node

/-- `[^\P{ASCII}]` with `i` and `u`: what is not ASCII is folded and has `k` for U+212A, so that the
class has `a` and `A` but no `k`. -/
theorem charSet?_closed_negated :
    let flags : Flags := { ignoreCase := true, unicode := true }
    let n : Node := charClass true false [shorthand (.property none "ASCII".toList true)]
    ∃ s, n.charSet? flags = some s ∧ s.has 'a' = true ∧ s.has 'A' = true ∧
      (s.fold flags).has 'k' = false := by
  intro flags n
  have hsplits : n.Throughout fun m => ¬ m.Splits flags := by
    have hnodes : ∀ m ∈ n.nodes, ¬ m.Splits flags := by decide +kernel
    exact fun m hm => hnodes m (mem_nodes.2 hm)
  have hsome : (n.charSet? flags).isSome = true := by decide +kernel
  obtain ⟨s, hs⟩ := Option.isSome_iff_exists.1 hsome
  have hletters : (n.charSet? flags).map (fun s => (s.has 'a', s.has 'k')) = some (true, false) := by
    decide +kernel
  rw [hs] at hletters
  obtain ⟨ha, hk⟩ := Prod.mk.inj (Option.some.inj hletters)
  have hcase : flags.Folds 'a' 'A' :=
    ⟨.inr ⟨[0x41, 0x61], by decide +kernel, by decide, by decide⟩, .inl rfl⟩
  obtain ⟨hclosed, hfold⟩ := charSet?_closed canonical_knownProperties hsplits hs
  exact ⟨s, hs, ha, hclosed 'a' 'A' ha hcase, (hfold 'k').trans hk⟩

end Node

end RegexAudit
