import RegexAudit.CharSet.KnownProperties
import RegexAudit.Lint.EmptyClass
import RegexAudit.Proofs.Assertions
import RegexAudit.Proofs.Folding
import RegexAudit.Proofs.RangeOrder

/-!
# Members of classes

What it means for a character to be in a class is said without sets, by recursion over the node
(`Node.Includes`): a letter or a range has what its code points fold to, a class has what one of its
elements has, the operators are conjunction and exclusion, and a negated class has what its body has
not. `Node.charSet?` computes that set as long as no complement is taken of a set that is split at the
surrogates (`Node.Splits`); the complement of such a set still has a member of it, so that

    all classes and negated properties below a node have the right sets  ↔  none below it splits.

Where none splits, a class is reported as empty if and only if it has no member. The sets of the
properties may be any, as long as they are stored as sets are (`Properties.Canonical`).
-/

namespace RegexAudit

open Unicode

/-- A proposition or its negation. -/
def Polar : (negate : Bool) → Prop → Prop
  | false, p => p
  | true, p => ¬ p

/-! ## Members -/

def Letter.Includes (flags : Flags) (letter : Letter) (c : Char) : Prop :=
  ∃ d : Char, d.toNat = letter.value ∧ flags.Folds d c

/-- A string has a character only if it is a single letter. -/
def Letter.StringIncludes (flags : Flags) (letters : List Letter) (c : Char) : Prop :=
  ∃ letter, letters = [letter] ∧ letter.Includes flags c

/-- The members of a property are folded; with `v` before it is negated, and after it otherwise. -/
def Shorthand.Includes [Properties] (flags : Flags) : Shorthand → Char → Prop
  | any, c => flags.dotAll = true ∨ isIn lineTerminators c = false
  | digit negate, c => Polar negate (isIn digits c = true)
  | space negate, c => Polar negate (isIn blanks c = true)
  | word negate, c => Polar negate (Input.isWord flags c = true)
  | property key value negate, c => ∃ set, Properties.set? key value = some set ∧
    if flags.unicodeSets then Polar negate (∃ d, set.has d = true ∧ flags.Folds d c)
    else ∃ d, Polar negate (set.has d = true) ∧ flags.Folds d c

namespace Node

variable [Properties]

mutual

/-- Whether a character is in what the node stands for. -/
def Includes (flags : Flags) : Node → Char → Prop
  | character letter, c => letter.Includes flags c
  | range min max, c =>
    ∃ d : Char, min.value ≤ d.toNat ∧ d.toNat ≤ max.value ∧ flags.Folds d c
  | shorthand set, c => set.Includes flags c
  | charClass negate _ elements, c => Polar negate (IncludedInSome flags elements c)
  | classExpression negate expression, c => Polar negate (Includes flags expression c)
  | classOperation .intersection left right, c => Includes flags left c ∧ Includes flags right c
  | classOperation .subtraction left right, c => Includes flags left c ∧ ¬ Includes flags right c
  | strings alternatives, c => ∃ letters ∈ alternatives, Letter.StringIncludes flags letters c
  | string letters, c => Letter.StringIncludes flags letters c
  | _, _ => False

/-- Whether a character is in what one of the nodes stands for. -/
def IncludedInSome (flags : Flags) : List Node → Char → Prop
  | [], _ => False
  | n :: ns, c => Includes flags n c ∨ IncludedInSome flags ns c

end

/-- The set that a node takes the complement of. A negated property is folded first with `v`. -/
def negated? (flags : Flags) : Node → Option CharSet
  | charClass true _ elements => (charSets? flags elements).map CharSet.joinAll
  | classExpression true expression => charSet? flags expression
  | shorthand (.property key value true) =>
    if isStringProperty key value then none
    else (Properties.set? key value).map fun set => if flags.unicodeSets then set.fold flags else set
  | _ => none

/-- A node that takes the complement of a set that is split at the surrogates. -/
def Splits (flags : Flags) (n : Node) : Prop := ∃ s, n.negated? flags = some s ∧ s.Split

instance (flags : Flags) (n : Node) : Decidable (n.Splits flags) :=
  match h : n.negated? flags with
  | none => isFalse (by rintro ⟨s, hs, -⟩; rw [h] at hs; cases hs)
  | some s => decidable_of_iff s.Split
    ⟨fun hs => ⟨s, h, hs⟩, fun ⟨_, ht, hsplit⟩ => Option.some.inj (h.symm.trans ht) ▸ hsplit⟩

/-- If the node has a set, its characters are those that the node includes. -/
def IsExact (flags : Flags) (n : Node) : Prop :=
  ∀ s, n.charSet? flags = some s → ∀ c, s.has c = true ↔ n.Includes flags c

end Node

namespace CharSet

/-- The set is stored with its ranges apart, and these are its characters. -/
structure Denotes (s : CharSet) (p : Char → Prop) : Prop where
  apart : s.Apart
  mem : ∀ c, c ∈ s ↔ p c

variable {s t : CharSet} {p q : Char → Prop} {flags : Flags}

theorem Denotes.has (h : s.Denotes p) (c : Char) : s.has c = true ↔ p c :=
  (has_iff h.apart.sorted c).trans (h.mem c)

theorem Denotes.congr (h : s.Denotes p) (hpq : ∀ c, p c ↔ q c) : s.Denotes q :=
  ⟨h.apart, fun c => (h.mem c).trans (hpq c)⟩

theorem Denotes.meet (hs : s.Denotes p) (ht : t.Denotes q) :
    (s.meet t).Denotes fun c => p c ∧ q c := by
  refine ⟨apart_meet hs.apart ht.apart, fun c => ?_⟩
  rw [mem_meet hs.apart.sorted ht.apart.sorted, hs.mem, ht.mem]

theorem Denotes.minus (hs : s.Denotes p) (ht : t.Denotes q) :
    (s.minus t).Denotes fun c => p c ∧ ¬ q c := by
  refine ⟨apart_minus hs.apart t, fun c => ?_⟩
  rw [mem_minus hs.apart.sorted ht.apart.sorted, hs.mem, ht.mem]

theorem Denotes.complement (h : s.Denotes p) (hsplit : ¬ s.Split) :
    s.complement.Denotes fun c => ¬ p c :=
  ⟨apart_complement h.apart hsplit, fun c =>
    (mem_complement_iff h.apart hsplit c).trans (not_congr (h.mem c))⟩

theorem Denotes.complementIf {negate : Bool} (h : s.Denotes p)
    (hsplit : negate = true → ¬ s.Split) :
    (s.complementIf negate).Denotes fun c => Polar negate (p c) := by
  cases negate with
  | false => exact h
  | true => exact h.complement (hsplit rfl)

theorem Denotes.fold (flags : Flags) (h : s.Denotes p) (hhonest : s.Honest) :
    (s.fold flags).Denotes fun c => ∃ d, p d ∧ flags.Folds d c := by
  refine ⟨apart_fold h.apart flags, fun c => ?_⟩
  rw [mem_fold_iff h.apart.sorted hhonest.closed_of_mark]
  exact exists_congr fun d => and_congr_left' (h.mem d)

theorem denotes_ofCodes {table : List (Nat × Nat)} (h : IsTable table) :
    (ofCodes table).Denotes fun c => isIn table c = true :=
  ⟨apart_ofRanges _, mem_ofCodes h⟩

theorem denotes_span {a b : Char} (h : a.toNat ≤ b.toNat) :
    (span a b).Denotes fun c => a.toNat ≤ c.toNat ∧ c.toNat ≤ b.toNat := by
  refine ⟨apart_ofRanges _, fun c => ?_⟩
  rw [span, mem_ofRanges, Range.inSome_cons, Range.mem_between]
  simp only [Range.inSome_nil, or_false]
  omega

end CharSet

/-! ## Letters and shorthands -/

section
variable {flags : Flags} {s : CharSet}

theorem Letter.denotes_charSet? {letter : Letter} (h : letter.charSet? flags = some s) :
    s.Denotes (letter.Includes flags) := by
  obtain ⟨base, hbase, rfl⟩ := Option.map_eq_some_iff.1 h
  unfold CharSet.ofCode? at hbase
  split at hbase
  · rename_i hvalid
    cases hbase
    have hspan := CharSet.denotes_span (Nat.le_refl (Char.ofNat letter.value).toNat)
    have hsingle := hspan.fold flags (CharSet.honest_ofRanges _)
    refine hsingle.congr fun c => exists_congr fun d => and_congr_left' ?_
    rw [toNat_ofNat hvalid]
    omega
  · cases hbase

theorem Letter.denotes_stringSet? {letters : List Letter}
    (h : Letter.stringSet? flags letters = some s) :
    s.Denotes (Letter.StringIncludes flags letters) := by
  unfold Letter.stringSet? at h
  split at h
  · rename_i letter
    refine (Letter.denotes_charSet? h).congr fun c => ?_
    simp [Letter.StringIncludes]
  · cases h

end

namespace CharSet

instance (table : List (Nat × Nat)) : Decidable (IsTable table) :=
  inferInstanceAs (Decidable
    (∀ e ∈ table, e.1.isValidChar ∧ e.2.isValidChar ∧ e.1 ≤ e.2))

theorem not_split_ofCodes {table : List (Nat × Nat)} (h : IsTable table)
    (hcode : isIn table (Char.ofNat 0xE000) = false) : ¬ (ofCodes table).Split := by
  refine not_split_of_not_mem fun hmem => ?_
  rw [mem_ofCodes h, hcode] at hmem
  cases hmem

/-- The sets of shorthands that are no properties. -/
theorem denotes_shorthand {table : List (Nat × Nat)} (h : IsTable table)
    (hcode : isIn table (Char.ofNat 0xE000) = false) (negate : Bool) :
    ((ofCodes table).complementIf negate).Denotes fun c => Polar negate (isIn table c = true) :=
  (denotes_ofCodes h).complementIf fun _ => not_split_ofCodes h hcode

end CharSet

theorem denotes_wordSet (flags : Flags) :
    (wordSet flags).Denotes fun c => Input.isWord flags c = true := by
  refine ⟨?_, UselessAssertion.mem_wordSet flags⟩
  unfold wordSet
  simp only
  split
  · exact CharSet.apart_join (CharSet.apart_ofRanges _) _
  · exact CharSet.apart_ofRanges _

section
variable {flags : Flags} {s : CharSet}

/-- The set of a property, negated before or after it is folded. -/
theorem CharSet.denotes_property {t : CharSet} (hapart : t.Apart) (hhonest : t.Honest)
    {negate : Bool}
    (hsplit : negate = true → ¬ (if flags.unicodeSets then t.fold flags else t).Split) :
    (if !negate then t.fold flags
      else if flags.unicodeSets then (t.fold flags).complement
      else t.complement.fold flags).Denotes fun c =>
        if flags.unicodeSets then Polar negate (∃ d, t.has d = true ∧ flags.Folds d c)
        else ∃ d, Polar negate (t.has d = true) ∧ flags.Folds d c := by
  have hset : t.Denotes fun c => t.has c = true := ⟨hapart, fun c => (has_iff hapart.sorted c).symm⟩
  cases negate with
  | false => simpa [Polar] using hset.fold flags hhonest
  | true =>
    replace hsplit := hsplit rfl
    by_cases hsets : flags.unicodeSets = true
    · rw [if_pos hsets] at hsplit
      simpa [hsets, Polar] using (hset.fold flags hhonest).complement hsplit
    · rw [if_neg hsets] at hsplit
      simpa [hsets, Polar] using
        (hset.complement hsplit).fold flags (honest_complement hapart hsplit hhonest)

theorem Shorthand.denotes_charSet? [Properties] (hproperties : Properties.Canonical) {set : Shorthand}
    (hsplit : ¬ (Node.shorthand set).Splits flags) (h : set.charSet? flags = some s) :
    s.Denotes (set.Includes flags) := by
  cases set with
  | any =>
    obtain rfl := Option.some.inj h
    split
    · rename_i hall
      exact ⟨CharSet.apart_ofRanges _, fun c => by simp [Includes, hall]⟩
    · rename_i hall
      refine (CharSet.denotes_shorthand (by decide) (by decide) true).congr fun c => ?_
      simp [Includes, Polar, hall]
  | digit negate =>
    obtain rfl := Option.some.inj h
    exact CharSet.denotes_shorthand (by decide) (by decide) negate
  | space negate =>
    obtain rfl := Option.some.inj h
    exact CharSet.denotes_shorthand (by decide) (by decide) negate
  | word negate =>
    obtain rfl := Option.some.inj h
    refine (denotes_wordSet flags).complementIf fun _ => CharSet.not_split_of_not_mem fun hmem => ?_
    rw [UselessAssertion.mem_wordSet] at hmem
    simp [Input.isWord, isIn, wordCharacters, foldedWordCharacters] at hmem
  | property key value negate =>
    rw [Shorthand.charSet?] at h
    obtain ⟨hstring, h⟩ := Option.ite_none_left_eq_some.1 h
    obtain ⟨t, ht, rfl⟩ := Option.map_eq_some_iff.1 h
    obtain ⟨hapart, hhonest⟩ := hproperties _ _ _ ht
    refine (CharSet.denotes_property hapart hhonest fun hnegate htsplit => ?_).congr fun c => ?_
    · subst hnegate
      exact hsplit ⟨_, by rw [Node.negated?, if_neg hstring, ht]; rfl, htsplit⟩
    · simp [Includes, ht]

end

/-! ## Nodes -/

namespace Node

variable [Properties] {flags : Flags}

theorem includedInSome_iff (ns : List Node) (c : Char) :
    IncludedInSome flags ns c ↔ ∃ n ∈ ns, n.Includes flags c := by
  induction ns with
  | nil => simp [IncludedInSome]
  | cons n ns ih => simp [IncludedInSome, ih]

/-- Sets of nodes are found one by one. -/
theorem forall₂_of_charSets? {ns : List Node} {sets : List CharSet}
    (h : charSets? flags ns = some sets) :
    List.Forall₂ (fun n s => charSet? flags n = some s) ns sets := by
  induction ns generalizing sets with
  | nil =>
    cases h
    exact .nil
  | cons n ns ih =>
    rw [charSets?] at h
    split at h
    · rename_i s more hs hmore
      cases h
      exact .cons hs (ih hmore)
    · cases h

end Node

theorem forall₂_of_mapM {α β : Type} {f : α → Option β} {xs : List α} {ys : List β}
    (h : xs.mapM f = some ys) : List.Forall₂ (fun x y => f x = some y) xs ys := by
  induction xs generalizing ys with
  | nil =>
    cases h
    exact .nil
  | cons x xs ih =>
    rw [List.mapM_cons] at h
    obtain ⟨y, hy, h⟩ := Option.bind_eq_some_iff.1 h
    obtain ⟨more, hmore, h⟩ := Option.bind_eq_some_iff.1 h
    cases h
    exact .cons hy (ih hmore)

theorem CharSet.denotes_joinAll {α : Type} {ps : α → Char → Prop} {xs : List α}
    {sets : List CharSet} (h : List.Forall₂ (fun x s => s.Denotes (ps x)) xs sets) :
    (joinAll sets).Denotes fun c => ∃ x ∈ xs, ps x c := by
  refine ⟨apart_joinAll sets, fun c => ?_⟩
  rw [mem_joinAll]
  induction h with
  | nil => simp
  | cons hs _ ih => simp [hs.mem, ih]

namespace Node

variable [Properties] {flags : Flags} {s : CharSet}

theorem denotes_range {a b : Letter} (horder : a.value ≤ b.value)
    (h : (range a b).charSet? flags = some s) : s.Denotes ((range a b).Includes flags) := by
  rw [charSet?] at h
  split at h
  · rename_i hvalid
    simp only [Bool.and_eq_true, decide_eq_true_eq] at hvalid
    obtain rfl := Option.some.inj h
    have ha := toNat_ofNat hvalid.1
    have hb := toNat_ofNat hvalid.2
    have hspan := (CharSet.denotes_span (a := Char.ofNat a.value) (b := Char.ofNat b.value)
      (by omega)).fold flags (CharSet.honest_ofRanges _)
    refine hspan.congr fun c => ?_
    rw [Includes, ha, hb]
    simp only [and_assoc]
  · cases h

theorem denotes_strings {alternatives : List (List Letter)}
    (h : (strings alternatives).charSet? flags = some s) :
    s.Denotes ((strings alternatives).Includes flags) := by
  rw [charSet?] at h
  obtain ⟨sets, hsets, rfl⟩ := Option.map_eq_some_iff.1 h
  have hall := (forall₂_of_mapM hsets).imp fun _ _ hs => Letter.denotes_stringSet? hs
  refine (CharSet.denotes_joinAll hall).congr fun c => ?_
  rw [Includes]

/-- The elements of a class, if each of them has the set of its members. -/
theorem denotes_elements {ns : List Node} {sets : List CharSet}
    (hns : ∀ n ∈ ns, ∀ s, n.charSet? flags = some s → s.Denotes (n.Includes flags))
    (h : charSets? flags ns = some sets) :
    (CharSet.joinAll sets).Denotes (IncludedInSome flags ns) := by
  have hall : List.Forall₂ (fun n s => s.Denotes (n.Includes flags)) ns sets := by
    have hsets := forall₂_of_charSets? h
    clear h
    induction hsets with
    | nil => exact .nil
    | cons hn _ ih =>
      exact .cons (hns _ (by simp) _ hn) (ih fun n hn => hns n (List.mem_cons_of_mem _ hn))
  exact (CharSet.denotes_joinAll hall).congr fun c => (includedInSome_iff ns c).symm

/-- A node has the set of its members, if no negated class in it splits. -/
theorem denotes_charSet? (hproperties : Properties.Canonical) {n : Node} (hranges : n.Ascending)
    (hsplits : n.Throughout fun m => ¬ m.Splits flags) (h : n.charSet? flags = some s) :
    s.Denotes (n.Includes flags) := by
  induction n using induction_on_children generalizing s with
  | h n ih =>
    have hchild {c : Node} {t : CharSet} (hc : c ∈ n.children) (ht : c.charSet? flags = some t) :
        t.Denotes (c.Includes flags) :=
      ih c hc ((throughout_iff.1 hranges).2 c hc) ((throughout_iff.1 hsplits).2 c hc) ht
    have hsplit : ¬ n.Splits flags := hsplits n .self
    cases n with
    | character letter => exact Letter.denotes_charSet? h
    | range a b => exact denotes_range (hranges _ .self a b rfl) h
    | shorthand set => exact Shorthand.denotes_charSet? hproperties hsplit h
    | charClass negate unicodeSets elements =>
      rw [charSet?] at h
      obtain ⟨sets, hsets, rfl⟩ := Option.map_eq_some_iff.1 h
      have hbody := denotes_elements (fun c hc t => hchild hc) hsets
      refine hbody.complementIf fun hnegate htsplit => ?_
      subst hnegate
      exact hsplit ⟨_, Option.map_eq_some_iff.2 ⟨sets, hsets, rfl⟩, htsplit⟩
    | classExpression negate expression =>
      rw [charSet?] at h
      obtain ⟨t, ht, rfl⟩ := Option.map_eq_some_iff.1 h
      refine (hchild (by simp [children]) ht).complementIf fun hnegate htsplit => ?_
      subst hnegate
      exact hsplit ⟨t, ht, htsplit⟩
    | classOperation operator left right =>
      rw [charSet?] at h
      split at h
      · rename_i t u ht hu
        have htdenotes := hchild (by simp [children]) ht
        have hudenotes := hchild (by simp [children]) hu
        cases operator with
        | intersection =>
          obtain rfl := Option.some.inj h
          exact htdenotes.meet hudenotes
        | subtraction =>
          obtain rfl := Option.some.inj h
          exact htdenotes.minus hudenotes
      · cases h
    | strings alternatives => exact denotes_strings h
    | string letters => exact Letter.denotes_stringSet? h
    | _ => cases h

/-- A node that takes a complement has in its set what is in the complement, but it does not include
U+D7FF if that is in the set it takes the complement of. -/
theorem charSet?_of_negated? (hproperties : Properties.Canonical) {n : Node} {s : CharSet}
    (h : n.negated? flags = some s)
    (hchildren : ∀ c ∈ n.children, ∀ t, c.charSet? flags = some t → t.Denotes (c.Includes flags)) :
    s.Apart ∧ (∃ t, n.charSet? flags = some t ∧ t.Sorted ∧ ∀ c ∈ s.complement, c ∈ t) ∧
      (Char.ofNat 0xD7FF ∈ s → ¬ n.Includes flags (Char.ofNat 0xD7FF)) := by
  unfold negated? at h
  split at h
  · rename_i elements
    obtain ⟨sets, hsets, rfl⟩ := Option.map_eq_some_iff.1 h
    have hbody := denotes_elements hchildren hsets
    refine ⟨hbody.apart, ⟨_, ?_, CharSet.sorted_complement hbody.apart, fun c hc => hc⟩,
      fun hmem => ?_⟩
    · rw [charSet?, hsets]
      rfl
    · rw [Includes, Polar]
      exact not_not_intro ((hbody.mem _).1 hmem)
  · have hbody := hchildren _ (by simp [children]) s h
    refine ⟨hbody.apart, ⟨_, ?_, CharSet.sorted_complement hbody.apart, fun c hc => hc⟩,
      fun hmem => ?_⟩
    · rw [charSet?, h]
      rfl
    · rw [Includes, Polar]
      exact not_not_intro ((hbody.mem _).1 hmem)
  · rename_i key value
    obtain ⟨hstring, h⟩ := Option.ite_none_left_eq_some.1 h
    obtain ⟨u, hu, rfl⟩ := Option.map_eq_some_iff.1 h
    obtain ⟨hapart, hhonest⟩ := hproperties _ _ _ hu
    rw [charSet?, Shorthand.charSet?, if_neg hstring, hu]
    simp only [Includes, Shorthand.Includes, hu, Option.some.injEq, exists_eq_left']
    split
    · have hfold := CharSet.apart_fold hapart flags
      refine ⟨hfold, ⟨_, by simp, CharSet.sorted_complement hfold, fun c hc => hc⟩,
        fun hmem => ?_⟩
      rw [CharSet.mem_fold_iff hapart.sorted hhonest.closed_of_mark] at hmem
      simpa [Polar, CharSet.has_iff hapart.sorted] using hmem
    · have hcomplement := CharSet.sorted_complement hapart
      refine ⟨hapart, ⟨_, by simp, CharSet.sorted_fold hcomplement flags, fun c hc =>
        CharSet.mem_fold_of_mem hcomplement flags hc⟩, fun hmem => ?_⟩
      rintro ⟨d, hd, hfolds⟩
      rw [hfolds.sameCase.eq_of_lastBeforeSurrogates, Polar, CharSet.has_iff hapart.sorted] at hd
      exact hd hmem
  · cases h

/-- Where a node splits, its set has a character too many. -/
theorem not_isExact_of_splits (hproperties : Properties.Canonical) {n : Node} (h : n.Splits flags)
    (hchildren : ∀ c ∈ n.children, ∀ t, c.charSet? flags = some t → t.Denotes (c.Includes flags)) :
    ¬ n.IsExact flags := by
  obtain ⟨s, hs, hsplit⟩ := h
  obtain ⟨hapart, ⟨t, ht, hsorted, hmore⟩, hexcluded⟩ :=
    charSet?_of_negated? hproperties hs hchildren
  obtain ⟨hmem, hcomplement⟩ := CharSet.both_of_split hapart hsplit
  intro hexact
  exact hexcluded hmem ((hexact t ht _).1 ((CharSet.has_iff hsorted _).2 (hmore _ hcomplement)))

/-- The classes and negated properties of a tree have the right sets if and only if none splits. -/
theorem isExact_iff_not_splits (hproperties : Properties.Canonical) {n : Node}
    (hranges : n.Ascending) :
    (∀ m, n.HasPart m → EmptyClass.isClass m = true ∨ (m.negated? flags).isSome = true →
      m.IsExact flags) ↔ n.Throughout fun m => ¬ m.Splits flags := by
  constructor
  · intro h
    induction n using induction_on_children with
    | h n ih =>
      have hbelow (c : Node) (hc : c ∈ n.children) : c.Throughout fun m => ¬ m.Splits flags :=
        ih c hc ((throughout_iff.1 hranges).2 c hc) fun m hm => h m (.of_child hc hm)
      refine throughout_iff.2 ⟨fun hsplits => ?_, hbelow⟩
      obtain ⟨s, hs, -⟩ := id hsplits
      have hexact := h n .self (.inr (Option.isSome_of_eq_some hs))
      refine not_isExact_of_splits hproperties hsplits (fun c hc t ht => ?_) hexact
      exact denotes_charSet? hproperties ((throughout_iff.1 hranges).2 c hc) (hbelow c hc) ht
  · intro h m hm _ s hs c
    have hdenotes := denotes_charSet? hproperties (throughout_of_hasPart hranges hm)
      (throughout_of_hasPart h hm) hs
    exact hdenotes.has c

end Node

/-! ## Reports -/

/-- A class that stands in no other class and has a set is reported if and only if it has no
member. -/
theorem EmptyClass.isReported_iff [Properties] (hproperties : Properties.Canonical)
    {flags : Flags} {p : Place} (hranges : p.node.Ascending)
    (hsplits : p.node.Throughout fun m => ¬ m.Splits flags) (houtermost : isOutermost p = true)
    (hset : (p.node.charSet? flags).isSome = true) :
    isReported flags p = true ↔ ∀ c, ¬ p.node.Includes flags c := by
  obtain ⟨s, hs⟩ := Option.isSome_iff_exists.1 hset
  have hdenotes := Node.denotes_charSet? hproperties hranges hsplits hs
  rw [isReported, houtermost, hs, Bool.true_and, Option.any_some, CharSet.isEmpty_iff]
  exact forall_congr' fun c => not_congr (hdenotes.mem c)

/-- In every parsed pattern and under any flags, the classes and negated properties below a node
contain exactly the characters that they include if and only if none of them takes the complement of a
set that is split at the surrogates. If none does under the flags of the pattern, a class that stands
in no other one and has a set is reported as empty if and only if it includes no character. -/
theorem Regex.classes_exact [Properties] (hproperties : Properties.Canonical) {source : List Char}
    {flags : Flags} {r : Regex} (h : Regex.parse source flags = .ok r) {p : Place} (hp : p ∈ r.walk)
    (tested : Flags) :
    ((∀ m, p.node.HasPart m → EmptyClass.isClass m = true ∨ (m.negated? tested).isSome = true →
      m.IsExact tested) ↔ p.node.Throughout fun m => ¬ m.Splits tested) ∧
    ((p.node.Throughout fun m => ¬ m.Splits r.flags) → EmptyClass.isOutermost p = true →
      (p.node.charSet? r.flags).isSome = true →
        (EmptyClass.isReported r.flags p = true ↔ ∀ c, ¬ p.node.Includes r.flags c)) := by
  have hranges : p.node.Ascending :=
    Node.throughout_of_hasPart (Regex.ascending_of_parse h) (Node.hasPart_of_mem_walk hp)
  exact ⟨Node.isExact_iff_not_splits hproperties hranges,
    EmptyClass.isReported_iff hproperties hranges⟩

open Node in
/-- In `[^[^b-d]--x]` the inner class and the outer one are both negated, and neither of them meets the
surrogates. -/
theorem Regex.classes_exact_negated :
    let source := ['[', '^', '[', '^', 'b', '-', 'd', ']', '-', '-', 'x', ']']
    let flags : Flags := { ignoreCase := true, unicodeSets := true }
    let inner : Node := charClass true true [range ⟨98, ['b']⟩ ⟨100, ['d']⟩]
    let outer : Node := classExpression true (classOperation .subtraction inner (character ⟨120, ['x']⟩))
    let r : Regex := ⟨source, flags, choice .whole [alternative [outer]]⟩
    Regex.parse source flags = .ok r ∧ inner.IsExact flags ∧ outer.IsExact flags ∧
      ∃ p ∈ r.walk, p.node = outer ∧ (EmptyClass.isReported flags p = true ↔
        ∀ c, ¬ outer.Includes flags c) := by
  intro source flags inner outer r
  have hparse : Regex.parse source flags = .ok r := rfl
  have hp : _ ∈ r.walk := List.mem_of_getElem? (i := 2) rfl
  have hsplits : outer.Throughout fun m => ¬ m.Splits flags := by
    have hnodes : ∀ m ∈ outer.nodes, ¬ m.Splits flags := by decide +kernel
    exact fun m hm => hnodes m (mem_nodes.2 hm)
  have hinner : outer.HasPart inner := mem_nodes.1 (List.mem_of_getElem? (i := 2) rfl)
  obtain ⟨hexact, hreported⟩ := Regex.classes_exact canonical_knownProperties hparse hp flags
  exact ⟨hparse, hexact.2 hsplits inner hinner (.inl rfl), hexact.2 hsplits outer .self (.inl rfl),
    _, hp, rfl, hreported hsplits rfl (by decide +kernel)⟩

open Node in
/-- `[^\u0000-\uD7FF\uE000-\u{10FFFF}]` has no member, but the complement of its body does, and it is
not reported. -/
theorem EmptyClass.not_isReported_surrogates :
    let flags : Flags := { unicode := true }
    let low : Node := range ⟨0, ['\\', 'u', '0', '0', '0', '0']⟩
      ⟨0xD7FF, ['\\', 'u', 'D', '7', 'F', 'F']⟩
    let high : Node := range ⟨0xE000, ['\\', 'u', 'E', '0', '0', '0']⟩
      ⟨0x10FFFF, ['\\', 'u', '{', '1', '0', 'F', 'F', 'F', 'F', '}']⟩
    let n : Node := charClass true false [low, high]
    let r : Regex := ⟨['[', '^', '\\', 'u', '0', '0', '0', '0', '-', '\\', 'u', 'D', '7', 'F', 'F', '\\',
      'u', 'E', '0', '0', '0', '-', '\\', 'u', '{', '1', '0', 'F', 'F', 'F', 'F', '}', ']'], flags,
      choice .whole [alternative [n]]⟩
    Regex.parse r.source flags = .ok r ∧ (∃ p ∈ r.walk, p.node = n ∧
      EmptyClass.isReported flags p = false) ∧ n.Splits flags ∧ ∀ c, ¬ n.Includes flags c := by
  intro flags low high n r
  have hp : ⟨n, 2, 0, [⟨alternative [n], 1, 0, 0⟩, ⟨r.root, 0, 0, 0⟩]⟩ ∈ r.walk :=
    List.mem_of_getElem? (i := 2) rfl
  refine ⟨rfl, ⟨_, hp, rfl, by decide⟩, by decide, fun c => ?_⟩
  have hc := char_valid c
  have hbody : low.Includes flags c ∨ high.Includes flags c := by
    by_cases hlow : c.toNat < 0xD800
    · exact .inl ⟨c, Nat.zero_le _, Nat.le_of_lt_succ hlow, rfl⟩
    · have hbounds : 0xE000 ≤ c.toNat ∧ c.toNat ≤ 0x10FFFF := by omega
      exact .inr ⟨c, hbounds.1, hbounds.2, rfl⟩
  have hincluded : IncludedInSome flags [low, high] c := hbody.imp_right .inl
  exact fun h => h hincluded

end RegexAudit
