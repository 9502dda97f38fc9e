import RegexAudit.Analysis.Equality
import RegexAudit.CharSet.KnownProperties
import RegexAudit.Proofs.Cases
import RegexAudit.Proofs.Matching
import RegexAudit.Proofs.Trees

/-!
# Equal nodes match the same

If two nodes are compared as equal, they match the same stretches of every input:

    c.Faithful x p q → p a → q b → c.same a b = true →
      a.spans c.flags x = b.spans c.flags x                                    (spans_of_same)

Three of the tests that a comparison relies on look at less than what is matched: equal text, equal
upper case and equal groups of references. What they promise is gathered in `Faithful`, for the
nodes `p` on the left and `q` on the right. Equal upper case keeps its promise where the case tables
say so, which `Node.CasesAgree` asks for the letters of two trees.
-/

namespace RegexAudit

namespace Span

theorem oneOf_congr {Ps Qs : List Span} (h : ∀ P, P ∈ Ps ↔ P ∈ Qs) : oneOf Ps = oneOf Qs := by
  funext i j
  simp only [oneOf, h]

end Span

namespace Node

variable {flags : Flags} {x : Input}

theorem spans_of_isCharacter [Properties] {n : Node} (h : n.isCharacter = true) :
    n.spans flags x = x.character flags n := by
  cases n with
  | character _ | range _ _ | shorthand _ | charClass _ _ _ | classExpression _ _
  | classOperation _ _ _ => rw [spans]
  | choice _ _ | look _ _ _ | alternative _ | quantifier _ _ _ _ | edge _ | backreference _
  | strings _ | string _ => cases h

theorem isCharacter_of_kind {a b : Node} (h : a.kind = b.kind) (ha : a.isCharacter = true) :
    b.isCharacter = true := by
  have hkinds (n : Node) : n.isCharacter = [Kind.character, .range, .shorthand, .charClass,
      .classExpression, .intersection, .subtraction].contains n.kind := by
    unfold kind
    split <;> rfl
  rw [hkinds] at ha ⊢
  rwa [← h]

section
variable [Properties]

/-- Letters of one number match the same. -/
theorem spans_of_value {y z : Letter} (h : y.value = z.value) (flags : Flags) (x : Input) :
    (character y).spans flags x = (character z).spans flags x := by
  have hset : (character y).charSet? flags = (character z).charSet? flags := by
    rw [charSet?, charSet?, Letter.charSet?, Letter.charSet?, h]
  rw [spans, spans, Input.character, Input.character, hset, mark, mark, h]

/-- Nodes whose sets have the same members match the same. -/
theorem spans_of_mem_iff {a b : Node} {s t : CharSet} (ha : a.isCharacter = true)
    (hb : b.isCharacter = true) (hs : a.charSet? flags = some s) (ht : b.charSet? flags = some t)
    (h : ∀ c, c ∈ s ↔ c ∈ t) : a.spans flags x = b.spans flags x := by
  rw [spans_of_isCharacter ha, spans_of_isCharacter hb, Input.character, Input.character, hs, ht]
  funext i j
  simp only [Input.oneIn, h]

theorem charSet?_character {y : Letter} (h : y.value.isValidChar) : (character y).charSet? flags =
    some ((CharSet.singleton (Char.ofNat y.value)).fold flags) := by
  rw [charSet?, Letter.charSet?, CharSet.ofCode?, if_pos h, Option.map_some]

end

/-- When letters are told equal without looking at sets. -/
theorem sameLetters?_eq_some_true {y z : Letter} :
    Comparison.sameLetters? flags y z = some true ↔ y.value = z.value ∨
      (flags.ignoreCase = true ∧ flags.unicodeMode = false ∧ y.value.isValidChar ∧
        z.value.isValidChar ∧
        Unicode.upper (Char.ofNat y.value) = Unicode.upper (Char.ofNat z.value)) := by
  unfold Comparison.sameLetters?
  split
  · rename_i hvalue
    simp [hvalue]
  · rename_i hvalue
    split
    · rename_i hmode
      simp only [Bool.and_eq_true, Bool.not_eq_true', decide_eq_true_eq] at hmode
      obtain ⟨⟨⟨hcase, hmode⟩, hy⟩, hz⟩ := hmode
      rw [Option.some.injEq, Unicode.sameUpper_iff]
      simp only [hvalue, hcase, hmode, hy, hz, true_and, false_or]
    · rename_i hmode
      refine ⟨nofun, ?_⟩
      rintro (hsame | ⟨hcase, hflags, hy, hz, -⟩)
      · exact absurd hsame hvalue
      · simp [hcase, hflags, hy, hz] at hmode

/-- If letters are compared by upper case: letters of two trees that are equal in it are in one case
class and on the same side of the end of ASCII. Nearly all letters are; but U+A7CE and U+A7CF are
equal in upper case, and no case class has them. -/
def CasesAgree (flags : Flags) (n m : Node) : Prop :=
  flags.ignoreCase = true → flags.unicodeMode = false →
    ∀ y z : Letter, n.HasTerm (character y) → m.HasTerm (character z) →
      y.value.isValidChar → z.value.isValidChar →
      Unicode.upper (Char.ofNat y.value) = Unicode.upper (Char.ofNat z.value) →
      Unicode.SameCase (Char.ofNat y.value) (Char.ofNat z.value) ∧
        (y.value < 0x80 ↔ z.value < 0x80)

theorem CasesAgree.of_hasTerm {n m a b : Node} (h : CasesAgree flags n m) (ha : n.HasTerm a)
    (hb : m.HasTerm b) : CasesAgree flags a b :=
  fun hcase hmode y z hy hz => h hcase hmode y z (ha.trans hy) (hb.trans hz)

/-- Where the case tables agree, letters that are told equal match the same. -/
theorem CasesAgree.spans_eq [Properties] {n m : Node} (h : CasesAgree flags n m) {y z : Letter}
    (hy : n.HasTerm (character y)) (hz : m.HasTerm (character z))
    (hsame : Comparison.sameLetters? flags y z = some true) (x : Input) :
    (character y).spans flags x = (character z).spans flags x := by
  rcases sameLetters?_eq_some_true.1 hsame with hvalue | ⟨hcase, hmode, hyv, hzv, hupper⟩
  · exact spans_of_value hvalue flags x
  · obtain ⟨hclass, hside⟩ := h hcase hmode y z hy hz hyv hzv hupper
    rw [← toNat_ofNat hyv, ← toNat_ofNat hzv] at hside
    exact spans_of_mem_iff rfl rfl (charSet?_character hyv) (charSet?_character hzv)
      (CharSet.mem_fold_singleton hcase hmode hclass hside)

end Node

namespace Comparison

/-! ## Lists -/

section
variable {α : Type} {p : α → Bool} {same : α → α → Bool} {f : α → Span}

theorem perm_of_removeFirst? {ys zs : List α} (h : removeFirst? p ys = some zs) :
    ∃ y, p y = true ∧ ys.Perm (y :: zs) := by
  induction ys generalizing zs with
  | nil => cases h
  | cons y ys ih =>
    rw [removeFirst?] at h
    split at h
    · rename_i hy
      cases h
      exact ⟨y, hy, .refl _⟩
    · obtain ⟨zs, hzs, rfl⟩ := Option.map_eq_some_iff.1 h
      obtain ⟨z, hz, hperm⟩ := ih hzs
      exact ⟨z, hz, (hperm.cons y).trans (.swap z y zs)⟩

/-- In lists that are matched up every member has its like in the other list. -/
theorem oneOf_of_matchUp {xs ys : List α} (h : matchUp same xs ys = true)
    (hsame : ∀ x ∈ xs, ∀ y ∈ ys, same x y = true → f x = f y) :
    Span.oneOf (xs.map f) = Span.oneOf (ys.map f) := by
  induction xs generalizing ys with
  | nil =>
    rw [matchUp, List.isEmpty_iff] at h
    rw [h]
  | cons x xs ih =>
    rw [matchUp] at h
    split at h
    · rename_i zs hzs
      obtain ⟨y, hy, hperm⟩ := perm_of_removeFirst? hzs
      have hmem (z : α) : z ∈ ys ↔ z = y ∨ z ∈ zs := by
        rw [hperm.mem_iff, List.mem_cons]
      have hhead : f x = f y := hsame x (by simp) y ((hmem y).2 (.inl rfl)) hy
      have htail := ih h fun x' hx' z hz => hsame x' (by simp [hx']) z ((hmem z).2 (.inr hz))
      have hys : Span.oneOf (ys.map f) = Span.oneOf (f y :: zs.map f) := by
        apply Span.oneOf_congr
        intro P
        rw [← List.map_cons, (hperm.map f).mem_iff]
      funext i j
      apply propext
      rw [hys, List.map_cons, Span.oneOf_cons, Span.oneOf_cons, htail, hhead]
    · cases h

theorem row_of_pairwise {xs ys : List α} (h : pairwise same xs ys = true)
    (hsame : ∀ x ∈ xs, ∀ y ∈ ys, same x y = true → f x = f y) :
    Span.row (xs.map f) = Span.row (ys.map f) := by
  induction xs generalizing ys with
  | nil =>
    cases ys with
    | nil => rfl
    | cons y ys => cases h
  | cons x xs ih =>
    cases ys with
    | nil => cases h
    | cons y ys =>
      rw [pairwise, Bool.and_eq_true] at h
      have hhead := hsame x (by simp) y (by simp) h.1
      have htail := ih h.2 fun x' hx' y' hy' => hsame x' (by simp [hx']) y' (by simp [hy'])
      rw [List.map_cons, List.map_cons, Span.row_cons, Span.row_cons, hhead, htail]

end

section
variable [Properties]

theorem sameAll_eq_pairwise (c : Comparison) (xs ys : List Node) :
    sameAll c xs ys = pairwise (same c) xs ys := by
  induction xs generalizing ys with
  | nil => cases ys <;> rfl
  | cons x xs ih =>
    cases ys with
    | nil => rfl
    | cons y ys => rw [sameAll, pairwise, ih]

theorem sameSomeOrder_eq_matchUp (c : Comparison) (xs ys : List Node) :
    sameSomeOrder c xs ys = matchUp (same c) xs ys := by
  induction xs generalizing ys with
  | nil => rfl
  | cons x xs ih =>
    rw [sameSomeOrder, matchUp]
    cases removeFirst? (same c x) ys with
    | none => rfl
    | some zs => exact ih zs

theorem sameLetterNodes_eq_same (c : Comparison) (y z : Letter) :
    c.sameLetterNodes y z = same c (.character y) (.character z) := by
  rw [same.eq_def]
  rfl

theorem sameStrings_eq_same (c : Comparison) (xs ys : List Letter) :
    c.sameStrings xs ys = same c (.string xs) (.string ys) := by
  rw [same.eq_def]
  rfl

end

/-! ## Nodes -/

/-- What a comparison relies on, where `p` says which nodes stand on the left and `q` which stand on
the right. -/
structure Faithful [Properties] (c : Comparison) (x : Input) (p q : Node → Prop) : Prop where
  hook : ∀ a b, c.hook a b = none
  left : Node.Hereditary p
  right : Node.Hereditary q
  texts : ∀ a b, p a → q b → c.byText = true ∨ (a.isCharacter = true ∧
      (a.charSet? c.flags = none ∨ b.charSet? c.flags = none)) →
    sameText a b = true → a.spans c.flags x = b.spans c.flags x
  letters : ∀ y z, p (.character y) → q (.character z) → sameLetters? c.flags y z = some true →
    (Node.character y).spans c.flags x = (Node.character z).spans c.flags x
  references : ∀ y z, p (.backreference y) → q (.backreference z) → c.sameReference y z = true →
    x.reference y = x.reference z

variable {c : Comparison} {x : Input} {p q : Node → Prop}

section
variable [Properties]

theorem spans_of_sameSet (hc : c.Faithful x p q) {a b : Node} (ha : p a) (hb : q b)
    (hca : a.isCharacter = true) (hcb : b.isCharacter = true)
    (h : sameSet c.flags a b = true) : a.spans c.flags x = b.spans c.flags x := by
  unfold sameSet at h
  split at h
  · rename_i s t hs ht
    exact Node.spans_of_mem_iff hca hcb hs ht (CharSet.mem_of_same h)
  · rename_i hnone
    refine hc.texts a b ha hb (.inr ⟨hca, ?_⟩) h
    cases hs : a.charSet? c.flags with
    | none => exact .inl rfl
    | some s =>
      cases ht : b.charSet? c.flags with
      | none => exact .inr rfl
      | some t => exact absurd ht (hnone s t hs)

theorem spans_of_sameCharacters (hc : c.Faithful x p q) {a b : Node} (ha : p a) (hb : q b)
    (hca : a.isCharacter = true) (hcb : b.isCharacter = true)
    (h : sameCharacters c.flags a b = true) : a.spans c.flags x = b.spans c.flags x := by
  unfold sameCharacters at h
  split at h
  · rename_i y z
    cases hletters : sameLetters? c.flags y z with
    | some verdict =>
      rw [hletters] at h
      have hverdict : verdict = true := h
      rw [hverdict] at hletters
      exact hc.letters y z ha hb hletters
    | none =>
      rw [hletters] at h
      exact spans_of_sameSet hc ha hb hca hcb h
  · rcases Bool.or_eq_true_iff.1 h with h | h
    · rw [eq_of_beq h]
    · exact spans_of_sameSet hc ha hb hca hcb h
  · exact spans_of_sameSet hc ha hb hca hcb h

theorem spans_of_verdict (hc : c.Faithful x p q) {a b : Node} (ha : p a) (hb : q b)
    {parts : Unit → Bool} (hparts : parts () = true → a.spans c.flags x = b.spans c.flags x)
    (h : c.verdict a b parts = true) : a.spans c.flags x = b.spans c.flags x := by
  unfold verdict at h
  rw [hc.hook] at h
  simp only at h
  split at h
  · rename_i hboth
    rw [Bool.and_eq_true] at hboth
    exact spans_of_sameCharacters hc ha hb hboth.1 hboth.2 h
  · rcases Bool.or_eq_true_iff.1 h with h | h
    · rw [Bool.and_eq_true] at h
      exact hc.texts a b ha hb (.inl h.1) h.2
    · exact hparts h

theorem letters_of_pairwise (hc : c.Faithful x p q) {ys zs : List Letter} (ha : p (.string ys))
    (hb : q (.string zs)) (h : pairwise c.sameLetterNodes ys zs = true) :
    x.letters c.flags ys = x.letters c.flags zs := by
  refine row_of_pairwise h fun y hy z hz hyz => ?_
  have hp : p (.character y) := hc.left _ ha rfl _ (by simpa [Node.children] using hy)
  have hq : q (.character z) := hc.right _ hb rfl _ (by simpa [Node.children] using hz)
  have := spans_of_verdict hc hp hq (fun hparts => by cases hparts) hyz
  rwa [Node.spans, Node.spans] at this

theorem letters_of_sameStrings (hc : c.Faithful x p q) {ys zs : List Letter} (ha : p (.string ys))
    (hb : q (.string zs)) (h : c.sameStrings ys zs = true) :
    x.letters c.flags ys = x.letters c.flags zs := by
  have := spans_of_verdict hc ha hb (fun hparts => by
    rw [Node.spans, Node.spans]
    exact letters_of_pairwise hc ha hb hparts) h
  rwa [Node.spans, Node.spans] at this

theorem row_of_sameAll {xs ys : List Node} (h : sameAll c xs ys = true)
    (hsame : ∀ n ∈ xs, ∀ m ∈ ys, same c n m = true → n.spans c.flags x = m.spans c.flags x) :
    Span.row (Node.spansAll c.flags x xs) = Span.row (Node.spansAll c.flags x ys) := by
  rw [sameAll_eq_pairwise] at h
  rw [Node.spansAll_eq_map, Node.spansAll_eq_map]
  exact row_of_pairwise h hsame

theorem oneOf_of_sameSomeOrder {xs ys : List Node} (h : sameSomeOrder c xs ys = true)
    (hsame : ∀ n ∈ xs, ∀ m ∈ ys, same c n m = true → n.spans c.flags x = m.spans c.flags x) :
    Span.oneOf (Node.spansAll c.flags x xs) = Span.oneOf (Node.spansAll c.flags x ys) := by
  rw [sameSomeOrder_eq_matchUp] at h
  rw [Node.spansAll_eq_map, Node.spansAll_eq_map]
  exact oneOf_of_matchUp h hsame

end

mutual

/-- Nodes that are compared as equal match the same. -/
theorem spans_of_same [Properties]
    (hc : c.Faithful x p q) : (a b : Node) → p a → q b → same c a b = true →
    a.spans c.flags x = b.spans c.flags x
  | .alternative xs, b, ha, hb, h => by
    rw [same.eq_def] at h
    refine spans_of_verdict hc ha hb (fun hparts => ?_) h
    cases b <;> try cases hparts
    rw [Node.spans, Node.spans]
    exact row_of_sameAll hparts fun n hn m hm =>
      spans_of_sameAny hc xs n hn m (hc.left _ ha rfl n hn) (hc.right _ hb rfl m hm)
  | .choice frame xs, b, ha, hb, h => by
    rw [same.eq_def] at h
    refine spans_of_verdict hc ha hb (fun hparts => ?_) h
    cases b with
    | choice frame' ys =>
      have horder : sameSomeOrder c xs ys = true := by
        cases frame <;> cases frame' <;> simp_all
      rw [Node.spans, Node.spans]
      exact oneOf_of_sameSomeOrder horder fun n hn m hm =>
        spans_of_sameAny hc xs n hn m (hc.left _ ha rfl n hn) (hc.right _ hb rfl m hm)
    | _ => cases frame <;> cases hparts
  | .look d negate xs, b, ha, hb, h => by
    rw [same.eq_def] at h
    refine spans_of_verdict hc ha hb (fun hparts => ?_) h
    cases b <;> try cases hparts
    simp only [Bool.and_eq_true, beq_iff_eq] at hparts
    obtain ⟨⟨rfl, rfl⟩, horder⟩ := hparts
    have hsame := oneOf_of_sameSomeOrder horder fun n hn m hm =>
      spans_of_sameAny hc xs n hn m (hc.left _ ha rfl n hn) (hc.right _ hb rfl m hm)
    rw [Node.spans, Node.spans, hsame]
  | .quantifier bounds greedy lexeme a, b, ha, hb, h => by
    rw [same.eq_def] at h
    refine spans_of_verdict hc ha hb (fun hparts => ?_) h
    cases b <;> try cases hparts
    simp only [Bool.and_eq_true, beq_iff_eq] at hparts
    obtain ⟨⟨rfl, rfl⟩, hsame⟩ := hparts
    rw [Node.spans, Node.spans, spans_of_same hc a _ (hc.left _ ha rfl a (by simp [Node.children]))
      (hc.right _ hb rfl _ (by simp [Node.children])) hsame]
  | .edge e, b, ha, hb, h => by
    rw [same.eq_def] at h
    refine spans_of_verdict hc ha hb (fun hparts => ?_) h
    cases b <;> try cases hparts
    rw [eq_of_beq hparts]
  | .backreference ref, b, ha, hb, h => by
    rw [same.eq_def] at h
    refine spans_of_verdict hc ha hb (fun hparts => ?_) h
    cases b <;> try cases hparts
    rw [Node.spans, Node.spans]
    exact hc.references _ _ ha hb hparts
  | .strings xs, b, ha, hb, h => by
    rw [same.eq_def] at h
    refine spans_of_verdict hc ha hb (fun hparts => ?_) h
    cases b <;> try cases hparts
    rw [Node.spans, Node.spans]
    refine oneOf_of_matchUp hparts fun ys hys zs hzs => letters_of_sameStrings hc ?_ ?_
    · exact hc.left _ ha rfl _ (by simpa [Node.children] using hys)
    · exact hc.right _ hb rfl _ (by simpa [Node.children] using hzs)
  | .string xs, b, ha, hb, h => by
    rw [same.eq_def] at h
    refine spans_of_verdict hc ha hb (fun hparts => ?_) h
    cases b <;> try cases hparts
    rw [Node.spans, Node.spans]
    exact letters_of_pairwise hc ha hb hparts
  | .character _, b, ha, hb, h | .range _ _, b, ha, hb, h | .shorthand _, b, ha, hb, h
  | .charClass _ _ _, b, ha, hb, h | .classExpression _ _, b, ha, hb, h
  | .classOperation _ _ _, b, ha, hb, h => by
    rw [same.eq_def] at h
    refine spans_of_verdict hc ha hb (fun hparts => ?_) h
    cases b <;> cases hparts

theorem spans_of_sameAny [Properties]
    (hc : c.Faithful x p q) : (as : List Node) → ∀ a ∈ as, ∀ b, p a → q b →
    same c a b = true → a.spans c.flags x = b.spans c.flags x
  | [] => by simp
  | a :: as => List.forall_mem_cons.2 ⟨spans_of_same hc a, spans_of_sameAny hc as⟩

end

/-- Nodes without references in which every character stands for a set: if they are compared as
equal, part by part and without a hook, they match the same. A node with references is equal to none
without, so that one of the two nodes has none is enough. -/
theorem same_sound [Properties]
    (flags : Flags) (resolve? : Option (GroupRef → Option Nat)) (a b : Node)
    (hreferences : a.hasBackreference = false)
    (hsetsa : ∀ n, a.HasTerm n → n.isCharacter = true → ∃ set, n.charSet? flags = some set)
    (hsetsb : ∀ n, b.HasTerm n → n.isCharacter = true → ∃ set, n.charSet? flags = some set)
    (hcases : a.CasesAgree flags b) (h : same { flags, resolve? } a b = true) (x : Input) :
    a.spans flags x = b.spans flags x := by
  have hfaithful : Faithful { flags, resolve? } x a.HasTerm b.HasTerm := {
    hook := fun _ _ => rfl
    left := Node.hereditary_hasTerm a
    right := Node.hereditary_hasTerm b
    texts := by
      rintro n m hn hm (hbyText | ⟨hcharacter, hnone⟩) hsame
      · cases hbyText
      · simp only [sameText, Bool.and_eq_true, beq_iff_eq] at hsame
        obtain ⟨s, hs⟩ := hsetsa n hn hcharacter
        obtain ⟨t, ht⟩ := hsetsb m hm (Node.isCharacter_of_kind hsame.1.1 hcharacter)
        rcases hnone with hnone | hnone
        · exact nomatch hs.symm.trans hnone
        · exact nomatch ht.symm.trans hnone
    letters := fun _ _ hy hz hsame => hcases.spans_eq hy hz hsame x
    references := by
      intro y _ hy
      exact nomatch Node.hasBackreference_of_hasTerm hreferences hy }
  exact spans_of_same hfaithful a b .self .self h

open Node in
/-- With `i`, `(?:a|\d)` and `(?:[0-9]|A)` are equal and match the same. -/
theorem same_sound_digit :
    let flags : Flags := { ignoreCase := true }
    let lower : Node := character ⟨97, ['a']⟩
    let upper : Node := character ⟨65, ['A']⟩
    let digit : Node := shorthand (.digit false)
    let digits : Node := charClass false false [range ⟨48, ['0']⟩ ⟨57, ['9']⟩]
    let a : Node := choice .plain [alternative [lower], alternative [digit]]
    let b : Node := choice .plain [alternative [digits], alternative [upper]]
    same { flags } a b = true ∧ ∀ x : Input, a.spans flags x = b.spans flags x := by
  intro flags lower upper digit digits a b
  have hsame : same { flags } a b = true := by decide +kernel
  have hrow {leaf n : Node} (hleaf : leaf.isCharacter = true)
      (h : (alternative [leaf]).HasTerm n) (hn : n.isCharacter = true) : n = leaf := by
    rcases hasTerm_iff.1 h with rfl | ⟨-, c, hc, h⟩
    · cases hn
    · rw [List.mem_singleton.1 hc] at h
      rcases hasTerm_iff.1 h with rfl | ⟨hno, -⟩
      · rfl
      · exact nomatch hleaf.symm.trans hno
  have hgroup {l m n : Node} (hl : l.isCharacter = true) (hm : m.isCharacter = true)
      (h : (choice .plain [alternative [l], alternative [m]]).HasTerm n)
      (hn : n.isCharacter = true) : n = l ∨ n = m := by
    rcases hasTerm_iff.1 h with rfl | ⟨-, c, hc, h⟩
    · cases hn
    · rcases List.mem_pair.1 hc with rfl | rfl
      · exact .inl (hrow hl h hn)
      · exact .inr (hrow hm h hn)
  refine ⟨hsame, same_sound flags none a b rfl (fun n hn hc => ?_) (fun n hn hc => ?_) ?_ hsame⟩
  · rcases hgroup rfl rfl hn hc with rfl | rfl
    · exact ⟨_, rfl⟩
    · exact ⟨_, rfl⟩
  · rcases hgroup rfl rfl hn hc with rfl | rfl
    · exact ⟨_, rfl⟩
    · exact ⟨_, rfl⟩
  · intro _ _ y z hy hz _ _ _
    rcases hgroup rfl rfl hy rfl with hy | hy
    · rcases hgroup rfl rfl hz rfl with hz | hz
      · exact nomatch (hz : _ = charClass _ _ _)
      · obtain rfl := character.inj (hy : _ = character _)
        obtain rfl := character.inj (hz : _ = character _)
        have hclass : [0x41, 0x61] ∈ Unicode.classes := by decide +kernel
        exact ⟨.inr ⟨_, hclass, by decide, by decide⟩, by decide⟩
    · exact nomatch (hy : _ = shorthand _)

end Comparison

end RegexAudit
