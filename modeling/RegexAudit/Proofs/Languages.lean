import Mathlib.Computability.Language
import RegexAudit.Proofs.Equality

/-!
# Languages of nodes

The language of a node are the texts that it matches from their beginning to their end:

    n.language flags = {w | n.spans flags (.ofText w) 0 w.length}

Where no assertion and no reference stands in a node (`Node.Regular`), it does not matter what is
around the stretch that is matched, and the language is put together from those of the children:

    n.spans flags x i j ↔ ∃ w ∈ n.language flags, w <+: x.text.drop i ∧ j = i + w.length   (reads)

A row is a product of languages, a choice a sum and a repetition a union of powers.
-/

namespace RegexAudit

/-! ## Reading a language -/

/-- What is matched from a position on is a text of the language, whatever the input is. -/
def Span.Reads (P : Input → Span) (L : Language Char) : Prop :=
  ∀ x i j, P x i j ↔ ∃ w ∈ L, w <+: x.text.drop i ∧ j = i + w.length

/-- The texts of a language one after the other, at least `least` and at most `most` of them. -/
def repetitions (least : Nat) (most : Option Nat) (L : Language Char) : Language Char :=
  {w | ∃ k, least ≤ k ∧ (∀ m, most = some m → k ≤ m) ∧ w ∈ L ^ k}

theorem exists_mem_prod {Ls : List (Language Char)} (h : ∀ L ∈ Ls, ∃ w, w ∈ L) :
    ∃ w, w ∈ Ls.prod := by
  induction Ls with
  | nil => exact ⟨[], Language.nil_mem_one⟩
  | cons L Ls ih =>
    rw [List.forall_mem_cons] at h
    obtain ⟨u, hu⟩ := h.1
    obtain ⟨v, hv⟩ := ih h.2
    exact ⟨u ++ v, Language.append_mem_mul hu hv⟩

theorem mem_sum {Ls : List (Language Char)} {w : List Char} :
    w ∈ Ls.sum ↔ ∃ L ∈ Ls, w ∈ L := by
  induction Ls with
  | nil => simp
  | cons L Ls ih => rw [List.sum_cons, Language.mem_add, ih, List.exists_mem_cons_iff]

/-- One text again and again. -/
theorem flatten_replicate_mem_pow {L : Language Char} {w : List Char} (hw : w ∈ L) (k : Nat) :
    (List.replicate k w).flatten ∈ L ^ k := by
  refine Language.mem_pow.2 ⟨_, rfl, List.length_replicate, fun u hu => ?_⟩
  rwa [List.eq_of_mem_replicate hu]

namespace Span

section
variable {P Q : Input → Span} {L M : Language Char}

theorem reads_empty : Reads (fun _ => empty) 1 := by
  intro x i j
  constructor
  · rintro rfl
    exact ⟨[], Language.nil_mem_one, List.nil_prefix, rfl⟩
  · rintro ⟨w, hw, -, rfl⟩
    rw [(Language.mem_one w).1 hw]
    rfl

theorem reads_oneIn (set : CharSet) : Reads (fun x => x.oneIn set) {w | ∃ c ∈ set, w = [c]} := by
  intro x i j
  have hhead (c : Char) : [c] <+: x.text.drop i ↔ x.text[i]? = some c := by
    rw [← List.head?_drop]
    cases x.text.drop i with
    | nil => simp
    | cons a rest => simp [eq_comm]
  constructor
  · rintro ⟨rfl, c, hc, htext⟩
    exact ⟨[c], ⟨c, hc, rfl⟩, (hhead c).2 htext, rfl⟩
  · rintro ⟨w, ⟨c, hc, rfl⟩, hprefix, rfl⟩
    exact ⟨rfl, c, hc, (hhead c).1 hprefix⟩

theorem Reads.andThen (hP : Reads P L) (hQ : Reads Q M) :
    Reads (fun x => (P x).andThen (Q x)) (L * M) := by
  intro x i j
  constructor
  · rintro ⟨k, hik, hkj⟩
    obtain ⟨u, hu, ⟨rest, hrest⟩, rfl⟩ := (hP x i k).1 hik
    obtain ⟨v, hv, hprefix, rfl⟩ := (hQ x _ j).1 hkj
    have hdrop : x.text.drop (i + u.length) = rest := by
      rw [← List.drop_drop, ← hrest, List.drop_left]
    rw [hdrop] at hprefix
    refine ⟨u ++ v, Language.append_mem_mul hu hv, ?_, by rw [List.length_append, Nat.add_assoc]⟩
    rw [← hrest]
    exact (List.prefix_append_right_inj u).2 hprefix
  · rintro ⟨w, hw, ⟨rest, hrest⟩, rfl⟩
    obtain ⟨u, hu, v, hv, rfl⟩ := Language.mem_mul.1 hw
    rw [List.append_assoc] at hrest
    have hdrop : x.text.drop (i + u.length) = v ++ rest := by
      rw [← List.drop_drop, ← hrest, List.drop_left]
    refine ⟨i + u.length, (hP x i _).2 ⟨u, hu, ⟨v ++ rest, hrest⟩, rfl⟩, (hQ x _ _).2 ?_⟩
    refine ⟨v, hv, ⟨rest, hdrop.symm⟩, by rw [List.length_append, Nat.add_assoc]⟩

theorem Reads.power (hP : Reads P L) (k : Nat) : Reads (fun x => (P x).power k) (L ^ k) := by
  induction k with
  | zero =>
    rw [pow_zero]
    exact reads_empty
  | succ k ih =>
    rw [pow_succ']
    exact hP.andThen ih

theorem Reads.repeated (hP : Reads P L) (least : Nat) (most : Option Nat) :
    Reads (fun x => repeated least most (P x)) (repetitions least most L) := by
  intro x i j
  constructor
  · rintro ⟨k, hleast, hmost, hij⟩
    obtain ⟨w, hw, hprefix, rfl⟩ := (hP.power k x i j).1 hij
    exact ⟨w, ⟨k, hleast, hmost, hw⟩, hprefix, rfl⟩
  · rintro ⟨w, ⟨k, hleast, hmost, hw⟩, hprefix, rfl⟩
    exact ⟨k, hleast, hmost, (hP.power k x i _).2 ⟨w, hw, hprefix, rfl⟩⟩

end

section
variable {α : Type} {P : α → Input → Span} {L : α → Language Char} {parts : List α}

theorem reads_row (h : ∀ a ∈ parts, Reads (P a) (L a)) :
    Reads (fun x => row (parts.map fun a => P a x)) (parts.map L).prod := by
  induction parts with
  | nil => exact reads_empty
  | cons a parts ih =>
    rw [List.forall_mem_cons] at h
    rw [List.map_cons, List.prod_cons]
    exact h.1.andThen (ih h.2)

theorem reads_oneOf (h : ∀ a ∈ parts, Reads (P a) (L a)) :
    Reads (fun x => oneOf (parts.map fun a => P a x)) (parts.map L).sum := by
  induction parts with
  | nil =>
    intro x i j
    constructor
    · rintro ⟨R, hR, -⟩
      cases hR
    · rintro ⟨w, hw, -⟩
      cases hw
  | cons a parts ih =>
    rw [List.forall_mem_cons] at h
    intro x i j
    have hmore : oneOf (parts.map fun a => P a x) i j ↔ _ := ih h.2 x i j
    show oneOf (P a x :: parts.map fun a => P a x) i j ↔ _
    rw [oneOf_cons, h.1 x i j, hmore, List.map_cons, List.sum_cons]
    simp only [Language.mem_add, or_and_right, exists_or]

end

end Span

/-! ## Languages -/

variable [Properties]

namespace Node

/-- The texts that a node matches as a whole. -/
def language (flags : Flags) (n : Node) : Language Char :=
  {w | n.spans flags (.ofText w) 0 w.length}

section
variable {flags : Flags}

/-- A language that a node reads is its language. -/
theorem language_eq {n : Node} {L : Language Char}
    (h : Span.Reads (fun x => n.spans flags x) L) : n.language flags = L := by
  ext w
  constructor
  · intro hw
    obtain ⟨u, hu, hprefix, hlength⟩ := (h (.ofText w) 0 w.length).1 hw
    rw [Nat.zero_add] at hlength
    have heq : u = w := hprefix.eq_of_length hlength.symm
    rwa [← heq]
  · intro hw
    refine (h (.ofText w) 0 w.length).2 ⟨w, hw, ?_, (Nat.zero_add _).symm⟩
    rw [List.drop_zero]
    exact List.prefix_refl w

theorem reads_alternative {elements : List Node}
    (h : ∀ n ∈ elements, Span.Reads (fun x => n.spans flags x) (n.language flags)) :
    Span.Reads (fun x => (alternative elements).spans flags x)
      (elements.map (language flags)).prod := by
  simp only [spans, spansAll_eq_map]
  exact Span.reads_row h

theorem reads_choice {frame : Frame} {alternatives : List Node}
    (h : ∀ n ∈ alternatives, Span.Reads (fun x => n.spans flags x) (n.language flags)) :
    Span.Reads (fun x => (choice frame alternatives).spans flags x)
      (alternatives.map (language flags)).sum := by
  simp only [spans, spansAll_eq_map]
  exact Span.reads_oneOf h

theorem reads_quantifier {bounds : Bounds} {greedy : Bool} {lexeme : List Char} {element : Node}
    (h : Span.Reads (fun x => element.spans flags x) (element.language flags)) :
    Span.Reads (fun x => (quantifier bounds greedy lexeme element).spans flags x)
      (repetitions bounds.min bounds.max (element.language flags)) := by
  simp only [spans]
  exact h.repeated bounds.min bounds.max

theorem reads_string {letters : List Letter}
    (h : ∀ n ∈ letters.map character, Span.Reads (fun x => n.spans flags x) (n.language flags)) :
    Span.Reads (fun x => (string letters).spans flags x)
      ((letters.map character).map (language flags)).prod := by
  rw [List.forall_mem_map] at h
  simp only [spans, Input.letters, List.map_map]
  exact Span.reads_row h

theorem reads_strings {alternatives : List (List Letter)}
    (h : ∀ n ∈ alternatives.map string, Span.Reads (fun x => n.spans flags x) (n.language flags)) :
    Span.Reads (fun x => (strings alternatives).spans flags x)
      ((alternatives.map string).map (language flags)).sum := by
  rw [List.forall_mem_map] at h
  simp only [spans, List.map_map]
  exact Span.reads_oneOf h

theorem reads_set {n : Node} {set : CharSet} (hn : n.isCharacter = true)
    (hset : n.charSet? flags = some set) :
    Span.Reads (fun x => n.spans flags x) {w | ∃ c ∈ set, w = [c]} := by
  simp only [spans_of_isCharacter hn, Input.character, hset]
  exact Span.reads_oneIn set

end

/-! ## Nodes without assertions and references -/

/-- The node is made of characters that stand for sets with members, in rows, choices and
repetitions. -/
structure Regular (flags : Flags) (n : Node) : Prop where
  kinds : ∀ m, n.HasTerm m → m.kind ≠ .assertion ∧ m.kind ≠ .backreference
  /-- The sets lose nothing if they are intersected with everything. -/
  sets : ∀ m, n.HasTerm m → m.isCharacter = true →
    ∃ set, m.charSet? flags = some set ∧ (∃ c, c ∈ set) ∧ ∀ c, c ∈ set.meet .all ↔ c ∈ set
  filled : ∀ m, n.HasTerm m → m.category = .choice → m.children ≠ []

namespace Regular

variable {flags : Flags} {n : Node}

theorem child (h : n.Regular flags) (hn : n.isCharacter = false) {c : Node}
    (hc : c ∈ n.children) : c.Regular flags := by
  have hterm {m : Node} (hm : c.HasTerm m) : n.HasTerm m := (HasTerm.self.child hn hc).trans hm
  exact ⟨fun m hm => h.kinds m (hterm hm), fun m hm => h.sets m (hterm hm),
    fun m hm => h.filled m (hterm hm)⟩

/-- Induction on nodes without assertions and references. -/
theorem induct {p : Node → Prop}
    (character : ∀ {n set}, n.isCharacter = true → n.charSet? flags = some set →
      (∃ c, c ∈ set) → (∀ c, c ∈ set.meet .all ↔ c ∈ set) → p n)
    (alternative : ∀ {elements}, (alternative elements).Regular flags →
      (∀ c ∈ elements, p c) → p (alternative elements))
    (choice : ∀ {frame alternatives}, (choice frame alternatives).Regular flags →
      (∀ c ∈ alternatives, p c) → p (choice frame alternatives))
    (quantifier : ∀ {bounds greedy lexeme element},
      (quantifier bounds greedy lexeme element).Regular flags → p element →
      p (quantifier bounds greedy lexeme element))
    (string : ∀ {letters}, (string letters).Regular flags →
      (∀ c ∈ letters.map Node.character, p c) → p (string letters))
    (strings : ∀ {alternatives}, (strings alternatives).Regular flags →
      (∀ c ∈ alternatives.map Node.string, p c) → p (strings alternatives))
    (h : n.Regular flags) : p n := by
  induction n using induction_on_children with
  | h n ih =>
    cases hn : n.isCharacter with
    | true =>
      obtain ⟨set, hset, hmember, hmeet⟩ := h.sets n .self hn
      exact character hn hset hmember hmeet
    | false =>
      have hchildren : ∀ c ∈ n.children, p c := fun c hc => ih c hc (h.child hn hc)
      obtain ⟨hassertion, hreference⟩ := h.kinds n .self
      cases n with
      | alternative elements => exact alternative h hchildren
      | choice frame alternatives => exact choice h hchildren
      | quantifier bounds greedy lexeme element =>
        exact quantifier h (hchildren element (List.mem_singleton_self _))
      | string letters => exact string h hchildren
      | strings alternatives => exact strings h hchildren
      | look _ _ _ | edge _ => exact absurd rfl hassertion
      | backreference _ => exact absurd rfl hreference
      | character _ | range _ _ | shorthand _ | charClass _ _ _ | classExpression _ _
      | classOperation _ _ _ => cases hn

/-- What is matched at a place is a text of the language. -/
theorem reads (h : n.Regular flags) :
    Span.Reads (fun x => n.spans flags x) (n.language flags) := by
  have hself {n : Node} {L : Language Char} (hL : Span.Reads (fun x => n.spans flags x) L) :
      Span.Reads (fun x => n.spans flags x) (n.language flags) := by
    rwa [language_eq hL]
  refine induct (p := fun n => Span.Reads (fun x => n.spans flags x) (n.language flags))
    ?_ ?_ ?_ ?_ ?_ ?_ h
  · intro n set hn hset _ _
    exact hself (reads_set hn hset)
  · intro elements _ ih
    exact hself (reads_alternative ih)
  · intro frame alternatives _ ih
    exact hself (reads_choice ih)
  · intro bounds greedy lexeme element _ ih
    exact hself (reads_quantifier ih)
  · intro letters _ ih
    exact hself (reads_string ih)
  · intro alternatives _ ih
    exact hself (reads_strings ih)

theorem language_alternative {elements : List Node} (h : (alternative elements).Regular flags) :
    (alternative elements).language flags = (elements.map (language flags)).prod :=
  language_eq (reads_alternative fun _ hc => (h.child rfl hc).reads)

theorem language_choice {frame : Frame} {alternatives : List Node}
    (h : (choice frame alternatives).Regular flags) :
    (choice frame alternatives).language flags = (alternatives.map (language flags)).sum :=
  language_eq (reads_choice fun _ hc => (h.child rfl hc).reads)

theorem language_quantifier {bounds : Bounds} {greedy : Bool} {lexeme : List Char}
    {element : Node} (h : (quantifier bounds greedy lexeme element).Regular flags) :
    (quantifier bounds greedy lexeme element).language flags =
      repetitions bounds.min bounds.max (element.language flags) :=
  language_eq (reads_quantifier (h.child rfl (List.mem_singleton_self _)).reads)

theorem language_string {letters : List Letter} (h : (string letters).Regular flags) :
    (string letters).language flags = ((letters.map character).map (language flags)).prod :=
  language_eq (reads_string fun _ hc => (h.child rfl hc).reads)

theorem language_strings {alternatives : List (List Letter)}
    (h : (strings alternatives).Regular flags) :
    (strings alternatives).language flags = ((alternatives.map string).map (language flags)).sum :=
  language_eq (reads_strings fun _ hc => (h.child rfl hc).reads)

/-- Some text is matched. -/
theorem inhabited (h : n.Regular flags) : ∃ w, w ∈ n.language flags := by
  have hsome {ns : List Node} (hne : ns ≠ []) (hns : ∀ c ∈ ns, ∃ w, w ∈ c.language flags) :
      ∃ w, w ∈ (ns.map (language flags)).sum := by
    obtain ⟨c, hc⟩ := List.exists_mem_of_ne_nil ns hne
    obtain ⟨w, hw⟩ := hns c hc
    exact ⟨w, mem_sum.2 ⟨_, List.mem_map_of_mem hc, hw⟩⟩
  refine induct (p := fun n => ∃ w, w ∈ n.language flags) ?_ ?_ ?_ ?_ ?_ ?_ h
  · rintro n set hn hset ⟨c, hc⟩ -
    rw [language_eq (reads_set hn hset)]
    exact ⟨[c], c, hc, rfl⟩
  · intro elements h ih
    rw [h.language_alternative]
    exact exists_mem_prod (List.forall_mem_map.2 ih)
  · intro frame alternatives h ih
    rw [h.language_choice]
    exact hsome (h.filled _ .self rfl) ih
  · rintro bounds greedy lexeme element h ⟨w, hw⟩
    rw [h.language_quantifier]
    exact ⟨_, bounds.min, Nat.le_refl _, bounds.ordered, flatten_replicate_mem_pow hw _⟩
  · intro letters h ih
    rw [h.language_string]
    exact exists_mem_prod (List.forall_mem_map.2 ih)
  · intro alternatives h ih
    rw [h.language_strings]
    exact hsome (h.filled _ .self rfl) ih

end Regular

end Node

end RegexAudit
