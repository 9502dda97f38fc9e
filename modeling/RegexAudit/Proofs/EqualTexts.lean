import RegexAudit.CharSet.KnownProperties
import RegexAudit.Proofs.Contexts
import RegexAudit.Proofs.Symmetry

/-!
# Equal texts

A comparison of two nodes without references takes parts of one kind with one text for equal at
once. In patterns that agree on `u` and `v` this changes no verdict:

    equal { flags, resolve? } a b = same { flags, resolve? } a b              (equal_eq_same)

where the right side compares part by part only. Such parts are the same up to the numbers of groups
(`Regex.unnumbered_eq`), and those numbers are not compared (`same_of_unnumbered`). So a pair that is
decided by its text would have been decided the same way by its parts, at every level
(`same_byText`).

Without the agreement the shortcut is wrong in both directions (`equal_ne_same`), because a pair too
many can take away the partner of another alternative.
-/

namespace RegexAudit

namespace Comparison

variable {c : Comparison}

/-! ## Numbers of groups -/

theorem sameAll_unnumbered [Properties]
    {xs : List Node} (hsame : ∀ x ∈ xs, same c x.unnumbered = same c x)
    (ys : List Node) : sameAll c (Node.unnumberedAll xs) ys = sameAll c xs ys := by
  induction xs generalizing ys with
  | nil => rfl
  | cons x xs ih =>
    rw [List.forall_mem_cons] at hsame
    cases ys with
    | nil => rfl
    | cons y ys => rw [Node.unnumberedAll, sameAll, sameAll, hsame.1, ih hsame.2]

theorem sameSomeOrder_unnumbered [Properties] {xs : List Node}
    (hsame : ∀ x ∈ xs, same c x.unnumbered = same c x) (ys : List Node) :
    sameSomeOrder c (Node.unnumberedAll xs) ys = sameSomeOrder c xs ys := by
  induction xs generalizing ys with
  | nil => rfl
  | cons x xs ih =>
    rw [List.forall_mem_cons] at hsame
    rw [Node.unnumberedAll, sameSomeOrder, sameSomeOrder, hsame.1]
    cases removeFirst? (same c x) ys with
    | none => rfl
    | some zs => exact ih hsame.2 zs

theorem sameText_unnumbered (n m : Node) : sameText n.unnumbered m = sameText n m := by
  have hkind : n.unnumbered.kind = n.kind := by
    cases n with
    | choice frame _ => cases frame <;> rfl
    | _ => rfl
  rw [sameText, sameText, hkind, Node.width_eq, Node.width_eq n, Node.text_unnumbered]

section
variable [Properties]

theorem verdict_unnumbered (h : ∀ x y, c.hook x y = none) {n m : Node}
    (hcharacter : n.isCharacter = false) (hcharacter' : n.unnumbered.isCharacter = false)
    {parts parts' : Unit → Bool} (hparts : parts () = parts' ()) :
    c.verdict n.unnumbered m parts = c.verdict n m parts' := by
  simp only [verdict, h, hcharacter, hcharacter', sameText_unnumbered, hparts, Bool.false_and,
    Bool.false_eq_true, if_false]

/-- The numbers of groups are not compared. -/
theorem same_unnumbered (h : ∀ x y, c.hook x y = none) (n m : Node) :
    same c n.unnumbered m = same c n m := by
  induction n using Node.induction_on_children generalizing m with
  | h n ih =>
    have hsame : ∀ x ∈ n.children, same c x.unnumbered = same c x := fun x hx => funext (ih x hx)
    cases n with
    | alternative xs =>
      rw [same.eq_def, same.eq_def c (.alternative xs)]
      refine verdict_unnumbered h rfl rfl ?_
      cases m <;> try rfl
      exact sameAll_unnumbered hsame _
    | choice frame xs =>
      rw [same.eq_def, same.eq_def c (.choice frame xs)]
      refine verdict_unnumbered h rfl rfl ?_
      cases m with
      | choice frame' ys =>
        have horder : sameSomeOrder c (Node.unnumberedAll xs) ys = sameSomeOrder c xs ys :=
          sameSomeOrder_unnumbered hsame ys
        rw [Node.unnumbered]
        cases frame <;> cases frame' <;> simp [Frame.unnumbered, horder]
      | _ => cases frame <;> rfl
    | look d negate xs =>
      rw [same.eq_def, same.eq_def c (.look d negate xs)]
      refine verdict_unnumbered h rfl rfl ?_
      cases m <;> try rfl
      exact congrArg (fun order => d == _ && negate == _ && order) (sameSomeOrder_unnumbered hsame _)
    | quantifier bounds greedy lexeme x =>
      rw [same.eq_def, same.eq_def c (.quantifier bounds greedy lexeme x)]
      refine verdict_unnumbered h rfl rfl ?_
      cases m <;> try rfl
      exact congrArg (fun verdict => bounds == _ && greedy == _ && verdict)
        (ih x (List.mem_singleton_self x) _)
    | _ => rfl

/-- Nodes without references that differ in the numbers of groups only are equal. -/
theorem same_of_unnumbered (h : ∀ x y, c.hook x y = none) {a b : Node}
    (hnone : b.hasBackreference = false) (hsame : a.unnumbered = b.unnumbered) :
    same c a b = true := by
  rw [← same_unnumbered h, hsame, same_unnumbered h]
  exact same_refl h b fun ref href => nomatch Node.hasBackreference_of_hasTerm hnone href

end

/-! ## Comparing without texts -/

section
variable [Properties] {flags : Flags} {resolve? : Option (GroupRef → Option Nat)}

theorem verdict_byText {a b : Node} {parts parts' : Unit → Bool} (hparts : parts () = parts' ())
    (htext : sameText a b = true → verdict { flags, resolve? } a b parts' = true) :
    verdict { flags, resolve?, byText := true } a b parts
      = verdict { flags, resolve? } a b parts' := by
  cases hsame : sameText a b with
  | true =>
    rw [htext hsame]
    have hverdict := htext hsame
    unfold verdict at hverdict ⊢
    cases hcharacter : a.isCharacter && b.isCharacter with
    | true => rwa [hcharacter] at hverdict
    | false => rw [hsame]; rfl
  | false =>
    unfold verdict
    rw [hsame, hparts]
    rfl

/-- If nodes with equal texts are equal part by part, texts need not be looked at. -/
theorem same_byText {a b : Node}
    (htext : ∀ n m, a.HasTerm n → b.HasTerm m → sameText n m = true →
      same { flags, resolve? } n m = true) :
    same { flags, resolve?, byText := true } a b = same { flags, resolve? } a b := by
  induction a using Node.induction_on_children generalizing b with
  | h a ih =>
    -- a child of each
    have hchild (ha : a.isCharacter = false) (hb : b.isCharacter = false) :
        ∀ x ∈ a.children, ∀ y ∈ b.children,
          same { flags, resolve?, byText := true } x y = same { flags, resolve? } x y :=
      fun x hx y hy => ih x hx fun n m hn hm =>
        htext n m ((Node.HasTerm.self.child ha hx).trans hn) ((Node.HasTerm.self.child hb hy).trans hm)
    have hself := htext a b .self .self
    rw [same.eq_def] at hself ⊢
    rw [same.eq_def]
    refine verdict_byText ?_ hself
    split
    · rw [sameAll_eq_pairwise, sameAll_eq_pairwise]
      exact pairwise_congr (hchild rfl rfl)
    · rw [sameSomeOrder_eq_matchUp, sameSomeOrder_eq_matchUp]
      exact matchUp_congr (hchild rfl rfl)
    · rw [sameSomeOrder_eq_matchUp, sameSomeOrder_eq_matchUp]
      exact matchUp_congr (hchild rfl rfl)
    · rw [sameSomeOrder_eq_matchUp, sameSomeOrder_eq_matchUp]
      exact congrArg _ (matchUp_congr (hchild rfl rfl))
    · rw [sameSomeOrder_eq_matchUp, sameSomeOrder_eq_matchUp]
      exact congrArg _ (matchUp_congr (hchild rfl rfl))
    · exact congrArg _ (hchild rfl rfl _ (List.mem_singleton_self _) _ (List.mem_singleton_self _))
    · rfl
    · rfl
    · refine matchUp_congr fun xs hxs ys hys => ?_
      rw [sameStrings_eq_same, sameStrings_eq_same]
      exact hchild rfl rfl _ (List.mem_map_of_mem hxs) _ (List.mem_map_of_mem hys)
    · rfl
    · rfl

end

/-! ## Parts of parsed patterns -/

section
variable {source₁ source₂ : List Char} {flags₁ flags₂ : Flags} {r₁ r₂ : Regex}

section
variable [Properties]

/-- Parts without references of one kind with one text are equal part by part. -/
theorem same_of_sameText (h₁ : Regex.parse source₁ flags₁ = .ok r₁)
    (h₂ : Regex.parse source₂ flags₂ = .ok r₂) (hu : flags₁.unicode = flags₂.unicode)
    (hv : flags₁.unicodeSets = flags₂.unicodeSets) {n m : Node} (hn : r₁.root.HasPart n)
    (hm : r₂.root.HasPart m) (hnone₁ : n.hasBackreference = false)
    (hnone₂ : m.hasBackreference = false) (h : ∀ x y, c.hook x y = none)
    (htext : sameText n m = true) : same c n m = true := by
  simp only [sameText, Bool.and_eq_true, beq_iff_eq] at htext
  obtain ⟨⟨hkind, -⟩, htext⟩ := htext
  exact same_of_unnumbered h hnone₂
    (Regex.unnumbered_eq h₁ h₂ hu hv hn hm hkind htext hnone₁ hnone₂)

theorem equal_eq_same_of_hasPart (h₁ : Regex.parse source₁ flags₁ = .ok r₁)
    (h₂ : Regex.parse source₂ flags₂ = .ok r₂) {a b : Node} (ha : r₁.root.HasPart a)
    (hb : r₂.root.HasPart b)
    (hflags : a.hasBackreference = false → b.hasBackreference = false →
      flags₁.unicode = flags₂.unicode ∧ flags₁.unicodeSets = flags₂.unicodeSets)
    (flags : Flags) (resolve? : Option (GroupRef → Option Nat)) :
    equal { flags, resolve? } a b = same { flags, resolve? } a b := by
  unfold equal
  cases hnone₁ : a.hasBackreference with
  | true => rfl
  | false =>
    cases hnone₂ : b.hasBackreference with
    | true => rfl
    | false =>
      obtain ⟨hu, hv⟩ := hflags hnone₁ hnone₂
      -- the parts of a part are parts of the whole pattern
      have hparts₁ : a.Throughout r₁.root.HasPart := Node.throughout_of_hasPart (fun _ => id) ha
      have hparts₂ : b.Throughout r₂.root.HasPart := Node.throughout_of_hasPart (fun _ => id) hb
      refine same_byText fun n m hn hm => ?_
      exact same_of_sameText h₁ h₂ hu hv (hparts₁ n hn.hasPart) (hparts₂ m hm.hasPart)
        (Node.hasBackreference_of_hasTerm hnone₁ hn) (Node.hasBackreference_of_hasTerm hnone₂ hm)
        fun _ _ => rfl

/-- For parts of patterns that agree on `u` and `v`, looking at texts first changes no verdict; for
parts with references it never does. -/
theorem equal_eq_same (h₁ : Regex.parse source₁ flags₁ = .ok r₁)
    (h₂ : Regex.parse source₂ flags₂ = .ok r₂) {p₁ p₂ : Place} (hp₁ : p₁ ∈ r₁.walk)
    (hp₂ : p₂ ∈ r₂.walk)
    (hflags : p₁.node.hasBackreference = false → p₂.node.hasBackreference = false →
      flags₁.unicode = flags₂.unicode ∧ flags₁.unicodeSets = flags₂.unicodeSets)
    (flags : Flags) (resolve? : Option (GroupRef → Option Nat)) :
    equal { flags, resolve? } p₁.node p₂.node = same { flags, resolve? } p₁.node p₂.node :=
  equal_eq_same_of_hasPart h₁ h₂ (Node.hasPart_of_mem_walk hp₁) (Node.hasPart_of_mem_walk hp₂)
    hflags flags resolve?

end

open Node in
/-- The alternatives of `b|(a)` and `(a)|b` are paired by their texts, and they are equal part by
part, too. -/
theorem equal_eq_same_swapped :
    let group : Node := choice (.capture 1 none) [alternative [character ⟨97, ['a']⟩]]
    let letter : Node := alternative [character ⟨98, ['b']⟩]
    let r₁ : Regex := ⟨['b', '|', '(', 'a', ')'], { ignoreCase := true },
      choice .whole [letter, alternative [group]]⟩
    let r₂ : Regex := ⟨['(', 'a', ')', '|', 'b'], .empty,
      choice .whole [alternative [group], letter]⟩
    Regex.parse r₁.source r₁.flags = .ok r₁ ∧ Regex.parse r₂.source r₂.flags = .ok r₂ ∧
      equal { flags := {} } r₁.root r₂.root = true ∧
      same { flags := {} } r₁.root r₂.root = true := by
  intro group letter r₁ r₂
  have h₁ : Regex.parse r₁.source r₁.flags = .ok r₁ := rfl
  have h₂ : Regex.parse r₂.source r₂.flags = .ok r₂ := rfl
  have hequal : equal { flags := {} } r₁.root r₂.root = true := by decide +kernel
  refine ⟨h₁, h₂, hequal, ?_⟩
  rw [← hequal]
  have hroot₁ : ⟨r₁.root, 0, 0, []⟩ ∈ r₁.walk := List.mem_cons_self
  have hroot₂ : ⟨r₂.root, 0, 0, []⟩ ∈ r₂.walk := List.mem_cons_self
  exact (equal_eq_same h₁ h₂ hroot₁ hroot₂ (fun _ _ => ⟨rfl, rfl⟩) {} none).symm

open Node in
/-- With `u`, `\u{2}` is the letter of number 2, without `u` two letters `u`. So the texts of two
groups `(?:\u{2})` are equal and the groups are not. And all alternatives of `\u{2}|u{2}` and
`\u{2}|\x02` find their likes, but texts pair the first ones. -/
theorem equal_ne_same :
    let braces : List Char := ['\x7b', '2', '\x7d']
    let coded : List Char := ['\\', 'u'] ++ braces
    let hex : List Char := ['\\', 'x', '0', '2']
    let row (n : Node) : Node := alternative [n]
    let code (lexeme : List Char) : Node := row (character ⟨2, lexeme⟩)
    let twice (lexeme : List Char) : Node :=
      row (quantifier ⟨2, some 2, fun _ h => (Option.some.inj h).le⟩ true braces
        (character ⟨117, lexeme⟩))
    let group (n : Node) : Node := choice .whole [row (choice .plain [n])]
    let either (n m : Node) : Node := choice .whole [n, m]
    let parses (flags : Flags) (n : Node) : Prop := Regex.parse n.text flags = .ok ⟨n.text, flags, n⟩
    let a := group (code coded)
    let b := group (twice ['\\', 'u'])
    let a' := either (code coded) (twice ['u'])
    let b' := either (twice ['\\', 'u']) (code hex)
    (parses { unicode := true } a ∧ parses {} b ∧ equal { flags := {} } a b = true ∧
      same { flags := {} } a b = false) ∧
    (parses { unicode := true } a' ∧ parses {} b' ∧ equal { flags := {} } a' b' = false ∧
      same { flags := {} } a' b' = true) := by
  intro braces coded hex row code twice group either parses a b a' b'
  refine ⟨⟨rfl, rfl, ?_, ?_⟩, rfl, rfl, ?_, ?_⟩
  all_goals decide +kernel

end

end Comparison

end RegexAudit
