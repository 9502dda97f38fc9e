import RegexAudit.Proofs.Equality

/-!
# Comparisons are symmetric and reflexive

The order of two nodes does not matter to a comparison whose hook is symmetric, and without a hook
every node is equal to itself, if its references lead somewhere:

    (∀ x y, c.hook x y = c.hook y x) → c.equal a b = c.equal b a

Symmetry has nothing to do with equivalence: letters may be equal by upper case and have different
sets, so a comparison need not be transitive. What carries it is a property of matching up. Whoever
chooses first, the head of a list goes to the first member of the other list that accepts it
(`matchUp_cons_right`), so that both sides find the same partners.
-/

namespace RegexAudit

namespace Comparison

/-! ## Lists -/

section
variable {α : Type} {same same' : α → α → Bool} {p q : α → Bool} {xs ys : List α}

theorem removeFirst?_congr (h : ∀ y ∈ ys, p y = q y) : removeFirst? p ys = removeFirst? q ys := by
  induction ys with
  | nil => rfl
  | cons y ys ih =>
    rw [List.forall_mem_cons] at h
    rw [removeFirst?, removeFirst?, h.1, ih h.2]

theorem matchUp_congr (h : ∀ x ∈ xs, ∀ y ∈ ys, same x y = same' x y) :
    matchUp same xs ys = matchUp same' xs ys := by
  induction xs generalizing ys with
  | nil => rfl
  | cons x xs ih =>
    rw [List.forall_mem_cons] at h
    rw [matchUp, matchUp, removeFirst?_congr h.1]
    cases hzs : removeFirst? (same' x) ys with
    | none => rfl
    | some zs =>
      obtain ⟨y, -, hperm⟩ := perm_of_removeFirst? hzs
      exact ih fun x' hx' z hz => h.2 x' hx' z (hperm.mem_iff.2 (List.mem_cons_of_mem y hz))

theorem pairwise_congr (h : ∀ x ∈ xs, ∀ y ∈ ys, same x y = same' x y) :
    pairwise same xs ys = pairwise same' xs ys := by
  induction xs generalizing ys with
  | nil => cases ys <;> rfl
  | cons x xs ih =>
    cases ys with
    | nil => rfl
    | cons y ys =>
      rw [pairwise, pairwise, h x (by simp) y (by simp),
        ih fun x' hx' y' hy' => h x' (by simp [hx']) y' (by simp [hy'])]

/-- The head of the second list is the partner of the first member of the first list that accepts
it. -/
theorem matchUp_cons_right (same : α → α → Bool) (xs : List α) (y : α) (ys : List α) :
    matchUp same xs (y :: ys) =
      match removeFirst? (fun x => same x y) xs with
      | some xs => matchUp same xs ys
      | none => false := by
  induction xs generalizing ys with
  | nil => rfl
  | cons x xs ih =>
    rw [matchUp, removeFirst?, removeFirst?]
    by_cases hxy : same x y = true
    · rw [if_pos hxy, if_pos hxy]
    · -- `x` leaves `y` alone, so it takes the same partner whether `y` stands in front or not
      rw [if_neg hxy, if_neg hxy]
      cases hzs : removeFirst? (same x) ys with
      | none =>
        cases removeFirst? (fun x => same x y) xs with
        | none => rfl
        | some xs' => simp only [Option.map_none, Option.map_some, matchUp, hzs]
      | some zs =>
        simp only [Option.map_some, ih]
        cases removeFirst? (fun x => same x y) xs with
        | none => rfl
        | some xs' => simp only [Option.map_some, matchUp, hzs]

/-- Matching up gives the same answer from either side. -/
theorem matchUp_swap (same : α → α → Bool) (xs ys : List α) :
    matchUp same xs ys = matchUp (fun y x => same x y) ys xs := by
  induction ys generalizing xs with
  | nil => cases xs <;> rfl
  | cons y ys ih =>
    rw [matchUp_cons_right, matchUp]
    cases removeFirst? (fun x => same x y) xs with
    | none => rfl
    | some xs' => exact ih xs'

/-- Pairing up is symmetric if the relation is. -/
theorem matchUp_comm (h : ∀ x ∈ xs, ∀ y ∈ ys, same x y = same y x) :
    matchUp same xs ys = matchUp same ys xs := by
  rw [matchUp_swap]
  exact matchUp_congr fun y hy x hx => h x hx y hy

/-- So is the comparison in order. -/
theorem pairwise_comm (h : ∀ x ∈ xs, ∀ y ∈ ys, same x y = same y x) :
    pairwise same xs ys = pairwise same ys xs := by
  induction xs generalizing ys with
  | nil => cases ys <;> rfl
  | cons x xs ih =>
    cases ys with
    | nil => rfl
    | cons y ys =>
      rw [pairwise, pairwise, h x (by simp) y (by simp),
        ih fun x' hx' y' hy' => h x' (by simp [hx']) y' (by simp [hy'])]

theorem matchUp_refl (h : ∀ x ∈ xs, same x x = true) : matchUp same xs xs = true := by
  induction xs with
  | nil => rfl
  | cons x xs ih =>
    rw [List.forall_mem_cons] at h
    rw [matchUp, removeFirst?, if_pos h.1]
    exact ih h.2

theorem pairwise_refl (h : ∀ x ∈ xs, same x x = true) : pairwise same xs xs = true := by
  induction xs with
  | nil => rfl
  | cons x xs ih =>
    rw [List.forall_mem_cons] at h
    rw [pairwise, h.1, ih h.2, Bool.and_self]

end

/-- Lists that are mapped are compared as the lists before. -/
theorem pairwise_map {α β γ δ : Type} (same : γ → δ → Bool) (f : α → γ) (g : β → δ)
    (xs : List α) (ys : List β) :
    pairwise same (xs.map f) (ys.map g) = pairwise (fun x y => same (f x) (g y)) xs ys := by
  induction xs generalizing ys with
  | nil => cases ys <;> rfl
  | cons x xs ih =>
    cases ys with
    | nil => rfl
    | cons y ys => rw [List.map_cons, List.map_cons, pairwise, pairwise, ih]

theorem removeFirst?_map {α β : Type} (p : β → Bool) (f : α → β) (xs : List α) :
    removeFirst? p (xs.map f) = (removeFirst? (fun x => p (f x)) xs).map (List.map f) := by
  induction xs with
  | nil => rfl
  | cons x xs ih =>
    rw [List.map_cons, removeFirst?, removeFirst?, ih]
    split
    · rfl
    · cases removeFirst? (fun x => p (f x)) xs <;> rfl

theorem matchUp_map {α β γ δ : Type} (same : γ → δ → Bool) (f : α → γ) (g : β → δ)
    (xs : List α) (ys : List β) :
    matchUp same (xs.map f) (ys.map g) = matchUp (fun x y => same (f x) (g y)) xs ys := by
  induction xs generalizing ys with
  | nil => cases ys <;> rfl
  | cons x xs ih =>
    rw [List.map_cons, matchUp, matchUp, removeFirst?_map]
    cases removeFirst? (fun y => same (f x) (g y)) ys with
    | none => rfl
    | some ys => exact ih ys

/-! ## Symmetry -/

theorem sameText_comm (a b : Node) : sameText a b = sameText b a := by
  rw [sameText, sameText, BEq.comm (a := a.kind), BEq.comm (a := a.width), BEq.comm (a := a.text)]

/-- Sets are compared as they are stored. -/
theorem sameSet_comm [Properties]
    (flags : Flags) (a b : Node) : sameSet flags a b = sameSet flags b a := by
  unfold sameSet
  cases a.charSet? flags with
  | none => cases b.charSet? flags <;> exact sameText_comm a b
  | some s =>
    cases b.charSet? flags with
    | none => exact sameText_comm a b
    | some t => exact BEq.comm

theorem sameLetters?_comm (flags : Flags) (y z : Letter) :
    sameLetters? flags y z = sameLetters? flags z y := by
  have hupper (c d : Char) : Unicode.sameUpper c d = Unicode.sameUpper d c := by
    rw [Unicode.sameUpper, Unicode.sameUpper, BEq.comm, BEq.comm (a := Unicode.upper c)]
  unfold sameLetters?
  rw [hupper, Bool.and_right_comm]
  simp only [eq_comm]

theorem sameCharacters_comm [Properties] (flags : Flags) (a b : Node) :
    sameCharacters flags a b = sameCharacters flags b a := by
  unfold sameCharacters
  split
  · rw [sameLetters?_comm, sameSet_comm]
  · rw [sameSet_comm, BEq.comm]
  · rename_i hletters hshorthands
    split
    · exact (hletters _ _ rfl rfl).elim
    · exact (hshorthands _ _ rfl rfl).elim
    · exact sameSet_comm flags a b

/-- References are the same if they lead to one group. -/
theorem sameReference_comm (c : Comparison) (x y : GroupRef) :
    c.sameReference x y = c.sameReference y x := by
  unfold sameReference
  split
  · rename_i resolve? _
    by_cases h : resolve? x = resolve? y
    · rw [h]
    · rw [beq_false_of_ne h, beq_false_of_ne (Ne.symm h), Bool.and_false, Bool.and_false]
  · exact BEq.comm

section
variable [Properties] {c : Comparison}

/-- Texts, sets and parts are looked at in turn, each of them from both sides. -/
theorem verdict_comm (h : ∀ x y, c.hook x y = c.hook y x) {a b : Node} {parts parts' : Unit → Bool}
    (hparts : parts () = parts' ()) :
    c.verdict a b parts = c.verdict b a parts' := by
  unfold verdict
  rw [h, Bool.and_comm (x := a.isCharacter), sameCharacters_comm, sameText_comm, hparts]

theorem sameLetterNodes_comm (h : ∀ x y, c.hook x y = c.hook y x) (y z : Letter) :
    c.sameLetterNodes y z = c.sameLetterNodes z y :=
  verdict_comm h rfl

theorem sameStrings_comm (h : ∀ x y, c.hook x y = c.hook y x) (xs ys : List Letter) :
    c.sameStrings xs ys = c.sameStrings ys xs :=
  verdict_comm h (pairwise_comm fun y _ z _ => sameLetterNodes_comm h y z)

theorem sameAll_comm {xs ys : List Node} (hsame : ∀ n ∈ xs, ∀ m, same c n m = same c m n) :
    sameAll c xs ys = sameAll c ys xs := by
  rw [sameAll_eq_pairwise, sameAll_eq_pairwise]
  exact pairwise_comm fun n hn m _ => hsame n hn m

theorem sameSomeOrder_comm {xs ys : List Node} (hsame : ∀ n ∈ xs, ∀ m, same c n m = same c m n) :
    sameSomeOrder c xs ys = sameSomeOrder c ys xs := by
  rw [sameSomeOrder_eq_matchUp, sameSomeOrder_eq_matchUp]
  exact matchUp_comm fun n hn m _ => hsame n hn m

/-- The comparison is symmetric, by induction on the first node: its parts are compared by a relation
that is symmetric on them. -/
theorem same_comm (h : ∀ x y, c.hook x y = c.hook y x) (a b : Node) :
    same c a b = same c b a := by
  induction a using Node.induction_on_children generalizing b with
  | h a ih =>
    rw [same.eq_def, same.eq_def c b]
    refine verdict_comm h ?_
    split
    · exact sameAll_comm ih
    · exact sameSomeOrder_comm ih
    · exact sameSomeOrder_comm ih
    · rename_i xs _ _ ys
      have horder : sameSomeOrder c xs ys = sameSomeOrder c ys xs := sameSomeOrder_comm ih
      rw [BEq.comm, horder]
    · rename_i d negate xs _ _ ys
      have horder : sameSomeOrder c xs ys = sameSomeOrder c ys xs := sameSomeOrder_comm ih
      rw [BEq.comm (a := d), BEq.comm (a := negate), horder]
    · rename_i bounds greedy _ _ _ _ _ _
      rw [BEq.comm (a := bounds), BEq.comm (a := greedy), ih _ (List.mem_singleton_self _)]
    · exact BEq.comm
    · exact sameReference_comm c _ _
    · exact matchUp_comm fun x _ y _ => sameStrings_comm h x y
    · exact pairwise_comm fun y _ z _ => sameLetterNodes_comm h y z
    · -- nodes that do not go together this way round do not the other way round either
      split <;> grind

end

/-! ## Reflexivity -/

theorem sameText_refl (n : Node) : sameText n n = true := by
  rw [sameText, beq_self_eq_true, beq_self_eq_true, beq_self_eq_true]
  rfl

theorem sameSet_refl [Properties] (flags : Flags) (n : Node) : sameSet flags n n = true := by
  unfold sameSet
  split
  · rename_i s t hs ht
    rw [hs] at ht
    cases ht
    exact beq_self_eq_true s.ranges
  · exact sameText_refl n

theorem sameCharacters_refl [Properties]
    (flags : Flags) (n : Node) : sameCharacters flags n n = true := by
  unfold sameCharacters
  split
  · rw [sameLetters?, if_pos rfl, Option.getD_some]
  · rw [sameSet_refl, Bool.or_true]
  · exact sameSet_refl flags n

section
variable [Properties] {c : Comparison}

theorem verdict_refl (h : ∀ x y, c.hook x y = none) {n : Node} {parts : Unit → Bool}
    (hparts : n.isCharacter = false → parts () = true) : c.verdict n n parts = true := by
  unfold verdict
  rw [h]
  cases hn : n.isCharacter with
  | true => exact sameCharacters_refl c.flags n
  | false => rw [hparts hn, Bool.or_true]; rfl

theorem sameLetterNodes_refl (h : ∀ x y, c.hook x y = none) (y : Letter) :
    c.sameLetterNodes y y = true :=
  verdict_refl h fun hno => nomatch hno

theorem sameStrings_refl (h : ∀ x y, c.hook x y = none) (xs : List Letter) :
    c.sameStrings xs xs = true :=
  verdict_refl h fun _ => pairwise_refl fun y _ => sameLetterNodes_refl h y

theorem sameAll_refl {xs : List Node} (hsame : ∀ n ∈ xs, same c n n = true) :
    sameAll c xs xs = true := by
  rw [sameAll_eq_pairwise]
  exact pairwise_refl hsame

theorem sameSomeOrder_refl {xs : List Node} (hsame : ∀ n ∈ xs, same c n n = true) :
    sameSomeOrder c xs xs = true := by
  rw [sameSomeOrder_eq_matchUp]
  exact matchUp_refl hsame

/-- A node is the same as itself, unless it holds a reference that leads nowhere. -/
theorem same_refl (h : ∀ x y, c.hook x y = none) (n : Node)
    (hreferences : ∀ ref, n.HasTerm (.backreference ref) → c.sameReference ref ref = true) :
    same c n n = true := by
  induction n using Node.induction_on_children with
  | h n ih =>
    rw [same.eq_def]
    refine verdict_refl h fun hno => ?_
    have hchildren : ∀ m ∈ n.children, same c m m = true := fun m hm =>
      ih m hm fun ref href => hreferences ref ((Node.HasTerm.self.child hno hm).trans href)
    cases n with
    | alternative xs => exact sameAll_refl hchildren
    | choice frame xs =>
      have horder : sameSomeOrder c xs xs = true := sameSomeOrder_refl hchildren
      cases frame <;> simp [horder]
    | look d negate xs =>
      have horder : sameSomeOrder c xs xs = true := sameSomeOrder_refl hchildren
      simp [horder]
    | quantifier bounds greedy lexeme m =>
      simp [hchildren m (List.mem_singleton_self m)]
    | edge e => exact beq_self_eq_true e
    | backreference ref => exact hreferences ref .self
    | strings xs => exact matchUp_refl fun x _ => sameStrings_refl h x
    | string xs => exact pairwise_refl fun y _ => sameLetterNodes_refl h y
    | character _ | range _ _ | shorthand _ | charClass _ _ _ | classExpression _ _
    | classOperation _ _ _ => cases hno

end

section
variable [Properties]

/-- With a symmetric hook, or with none, the order of two nodes does not matter. -/
theorem equal_comm {c : Comparison} (h : ∀ x y, c.hook x y = c.hook y x) (a b : Node) :
    c.equal a b = c.equal b a := by
  rw [equal, equal, Bool.and_comm]
  refine same_comm ?_ a b
  exact h

/-- Without a hook a node is equal to itself if each of its references leads to a group. -/
theorem equal_refl (flags : Flags) (resolve? : GroupRef → Option Nat) (n : Node)
    (hreferences : ∀ ref, n.HasTerm (.backreference ref) → (resolve? ref).isSome = true) :
    equal { flags, resolve? := some resolve? } n n = true := by
  refine same_refl (fun _ _ => rfl) n fun ref href => ?_
  show ((resolve? ref).isSome && resolve? ref == resolve? ref) = true
  rw [hreferences ref href, beq_self_eq_true]
  rfl

end

end Comparison

end RegexAudit
