import Mathlib.Data.Fintype.EquivFin
import Mathlib.Data.List.FinRange
import Mathlib.Data.List.Perm.Basic
import RegexAudit.CharSet.KnownProperties
import RegexAudit.Proofs.Symmetry

/-!
# Partners

The alternatives of two nodes are paired greedily: each takes the first partner left that is equal
to it. No pairing is missed by that if a partner of two alternatives is as good for one as for the
other, that is, if

    same x y → same x' y → same x' y' → same x y'.

Then there is a pairing exactly if the greedy one succeeds (`matchUp_iff`), and so the order of the
alternatives is of no account.

Where letters are compared by their sets, equality of nodes is an equivalence and pairs like this.
Transitivity and pairing depend on each other: nodes with alternatives are equal if there is a
pairing, pairings can be put together one after the other, and the alternatives are smaller than the
nodes (`same_trans`). Letters under `i` without `u` and `v` are compared by upper case, and there it
can fail.
-/

namespace RegexAudit

namespace Comparison

/-! ## Pairings -/

section
variable {α : Type} {same : α → α → Bool} {xs ys zs : List α}

/-- A pairing of two lists is a reordering of the second that goes with the first place by place. -/
theorem exists_equiv_iff {R : α → α → Prop} :
    (∃ f : Fin xs.length ≃ Fin ys.length, ∀ i, R xs[i] ys[f i]) ↔
      ∃ zs, zs.Perm ys ∧ List.Forall₂ R xs zs := by
  constructor
  · rintro ⟨f, hf⟩
    have hplaces : ((List.finRange xs.length).map f).Perm (List.finRange ys.length) := by
      refine (List.perm_ext_iff_of_nodup ((List.nodup_finRange _).map f.injective)
        (List.nodup_finRange _)).2 fun j => ?_
      simp only [List.mem_map, List.mem_finRange, true_and, iff_true]
      exact f.surjective j
    refine ⟨((List.finRange xs.length).map f).map ys.get, ?_, ?_⟩
    · have hys := hplaces.map ys.get
      rwa [List.map_get_finRange] at hys
    · rw [List.forall₂_iff_get]
      refine ⟨by simp, fun i hi hi' => ?_⟩
      simpa using hf ⟨i, hi⟩
  · rintro ⟨zs, hperm, hxs⟩
    -- the places of the second list, in the order of its reordering
    have hplaces : List.Forall₂ (fun y j => y = ys[j]) ys (List.finRange ys.length) := by
      rw [List.forall₂_iff_get]
      exact ⟨by simp, fun i hi hi' => by simp⟩
    obtain ⟨js, hzs, hjs⟩ := List.perm_comp_forall₂ hperm hplaces
    have hlength : xs.length = js.length := hxs.length_eq.trans hzs.length_eq
    have hlength' : js.length = ys.length := by rw [hjs.length_eq, List.length_finRange]
    have hinjective : Function.Injective fun i : Fin xs.length => js[i] := by
      intro i i' h
      have hget : js.get (i.cast hlength) = js.get (i'.cast hlength) := h
      have hnodup : js.Nodup := hjs.nodup_iff.2 (List.nodup_finRange _)
      simpa using List.nodup_iff_injective_get.1 hnodup hget
    have hbijective := (Fintype.bijective_iff_injective_and_card _).2
      ⟨hinjective, by simp [hlength, hlength']⟩
    refine ⟨Equiv.ofBijective _ hbijective, fun i => ?_⟩
    have hxz := (List.forall₂_iff_get.1 hxs).2 i i.2 (hxs.length_eq ▸ i.2)
    have hzy := (List.forall₂_iff_get.1 hzs).2 i (hxs.length_eq ▸ i.2) (hlength ▸ i.2)
    rw [hzy] at hxz
    exact hxz

/-- Of two members of the first list that have a partner in common, each can have the partners of the
other. -/
def Exchangeable (same : α → α → Bool) (xs ys : List α) : Prop :=
  ∀ x ∈ xs, ∀ x' ∈ xs, ∀ y ∈ ys, ∀ y' ∈ ys,
    same x y = true → same x' y = true → same x' y' = true → same x y' = true

theorem forall₂_of_matchUp (h : matchUp same xs ys = true) :
    ∃ zs, zs.Perm ys ∧ List.Forall₂ (fun x y => same x y = true) xs zs := by
  induction xs generalizing ys with
  | nil =>
    rw [matchUp, List.isEmpty_iff] at h
    exact ⟨[], by rw [h], .nil⟩
  | cons x xs ih =>
    rw [matchUp] at h
    split at h
    · rename_i ys' hys
      obtain ⟨y, hy, hperm⟩ := perm_of_removeFirst? hys
      obtain ⟨zs, hzs, hpairs⟩ := ih h
      exact ⟨y :: zs, (hzs.cons y).trans hperm.symm, .cons hy hpairs⟩
    · cases h

/-- If the partner `y` of some member goes to another one, that member can have `z` for it. -/
theorem forall₂_exchange {R : α → α → Prop} {y z : α} (h : List.Forall₂ R xs zs) (hy : y ∈ z :: zs)
    (hz : ∀ x ∈ xs, R x y → R x z) :
    ∃ zs', List.Forall₂ R xs zs' ∧ (y :: zs').Perm (z :: zs) := by
  rcases List.mem_cons.1 hy with rfl | hy
  · exact ⟨zs, h, .refl _⟩
  · induction h with
    | nil => cases hy
    | @cons x w xs zs hxw hpairs ih =>
      rw [List.forall_mem_cons] at hz
      rcases List.mem_cons.1 hy with rfl | hy
      · exact ⟨z :: zs, .cons (hz.1 hxw) hpairs, .swap ..⟩
      · obtain ⟨zs', hpairs', hperm⟩ := ih (List.mem_cons_of_mem _ hy) hz.2 hy
        refine ⟨w :: zs', .cons hxw hpairs', ?_⟩
        exact (List.Perm.swap w y zs').trans ((hperm.cons w).trans (List.Perm.swap z w zs))

theorem removeFirst?_eq_none {p : α → Bool} (h : removeFirst? p ys = none) :
    ∀ y ∈ ys, p y = false := by
  induction ys with
  | nil => exact fun _ hy => nomatch hy
  | cons y ys ih =>
    rw [removeFirst?] at h
    split at h
    · cases h
    · rename_i hy
      rw [List.forall_mem_cons]
      exact ⟨Bool.eq_false_iff.2 hy, ih (Option.map_eq_none_iff.1 h)⟩

/-- If partners can be exchanged, taking the first one is as good as any choice. -/
theorem matchUp_of_forall₂ (hexchange : Exchangeable same xs ys) (hperm : zs.Perm ys)
    (h : List.Forall₂ (fun x y => same x y = true) xs zs) : matchUp same xs ys = true := by
  induction xs generalizing ys zs with
  | nil =>
    cases h
    rw [List.nil_perm.1 hperm]
    rfl
  | cons x xs ih =>
    obtain ⟨z, zs, hxz, hpairs, rfl⟩ := List.forall₂_cons_left_iff.1 h
    have hz : z ∈ ys := hperm.mem_iff.1 List.mem_cons_self
    rw [matchUp]
    split
    · rename_i ys' hys
      obtain ⟨y, hxy, hperm'⟩ := perm_of_removeFirst? hys
      have hmem {w : α} : w ∈ ys ↔ w = y ∨ w ∈ ys' := by rw [hperm'.mem_iff, List.mem_cons]
      obtain ⟨zs', hpairs', hzs⟩ := forall₂_exchange hpairs
        ((hperm.trans hperm').mem_iff.2 List.mem_cons_self) fun x' hx' hx'y =>
          hexchange x' (by simp [hx']) x (by simp) y (hmem.2 (.inl rfl)) z hz hx'y hxy hxz
      refine ih (fun w hw w' hw' v hv v' hv' => hexchange w (by simp [hw]) w' (by simp [hw'])
        v (hmem.2 (.inr hv)) v' (hmem.2 (.inr hv'))) ?_ hpairs'
      exact (hzs.trans (hperm.trans hperm')).cons_inv
    · rename_i hnone
      rw [removeFirst?_eq_none hnone z hz] at hxz
      cases hxz

/-- If partners can be exchanged, the greedy pairing succeeds exactly if there is a pairing. -/
theorem matchUp_iff (hexchange : Exchangeable same xs ys) : matchUp same xs ys = true ↔
    ∃ f : Fin xs.length ≃ Fin ys.length, ∀ i, same xs[i] ys[f i] = true := by
  rw [exists_equiv_iff (R := fun x y => same x y = true)]
  exact ⟨forall₂_of_matchUp, fun ⟨_, hperm, h⟩ => matchUp_of_forall₂ hexchange hperm h⟩

theorem matchUp_trans (hexchange : Exchangeable same xs zs)
    (htrans : ∀ x ∈ xs, ∀ y ∈ ys, ∀ z ∈ zs, same x y = true → same y z = true → same x z = true)
    (hxy : matchUp same xs ys = true) (hyz : matchUp same ys zs = true) :
    matchUp same xs zs = true := by
  obtain ⟨f, hf⟩ := exists_equiv_iff.2 (forall₂_of_matchUp hxy)
  obtain ⟨g, hg⟩ := exists_equiv_iff.2 (forall₂_of_matchUp hyz)
  rw [matchUp_iff hexchange]
  exact ⟨f.trans g, fun i => htrans _ (List.getElem_mem _) _ (List.getElem_mem _) _
    (List.getElem_mem _) (hf i) (hg (f i))⟩

theorem exists_equiv_perm {R : α → α → Prop} {xs' ys' : List α} (hxs : xs'.Perm xs)
    (hys : ys.Perm ys') (h : ∃ f : Fin xs.length ≃ Fin ys.length, ∀ i, R xs[i] ys[f i]) :
    ∃ f : Fin xs'.length ≃ Fin ys'.length, ∀ i, R xs'[i] ys'[f i] := by
  have hmoved {us vs : List α} (hperm : us.Perm vs) :
      ∃ f : Fin us.length ≃ Fin vs.length, ∀ i, us[i] = vs[f i] :=
    exists_equiv_iff.2 ⟨us, hperm, by rw [List.forall₂_eq_eq_eq]⟩
  obtain ⟨e, he⟩ := hmoved hxs
  obtain ⟨f, hf⟩ := h
  obtain ⟨g, hg⟩ := hmoved hys
  refine ⟨(e.trans f).trans g, fun i => ?_⟩
  have hi := hf (e i)
  rw [← he, hg] at hi
  exact hi

/-- If partners can be exchanged, neither list need be in order. -/
theorem matchUp_perm {xs' ys' : List α} (hexchange : Exchangeable same xs ys) (hxs : xs.Perm xs')
    (hys : ys.Perm ys') : matchUp same xs' ys' = matchUp same xs ys := by
  have hexchange' : Exchangeable same xs' ys' := fun x hx x' hx' y hy y' hy' =>
    hexchange x (hxs.mem_iff.2 hx) x' (hxs.mem_iff.2 hx') y (hys.mem_iff.2 hy) y' (hys.mem_iff.2 hy')
  rw [Bool.eq_iff_iff, matchUp_iff hexchange, matchUp_iff hexchange']
  exact ⟨exists_equiv_perm (R := fun x y => same x y = true) hxs hys.symm,
    exists_equiv_perm (R := fun x y => same x y = true) hxs.symm hys⟩

theorem pairwise_trans
    (htrans : ∀ x ∈ xs, ∀ y ∈ ys, ∀ z ∈ zs, same x y = true → same y z = true → same x z = true)
    (hxy : pairwise same xs ys = true) (hyz : pairwise same ys zs = true) :
    pairwise same xs zs = true := by
  induction xs generalizing ys zs with
  | nil =>
    cases ys with
    | nil => exact hyz
    | cons y ys => cases hxy
  | cons x xs ih =>
    cases ys with
    | nil => cases hxy
    | cons y ys =>
      cases zs with
      | nil => cases hyz
      | cons z zs =>
        rw [pairwise, Bool.and_eq_true] at hxy hyz ⊢
        refine ⟨htrans x (by simp) y (by simp) z (by simp) hxy.1 hyz.1, ih ?_ hxy.2 hyz.2⟩
        exact fun x' hx y' hy z' hz => htrans x' (by simp [hx]) y' (by simp [hy]) z' (by simp [hz])

end

end Comparison

namespace Node

/-- Two nodes with alternatives that differ in these at most, or in the number of a group. -/
inductive SameFrame : Node → Node → Prop
  | whole (xs ys : List Node) : SameFrame (choice .whole xs) (choice .whole ys)
  | plain (xs ys : List Node) : SameFrame (choice .plain xs) (choice .plain ys)
  | capture (i j : Nat) (name : Option (List Char)) (xs ys : List Node) :
    SameFrame (choice (.capture i name) xs) (choice (.capture j name) ys)
  | look (direction : Direction) (negate : Bool) (xs ys : List Node) :
    SameFrame (look direction negate xs) (look direction negate ys)
  | strings (xs ys : List (List Letter)) : SameFrame (strings xs) (strings ys)

/-- Every character outside of the classes stands for a set. -/
def HasSets [Properties] (flags : Flags) (n : Node) : Prop :=
  ∀ m, n.HasTerm m → m.isCharacter = true → ∃ set, m.charSet? flags = some set

variable {flags : Flags} {a b d : Node}

theorem SameFrame.symm (h : a.SameFrame b) : b.SameFrame a := by
  cases h <;> constructor

theorem SameFrame.trans (h : a.SameFrame b) (h' : b.SameFrame d) : a.SameFrame d := by
  cases h <;> cases h' <;> constructor

theorem SameFrame.isCharacter (h : a.SameFrame b) : a.isCharacter = false := by
  cases h <;> rfl

variable [Properties]

theorem HasSets.of_character {set : CharSet} (ha : a.isCharacter = true)
    (h : a.charSet? flags = some set) : a.HasSets flags := by
  intro m hm _
  rcases hasTerm_iff.1 hm with rfl | ⟨hno, -⟩
  · exact ⟨set, h⟩
  · rw [ha] at hno
    cases hno

theorem HasSets.child (h : a.HasSets flags) (ha : a.isCharacter = false) :
    ∀ x ∈ a.children, x.HasSets flags :=
  fun _ hx m hm => h m ((HasTerm.self.child ha hx).trans hm)

theorem HasSets.of_children (h : ∀ x ∈ a.children, x.HasSets flags) (ha : a.isCharacter = false) :
    a.HasSets flags := by
  intro m hm hcharacter
  rcases hasTerm_iff.1 hm with rfl | ⟨-, x, hx, hxm⟩
  · rw [ha] at hcharacter
    cases hcharacter
  · exact h x hx m hxm hcharacter

end Node

namespace Comparison

/-! ## Steps of a comparison -/

/-- How two nodes can be equal, when texts are not looked at. -/
inductive SameStep [Properties] (c : Comparison) : Node → Node → Prop
  | character {a b : Node} : a.isCharacter = true → b.isCharacter = true →
    sameCharacters c.flags a b = true → SameStep c a b
  | partners {a b : Node} : a.SameFrame b →
    matchUp (same c) a.children b.children = true → SameStep c a b
  | alternative {xs ys : List Node} : pairwise (same c) xs ys = true →
    SameStep c (.alternative xs) (.alternative ys)
  | string {xs ys : List Letter} :
    pairwise (same c) (Node.string xs).children (Node.string ys).children = true →
    SameStep c (.string xs) (.string ys)
  | quantifier {bounds : Bounds} {greedy : Bool} {lexeme lexeme' : List Char} {x y : Node} :
    same c x y = true → SameStep c (.quantifier bounds greedy lexeme x)
      (.quantifier bounds greedy lexeme' y)
  | edge (e : Edge) : SameStep c (.edge e) (.edge e)
  | reference {x y : GroupRef} : c.sameReference x y = true →
    SameStep c (.backreference x) (.backreference y)

variable {flags : Flags} {resolve? : Option (GroupRef → Option Nat)}

section
variable [Properties]

theorem verdict_eq {a b : Node} (ha : a.isCharacter = false) (parts : Unit → Bool) :
    verdict { flags, resolve? } a b parts = parts () := by
  rw [verdict, ha]
  rfl

theorem same_frame {a b : Node} (h : a.SameFrame b) : same { flags, resolve? } a b
    = matchUp (same { flags, resolve? }) a.children b.children := by
  rw [same.eq_def, verdict_eq h.isCharacter]
  cases h with
  | whole xs ys | plain xs ys => exact sameSomeOrder_eq_matchUp _ xs ys
  | capture _ _ _ xs ys => simp [sameSomeOrder_eq_matchUp, Node.children]
  | look _ _ xs ys => simp [sameSomeOrder_eq_matchUp, Node.children]
  | strings xs ys =>
    rw [Node.children, Node.children, matchUp_map]
    exact matchUp_congr fun x _ y _ => sameStrings_eq_same _ x y

theorem same_string (xs ys : List Letter) : same { flags, resolve? } (.string xs) (.string ys)
    = pairwise (same { flags, resolve? }) (Node.string xs).children (Node.string ys).children := by
  rw [same.eq_def, verdict_eq rfl, Node.children, Node.children, pairwise_map]
  exact pairwise_congr fun y _ z _ => sameLetterNodes_eq_same _ y z

theorem same_character {a b : Node} (ha : a.isCharacter = true) :
    same { flags, resolve? } a b = (b.isCharacter && sameCharacters flags a b) := by
  rw [same.eq_def, verdict, ha]
  cases b.isCharacter with
  | true => rfl
  | false => cases a <;> first | rfl | cases ha

theorem same_iff_sameStep {a b : Node} :
    same { flags, resolve? } a b = true ↔ SameStep { flags, resolve? } a b := by
  constructor
  · intro h
    cases ha : a.isCharacter with
    | true =>
      rw [same_character ha, Bool.and_eq_true] at h
      exact .character ha h.1 h.2
    | false =>
      have hsame := h
      rw [same.eq_def, verdict_eq ha] at h
      split at h
      · rw [sameAll_eq_pairwise] at h
        exact .alternative h
      · exact .partners (.whole ..) (same_frame (.whole ..) ▸ hsame)
      · exact .partners (.plain ..) (same_frame (.plain ..) ▸ hsame)
      · rw [Bool.and_eq_true, beq_iff_eq] at h
        obtain ⟨rfl, -⟩ := h
        exact .partners (.capture ..) (same_frame (.capture ..) ▸ hsame)
      · rw [Bool.and_eq_true, Bool.and_eq_true, beq_iff_eq, beq_iff_eq] at h
        obtain ⟨⟨rfl, rfl⟩, -⟩ := h
        exact .partners (.look ..) (same_frame (.look ..) ▸ hsame)
      · rw [Bool.and_eq_true, Bool.and_eq_true, beq_iff_eq, beq_iff_eq] at h
        obtain ⟨⟨rfl, rfl⟩, h⟩ := h
        exact .quantifier h
      · rw [beq_iff_eq] at h
        subst h
        exact .edge _
      · exact .reference h
      · exact .partners (.strings ..) (same_frame (.strings ..) ▸ hsame)
      · exact .string (same_string .. ▸ hsame)
      · cases h
  · intro h
    cases h with
    | character ha hb h => rw [same_character ha, hb]; exact h
    | partners hframe h => rwa [same_frame hframe]
    | alternative h =>
      rw [same.eq_def, verdict_eq rfl]
      rwa [← sameAll_eq_pairwise] at h
    | string h => rwa [same_string]
    | quantifier h =>
      rw [same.eq_def, verdict_eq rfl]
      simpa using h
    | edge e =>
      rw [same.eq_def, verdict_eq rfl]
      exact beq_self_eq_true e
    | reference h =>
      rw [same.eq_def, verdict_eq rfl]
      exact h

end

/-! ## Equivalence -/

theorem sameReference_trans {c : Comparison} {x y z : GroupRef} (h : c.sameReference x y = true)
    (h' : c.sameReference y z = true) : c.sameReference x z = true := by
  unfold sameReference at h h' ⊢
  cases hresolve : c.resolve? with
  | some resolve? =>
    simp only [hresolve, Bool.and_eq_true, beq_iff_eq] at h h' ⊢
    exact ⟨h.1, h.2.trans h'.2⟩
  | none =>
    simp only [hresolve, beq_iff_eq] at h h' ⊢
    exact h.trans h'

section
variable [Properties]

/-- Nodes that match single characters are compared by their sets, but for two letters under `i`
without `u` and `v`. -/
theorem sameCharacters_eq {a b : Node} {s t : CharSet} (hs : a.charSet? flags = some s)
    (ht : b.charSet? flags = some t)
    (hflags : ∀ y z, a = .character y → b = .character z → y.value ≠ z.value →
      flags.ignoreCase = true → flags.unicodeMode = true) :
    sameCharacters flags a b = s.same t := by
  have hset : sameSet flags a b = s.same t := by rw [sameSet, hs, ht]
  have hrefl (u : CharSet) : u.same u = true := beq_self_eq_true u.ranges
  unfold sameCharacters
  split
  · rename_i y z
    unfold sameLetters?
    split
    · rename_i hvalue
      rw [Node.charSet?, Letter.charSet?] at hs ht
      rw [hvalue, ht] at hs
      rw [← Option.some.inj hs, hrefl]
      rfl
    · cases hcase : flags.ignoreCase with
      | true =>
        rw [hflags y z rfl rfl ‹_› hcase]
        exact hset
      | false => exact hset
  · rename_i x y
    by_cases hxy : x = y
    · rw [hxy, ht] at hs
      rw [← Option.some.inj hs, hxy, beq_self_eq_true, hrefl, Bool.true_or]
    · rw [beq_false_of_ne hxy, hset, Bool.false_or]
  · exact hset

theorem exchangeable_of_trans {xs ys : List Node}
    (hback : ∀ x ∈ xs, ∀ y ∈ ys, ∀ x' ∈ xs, same { flags, resolve? } x y = true →
      same { flags, resolve? } y x' = true → same { flags, resolve? } x x' = true)
    (hon : ∀ x ∈ xs, ∀ x' ∈ xs, ∀ y ∈ ys, same { flags, resolve? } x x' = true →
      same { flags, resolve? } x' y = true → same { flags, resolve? } x y = true) :
    Exchangeable (same { flags, resolve? }) xs ys := by
  intro x hx x' hx' y hy y' hy' hxy hx'y hx'y'
  rw [same_comm fun _ _ => rfl] at hx'y
  exact hon x hx x' hx' y' hy' (hback x hx y hy x' hx' hxy hx'y) hx'y'

/-- Without `i`, or with `u` or `v`, equality of nodes whose characters have sets is transitive. -/
theorem same_trans (hflags : flags.ignoreCase = true → flags.unicodeMode = true) {a b d : Node}
    (ha : a.HasSets flags) (hb : b.HasSets flags) (hd : d.HasSets flags)
    (hab : same { flags, resolve? } a b = true) (hbd : same { flags, resolve? } b d = true) :
    same { flags, resolve? } a d = true := by
  induction a using Node.induction_on_children generalizing b d with
  | h a ih =>
    have htrans (hno : a.isCharacter = false) (ys zs : List Node) (hys : ∀ y ∈ ys, y.HasSets flags)
        (hzs : ∀ z ∈ zs, z.HasSets flags) : ∀ x ∈ a.children, ∀ y ∈ ys, ∀ z ∈ zs,
          same { flags, resolve? } x y = true → same { flags, resolve? } y z = true →
          same { flags, resolve? } x z = true :=
      fun x hx y hy z hz => ih x hx (ha.child hno x hx) (hys y hy) (hzs z hz)
    rw [same_iff_sameStep] at hab hbd ⊢
    cases hab with
    | character hca hcb h =>
      cases hbd with
      | character _ hcd h' =>
        obtain ⟨s, hs⟩ := ha a .self hca
        obtain ⟨t, ht⟩ := hb b .self hcb
        obtain ⟨u, hu⟩ := hd d .self hcd
        have hsets {x y : Node} {v w : CharSet} (hv : x.charSet? flags = some v)
            (hw : y.charSet? flags = some w) : sameCharacters flags x y = v.same w :=
          sameCharacters_eq hv hw fun _ _ _ _ _ => hflags
        refine .character hca hcd ?_
        rw [hsets hs ht] at h
        rw [hsets ht hu] at h'
        rw [hsets hs hu, CharSet.same, eq_of_beq h]
        exact h'
      | partners hframe _ => rw [hframe.isCharacter] at hcb; cases hcb
      | _ => cases hcb
    | partners hframe h =>
      cases hbd with
      | character hcb => rw [hframe.symm.isCharacter] at hcb; cases hcb
      | partners hframe' h' =>
        have hno := hframe.isCharacter
        have hxs := ha.child hno
        have hys := hb.child hframe.symm.isCharacter
        have hzs := hd.child hframe'.symm.isCharacter
        have hexchange : Exchangeable (same { flags, resolve? }) a.children d.children :=
          exchangeable_of_trans (htrans hno _ _ hzs hxs) (htrans hno _ _ hxs hzs)
        exact .partners (hframe.trans hframe')
          (matchUp_trans hexchange (htrans hno _ _ hys hzs) h h')
      | _ => cases hframe
    | alternative h =>
      cases hbd with
      | alternative h' =>
        exact .alternative (pairwise_trans (htrans rfl _ _ (hb.child rfl) (hd.child rfl)) h h')
      | character hcb => cases hcb
      | partners hframe => cases hframe
    | string h =>
      cases hbd with
      | string h' =>
        exact .string (pairwise_trans (htrans rfl _ _ (hb.child rfl) (hd.child rfl)) h h')
      | character hcb => cases hcb
      | partners hframe => cases hframe
    | quantifier h =>
      cases hbd with
      | quantifier h' =>
        have helement := htrans rfl _ _ (hb.child rfl) (hd.child rfl)
        exact .quantifier (helement _ (List.mem_singleton_self _) _ (List.mem_singleton_self _) _
          (List.mem_singleton_self _) h h')
      | character hcb => cases hcb
      | partners hframe => cases hframe
    | edge => exact hbd
    | reference h =>
      cases hbd with
      | reference h' => exact .reference (sameReference_trans h h')
      | character hcb => cases hcb
      | partners hframe => cases hframe

/-- The alternatives of such nodes can exchange their partners. -/
theorem exchangeable_children (hflags : flags.ignoreCase = true → flags.unicodeMode = true)
    {a b : Node} (ha : a.HasSets flags) (hb : b.HasSets flags) (hframe : a.SameFrame b) :
    Exchangeable (same { flags, resolve? }) a.children b.children := by
  have hxs := ha.child hframe.isCharacter
  have hys := hb.child hframe.symm.isCharacter
  exact exchangeable_of_trans
    (fun x hx y hy x' hx' => same_trans hflags (hxs x hx) (hys y hy) (hxs x' hx'))
    fun x hx x' hx' y hy => same_trans hflags (hxs x hx) (hxs x' hx') (hys y hy)

/-- Without `i`, or with `u` or `v`, and for nodes whose characters have sets: equality part by part
is transitive; nodes of one kind with alternatives are equal exactly if these can be paired so that
the two of a pair are equal; and the order of the alternatives is of no account. -/
theorem same_partners (flags : Flags)
    (hflags : flags.ignoreCase = true → flags.unicodeMode = true)
    (resolve? : Option (GroupRef → Option Nat)) :
    (∀ a b d : Node, a.HasSets flags → b.HasSets flags → d.HasSets flags →
      same { flags, resolve? } a b = true → same { flags, resolve? } b d = true →
      same { flags, resolve? } a d = true) ∧
    (∀ a b : Node, a.HasSets flags → b.HasSets flags → a.SameFrame b →
      (same { flags, resolve? } a b = true ↔
        ∃ f : Fin a.children.length ≃ Fin b.children.length,
          ∀ i, same { flags, resolve? } a.children[i] b.children[f i] = true)) ∧
    ∀ a a' b b' : Node, a.HasSets flags → b.HasSets flags → a.SameFrame b →
      a.SameFrame a' → a.children.Perm a'.children → b.SameFrame b' →
      b.children.Perm b'.children → same { flags, resolve? } a' b' = same { flags, resolve? } a b := by
  refine ⟨fun a b d ha hb hd => same_trans hflags ha hb hd, ?_, ?_⟩
  · intro a b ha hb hframe
    rw [same_frame hframe, matchUp_iff (exchangeable_children hflags ha hb hframe)]
  · intro a a' b b' ha hb hframe hframea hperma hframeb hpermb
    rw [same_frame hframe, same_frame ((hframea.symm.trans hframe).trans hframeb)]
    exact matchUp_perm (exchangeable_children hflags ha hb hframe) hperma hpermb

end

open Node in
/-- With `i` and `u`, `(?:a|b)` is equal to `(?:B|[a])`, and that to `(?:[b]|A)`. So the first is equal
to the last, too, and it is equal to the second with the alternatives the other way round. -/
theorem same_partners_letters :
    let flags : Flags := { ignoreCase := true, unicode := true }
    let letter (c : Char) : Node := character ⟨c.toNat, [c]⟩
    let set (c : Char) : Node := charClass false false [letter c]
    let either (x y : Node) : Node := choice .plain [alternative [x], alternative [y]]
    let a := either (letter 'a') (letter 'b')
    let b := either (letter 'B') (set 'a')
    let d := either (set 'b') (letter 'A')
    same { flags } a d = true ∧
      (∃ f : Fin 2 ≃ Fin 2, ∀ i, same { flags } a.children[i] b.children[f i] = true) ∧
      same { flags } a (either (set 'a') (letter 'B')) = true := by
  intro flags letter set either a b d
  obtain ⟨htrans, hpartners, hperm⟩ := same_partners flags (fun _ => rfl) none
  have hab : same { flags } a b = true := by decide +kernel
  have hbd : same { flags } b d = true := by decide +kernel
  have hsets {x y : Node} (hx : x.HasSets flags) (hy : y.HasSets flags) :
      (either x y).HasSets flags := by
    have hrow {n : Node} (hn : n.HasSets flags) : (alternative [n]).HasSets flags :=
      .of_children (List.forall_mem_singleton.2 hn) rfl
    exact .of_children (List.forall_mem_cons.2 ⟨hrow hx, List.forall_mem_singleton.2 (hrow hy)⟩) rfl
  have ha : a.HasSets flags := hsets (.of_character rfl rfl) (.of_character rfl rfl)
  have hb : b.HasSets flags := hsets (.of_character rfl rfl) (.of_character rfl rfl)
  have hd : d.HasSets flags := hsets (.of_character rfl rfl) (.of_character rfl rfl)
  refine ⟨htrans a b d ha hb hd hab hbd, (hpartners a b ha hb (.plain ..)).1 hab, ?_⟩
  rw [← hab]
  exact hperm a a b _ ha hb (.plain ..) (.plain ..) (.refl _) (.plain ..) (.swap ..)

end Comparison

end RegexAudit
