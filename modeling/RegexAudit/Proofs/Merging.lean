import Mathlib.Data.List.Basic
import Mathlib.Data.Nat.Find
import RegexAudit.Analysis.Category
import RegexAudit.CharSet.KnownProperties
import RegexAudit.Proofs.Trials

/-!
# One quantifier for two

What the fix of a nested quantifier does to the match that is found. A pattern goes on from the first
of its ends that the rest of it accepts; so two patterns with the same first end under every test can
stand for each other (`Agree`).

A node that matches single characters matches a run of them from a position on, and a quantifier over
it ends where its totals end that fit in the run, in the order of the totals. This is shown by looking
at moments as positions and at totals as positions (`Carries`): steps that look alike go on looking
alike when they are repeated. The order of the totals is that of `Nesting.eraseDups_trials_iff`.
-/

namespace RegexAudit

/-! ## Lists with the same first members -/

/-- Whatever is looked for, the two lists come to the same member first. -/
def Agree {α : Type} (l l' : List α) : Prop := ∀ ok : α → Bool, l.find? ok = l'.find? ok

namespace Agree

variable {α β : Type} {k k' l l' : List α}

theorem refl (l : List α) : Agree l l := fun _ => rfl

theorem symm (h : Agree l l') : Agree l' l := fun ok => (h ok).symm

theorem trans (h : Agree k l) (h' : Agree l l') : Agree k l' := fun ok => (h ok).trans (h' ok)

theorem eq_nil (h : Agree l []) : l = [] := by
  cases l with
  | nil => rfl
  | cons a l =>
    have := h fun _ => true
    simp at this

theorem append (h : Agree k k') (h' : Agree l l') : Agree (k ++ l) (k' ++ l') := by
  intro ok
  rw [List.find?_append, List.find?_append, h ok, h' ok]

theorem filter (h : Agree l l') (p : α → Bool) : Agree (l.filter p) (l'.filter p) := by
  intro ok
  rw [List.find?_filter, List.find?_filter]
  exact h _

theorem findSome? {f : α → Option β} (h : Agree l l') : l.findSome? f = l'.findSome? f := by
  have hfind (l : List α) : l.findSome? f = (l.find? fun a => (f a).isSome).bind f := by
    induction l with
    | nil => rfl
    | cons a l ih =>
      cases ha : f a with
      | none => simp [ha, ih]
      | some b => simp [ha]
  rw [hfind, hfind, h]

theorem flatMap {f f' : α → List β} (h : Agree l l') (hf : ∀ a, Agree (f a) (f' a)) :
    Agree (l.flatMap f) (l'.flatMap f') := by
  intro ok
  have hsame : (fun a => (f a).find? ok) = fun a => (f' a).find? ok := funext fun a => hf a ok
  rw [List.find?_flatMap, List.find?_flatMap, hsame]
  exact h.findSome?

theorem filterMap (h : Agree l l') (g : α → Option β) : Agree (l.filterMap g) (l'.filterMap g) := by
  intro ok
  rw [List.find?_filterMap, List.find?_filterMap, h]

/-- Members that are all one might as well be there once. -/
theorem singleton {a : α} (hne : l ≠ []) (hl : ∀ b ∈ l, b = a) : Agree l [a] := by
  intro ok
  cases hok : ok a with
  | true =>
    obtain ⟨b, l, rfl⟩ := List.exists_cons_of_ne_nil hne
    obtain rfl := hl b List.mem_cons_self
    simp [hok]
  | false =>
    have hnone : l.find? ok = none := List.find?_eq_none.2 fun b hb => by simp [hl b hb, hok]
    simp [hnone, hok]

end Agree

/-! ## Steps seen from elsewhere -/

namespace Steps

variable {α β : Type} {g : α → Option β}

/-- Through `g` the steps `f` look like the steps `f'`; steps from a state that is not seen are not seen
either. -/
def Carries (g : α → Option β) (f : α → List α) (f' : β → List β) : Prop :=
  ∀ s, Agree ((f s).filterMap g) ((g s).elim [] f')

namespace Carries

variable {f h : α → List α} {f' h' : β → List β}

theorem flatMap_elim (l : List α) (f' : β → List β) :
    (l.flatMap fun s => (g s).elim [] f') = (l.filterMap g).flatMap f' := by
  induction l with
  | nil => rfl
  | cons s l ih => cases hs : g s <;> simp [hs, ih]

theorem self (g : α → Option β) : Carries g (fun s => [s]) fun b => [b] := by
  intro s
  cases hs : g s <;> simp [hs, Agree.refl]

theorem andThen (hf : Carries g f f') (hh : Carries g h h') :
    Carries g (fun s => (f s).flatMap h) fun b => (f' b).flatMap h' := by
  intro s
  have hfirst : Agree (((f s).flatMap h).filterMap g) (((f s).filterMap g).flatMap h') := by
    rw [List.filterMap_flatMap, ← flatMap_elim]
    exact (Agree.refl _).flatMap hh
  have hsecond := (hf s).flatMap fun b => Agree.refl (h' b)
  refine hfirst.trans (hsecond.trans ?_)
  cases g s <;> exact .refl _

theorem forced (hf : Carries g f f') (count : Nat) :
    Carries g (Steps.forced f count) (Steps.forced f' count) := by
  induction count with
  | zero => exact self g
  | succ count ih => exact hf.andThen ih

section
variable {moves : α → α → Bool} {moves' : β → β → Bool}
  (hmoves : ∀ {s t b c}, g s = some b → g t = some c → moves s t = moves' b c)

include hmoves

theorem filter (hf : Carries g f f') :
    Carries g (fun s => (f s).filter (moves s)) fun b => (f' b).filter (moves' b) := by
  intro s
  have hs := hf s
  cases hb : g s with
  | none =>
    rw [hb] at hs
    have hnone := List.filterMap_eq_nil_iff.1 hs.eq_nil
    have hfilter : ((f s).filter (moves s)).filterMap g = [] :=
      List.filterMap_eq_nil_iff.2 fun t ht => hnone t (List.mem_filter.1 ht).1
    rw [hfilter]
    exact .refl _
  | some b =>
    rw [hb] at hs
    have hcomm (l : List α) : (l.filter (moves s)).filterMap g = (l.filterMap g).filter (moves' b) := by
      induction l with
      | nil => rfl
      | cons t l ih =>
        cases ht : g t with
        | none => cases hm : moves s t <;> simp [hm, ht, ih]
        | some c =>
          have hm := hmoves hb ht
          cases hm' : moves' b c <;> rw [hm'] at hm <;> simp [hm, hm', ht, ih]
    rw [hcomm]
    exact hs.filter _

theorem optional (hf : Carries g f f') (greedy : Bool) (count : Nat) :
    Carries g (Steps.optional moves f greedy count) (Steps.optional moves' f' greedy count) := by
  induction count with
  | zero => exact self g
  | succ count ih =>
    intro s
    have hmore := (hf.filter hmoves).andThen ih s
    have hself := self g s
    simp only [Steps.optional]
    cases hs : g s with
    | none =>
      rw [hs] at hmore hself
      cases greedy with
      | true =>
        rw [if_pos rfl, List.filterMap_append, hmore.eq_nil, hself.eq_nil]
        exact .refl _
      | false =>
        rw [if_neg Bool.false_ne_true, ← List.singleton_append, List.filterMap_append, hmore.eq_nil,
          hself.eq_nil]
        exact .refl _
    | some b =>
      rw [hs] at hmore hself
      cases greedy with
      | true =>
        rw [if_pos rfl, List.filterMap_append]
        exact hmore.append hself
      | false =>
        rw [if_neg Bool.false_ne_true, ← List.singleton_append, List.filterMap_append]
        exact hself.append hmore

theorem repeated (hf : Carries g f f') (greedy : Bool) (least more : Nat) :
    Carries g (Steps.repeated moves f greedy least more)
      (Steps.repeated moves' f' greedy least more) :=
  (hf.forced least).andThen (hf.optional hmoves greedy more)

end

end Carries

/-! ## Rounds that use up room -/

/-- Each step that moves leaves less room. -/
def Shrinks (room : Nat → Nat) (f : Nat → List Nat) : Prop :=
  ∀ i, ∀ j ∈ f i, j = i ∨ room j < room i

section
variable {room : Nat → Nat} {f h : Nat → List Nat}

theorem Shrinks.andThen (hf : Shrinks room f) (hh : Shrinks room h) :
    Shrinks room fun i => (f i).flatMap h := by
  intro i k hk
  obtain ⟨j, hj, hk⟩ := List.mem_flatMap.1 hk
  rcases hf i j hj, hh j k hk with ⟨rfl | hj, rfl | hk⟩
  · exact .inl rfl
  · exact .inr hk
  · exact .inr hj
  · exact .inr (Nat.lt_trans hk hj)

theorem shrinks_self (room : Nat → Nat) : Shrinks room fun i => [i] :=
  fun _ _ hj => .inl (List.mem_singleton.1 hj)

theorem Shrinks.forced (hf : Shrinks room f) (count : Nat) : Shrinks room (forced f count) := by
  induction count with
  | zero => exact shrinks_self room
  | succ count ih => exact hf.andThen ih

theorem Shrinks.optional (hf : Shrinks room f) (greedy : Bool) (count : Nat) :
    Shrinks room (optional differs f greedy count) := by
  induction count with
  | zero => exact shrinks_self room
  | succ count ih =>
    intro i k hk
    rcases mem_optional.1 hk with rfl | ⟨j, hj, -, hk⟩
    · exact .inl rfl
    · exact hf.andThen ih i k (List.mem_flatMap.2 ⟨j, hj, hk⟩)

/-- More rounds than there is room for make no difference. -/
theorem optional_eq_of_room (hf : Shrinks room f) (greedy : Bool) {count count' i : Nat}
    (hi : room i ≤ count) (hi' : room i ≤ count') :
    optional differs f greedy count i = optional differs f greedy count' i := by
  have hnone {i : Nat} (hi : room i = 0) : (f i).filter (differs i) = [] :=
    List.filter_eq_nil_iff.2 fun j hj => by
      rcases hf i j hj with rfl | hj
      · simp [differs]
      · omega
  have hstop {i : Nat} (hi : room i = 0) (count : Nat) : optional differs f greedy count i = [i] := by
    cases count with
    | zero => rfl
    | succ count => cases greedy <;> simp [optional, hnone hi]
  induction count generalizing count' i with
  | zero => rw [hstop (Nat.le_zero.1 hi), hstop (Nat.le_zero.1 hi)]
  | succ count ih =>
    cases count' with
    | zero => rw [hstop (Nat.le_zero.1 hi'), hstop (Nat.le_zero.1 hi')]
    | succ count' =>
      have hmore : ((f i).filter (differs i)).flatMap (optional differs f greedy count) =
          ((f i).filter (differs i)).flatMap (optional differs f greedy count') := by
        refine List.flatMap_congr fun j hj => ?_
        obtain ⟨hj, hmoves⟩ := List.mem_filter.1 hj
        have hless := (hf i j hj).resolve_left (by simpa [differs] using hmoves)
        exact ih (by omega) (by omega)
      simp only [optional, hmore]

end

end Steps

/-! ## Totals and positions -/

namespace Scene

open Steps

variable {x : Scene} {d : Direction} {hits : Nat → Bool} {n : Node}

/-- The position after `k` more characters. -/
def along (d : Direction) (i k : Nat) : Nat :=
  match d with
  | .forward => i + k
  | .backward => i - k

/-- A character is left. -/
def HasNext (x : Scene) (d : Direction) (i : Nat) : Prop :=
  match d with
  | .forward => i < x.text.length
  | .backward => 0 < i ∧ i ≤ x.text.length

/-- How many characters are left. -/
def room (x : Scene) (d : Direction) (i : Nat) : Nat :=
  match d with
  | .forward => x.text.length - i
  | .backward => min i x.text.length

/-- The node matches a single character where `hits` says so, and nothing elsewhere. -/
structure MatchesOne [Properties]
    (x : Scene) (d : Direction) (hits : Nat → Bool) (n : Node) : Prop where
  ends : ∀ s, ∀ t ∈ x.outcomes n d s, t.position = along d s.position 1
  found : ∀ s, x.outcomes n d s ≠ [] ↔ hits s.position = true
  next : ∀ i, hits i = true → x.HasNext d i

/-- A character, if there is one to be matched. -/
def hop (d : Direction) (hits : Nat → Bool) (i : Nat) : List Nat :=
  if hits i then [along d i 1] else []

/-- Moments seen as positions. -/
abbrev CarriesPosition (f : Moment → List Moment) (f' : Nat → List Nat) : Prop :=
  Carries (fun s => some s.position) f f'

section
variable [Properties]

theorem carries_hop (h : x.MatchesOne d hits n) : CarriesPosition (x.outcomes n d) (hop d hits) := by
  intro s
  have hfound := h.found s
  show Agree _ (hop d hits s.position)
  unfold hop
  split
  · rename_i hi
    obtain ⟨t, ht⟩ := List.exists_mem_of_ne_nil _ (hfound.2 hi)
    refine .singleton (List.ne_nil_of_mem (List.mem_filterMap.2 ⟨t, ht, rfl⟩)) fun i hi => ?_
    obtain ⟨t, ht, hti⟩ := List.mem_filterMap.1 hi
    cases hti
    exact h.ends s t ht
  · rename_i hi
    have hnil : x.outcomes n d s = [] := by
      by_contra hne
      exact hi (hfound.1 hne)
    rw [hnil]
    exact .refl _

/-- A group that holds nothing else goes on as what it holds. -/
theorem outcomes_sole (n : Node) (d : Direction) :
    x.outcomes (.choice .plain [.alternative [n]]) d = x.outcomes n d := by
  funext s
  have hrow : Steps.row [x.outcomes n] d s = x.outcomes n d s := by
    cases d <;> simp [Steps.row]
  simp only [outcomes, outcomesAll, oneOf, List.flatMap_singleton, hrow]
  exact List.map_id _

theorem shrinks_hop (h : x.MatchesOne d hits n) : Shrinks (x.room d) (hop d hits) := by
  intro i j hj
  unfold hop at hj
  split at hj
  · rename_i hi
    have hnext := h.next i hi
    rw [List.mem_singleton] at hj
    cases d with
    | forward =>
      simp only [HasNext, room, along] at *
      omega
    | backward =>
      simp only [HasNext, room, along] at *
      omega
  · cases hj

end

theorem room_le (x : Scene) (d : Direction) (i : Nat) : x.room d i ≤ x.text.length := by
  unfold room
  split <;> omega

/-- The rounds that a quantifier may add, seen as positions. -/
theorem optional_rounds {f : Nat → List Nat} (hf : Shrinks (x.room d) f) {bounds : Bounds}
    {most : Nat} (hmost : bounds.max = some most) (greedy : Bool) :
    optional differs f greedy (x.rounds bounds) = optional differs f greedy (most - bounds.min) := by
  funext i
  have hroom := x.room_le d i
  simp only [rounds, hmost]
  rcases Nat.le_total (most - bounds.min) x.text.length with hle | hle
  · rw [Nat.min_eq_left hle]
  · rw [Nat.min_eq_right hle]
    exact optional_eq_of_room hf greedy hroom (Nat.le_trans hroom hle)

/-- The number of characters that the node matches in a row. -/
theorem exists_run [Properties] (h : x.MatchesOne d hits n) (i : Nat) :
    ∃ run, hits (along d i run) = false ∧ ∀ k < run, hits (along d i k) = true := by
  have hend : ∃ k, hits (along d i k) = false := by
    by_contra hno
    have hnext (k : Nat) : x.HasNext d (along d i k) :=
      h.next _ (by simpa using fun hk => hno ⟨k, hk⟩)
    cases d with
    | forward =>
      have hlength := hnext x.text.length
      simp only [HasNext, along] at hlength
      omega
    | backward =>
      have hzero := hnext i
      simp only [HasNext, along] at hzero
      omega
  exact ⟨Nat.find hend, Nat.find_spec hend, fun k hk => by simpa using Nat.find_min hend hk⟩

/-- The position at which a total of characters ends, if so many are matched in a row. -/
def landing (d : Direction) (i run k : Nat) : Option Nat :=
  if k ≤ run then some (along d i k) else none

section
variable {i run : Nat} (hend : hits (along d i run) = false)
  (hrun : ∀ k < run, hits (along d i k) = true)

include hend hrun

theorem carries_once : Carries (landing d i run) once (hop d hits) := by
  intro k
  have hnext : along d i (k + 1) = along d (along d i k) 1 := by
    cases d <;> simp only [along] <;> omega
  have hnone {l : Nat} (hl : run < l) : landing d i run l = none := if_neg (Nat.not_le.2 hl)
  rcases Nat.lt_trichotomy k run with hlt | rfl | hgt
  · simp [landing, once, hop, hlt.le, Nat.succ_le_of_lt hlt, hrun k hlt, hnext, Agree.refl]
  · rw [once, List.filterMap_cons_none (hnone (Nat.lt_succ_self k))]
    simp [landing, hop, hend, Agree.refl]
  · rw [hnone hgt, once, List.filterMap_cons_none (hnone (Nat.lt_succ_of_lt hgt))]
    exact .refl _

theorem differs_landing [Properties]
    (h : x.MatchesOne d hits n) {k l a b : Nat} (hk : landing d i run k = some a)
    (hl : landing d i run l = some b) : differs k l = differs a b := by
  obtain ⟨hk, hk'⟩ := Option.ite_none_right_eq_some.1 hk
  obtain ⟨hl, hl'⟩ := Option.ite_none_right_eq_some.1 hl
  cases hk'
  cases hl'
  have hroom : d = .backward → run ≤ i := by
    rintro rfl
    rcases Nat.eq_zero_or_pos run with rfl | hpos
    · exact Nat.zero_le _
    · have hlast := h.next _ (hrun (run - 1) (by omega))
      simp only [HasNext, along] at hlast
      omega
  have hsame : along d i l = along d i k ↔ l = k := by
    cases d with
    | forward => simp [along]
    | backward =>
      have := hroom rfl
      simp only [along]
      omega
  rw [differs, differs, Bool.eq_iff_iff, bne_iff_ne, bne_iff_ne, ne_eq, ne_eq, hsame]

end

/-! ## Ends of quantifiers -/

section
variable {f : Nat → List Nat} {bounds : Bounds} {most : Nat}

/-- Where a quantifier ends. -/
theorem carries_quantifier [Properties]
    (hf : CarriesPosition (x.outcomes n d) f) (hshrinks : Shrinks (x.room d) f)
    (hmost : bounds.max = some most) (greedy : Bool) (lexeme : List Char) :
    CarriesPosition (x.outcomes (.quantifier bounds greedy lexeme n) d)
      (repeated differs f greedy bounds.min (most - bounds.min)) := by
  have hround : CarriesPosition (fun t => x.outcomes n d (t.forget n.groupNumbers)) f :=
    fun t => hf (t.forget n.groupNumbers)
  have hmoves {s t : Moment} {i j : Nat} (hi : some s.position = some i)
      (hj : some t.position = some j) : Moment.moves s t = differs i j := by
    cases hi
    cases hj
    rfl
  have hrepeated := hround.repeated hmoves greedy bounds.min (x.rounds bounds)
  unfold repeated at hrepeated ⊢
  rwa [optional_rounds hshrinks hmost] at hrepeated

/-- What looks the same from both sides comes to the same position first. -/
theorem agree_positions {F : Moment → List Moment} {g : Nat → List Nat} {run : Nat} {s : Moment}
    (hF : CarriesPosition F f) (hg : Carries (landing d s.position run) g f) :
    Agree ((F s).map Moment.position) ((g 0).filterMap (landing d s.position run)) := by
  have hstart : landing d s.position run 0 = some s.position := by
    cases d <;> simp [landing, along]
  have htotals := hg 0
  rw [hstart] at htotals
  rw [← List.filterMap_eq_map]
  exact (hF s).trans htotals.symm

end

variable [Properties]

section
variable {bounds : Bounds} {most : Nat} {s : Moment} {run : Nat}

/-- A quantifier over a character ends where the totals lead, in the order of the totals. -/
theorem agree_trials (h : x.MatchesOne d hits n) (hmost : bounds.max = some most) (greedy : Bool)
    (lexeme : List Char) (hend : hits (along d s.position run) = false)
    (hrun : ∀ k < run, hits (along d s.position k) = true) :
    Agree ((x.outcomes (.quantifier bounds greedy lexeme n) d s).map Moment.position)
      ((NestedQuantifier.trials bounds.min most greedy).filterMap (landing d s.position run)) :=
  agree_positions (carries_quantifier (carries_hop h) (shrinks_hop h) hmost greedy lexeme)
    ((carries_once hend hrun).repeated (differs_landing hend hrun h) greedy _ _)

/-- So does a quantifier over a quantifier. -/
theorem agree_nested_trials {y : NestedQuantifier.Nesting} {b c : Nat}
    (h : x.MatchesOne d hits y.element) (hb : y.inner.max = some b) (hc : y.outer.max = some c)
    (hend : hits (along d s.position run) = false)
    (hrun : ∀ k < run, hits (along d s.position k) = true) :
    Agree ((x.outcomes y.node d s).map Moment.position)
      ((y.trials b c).filterMap (landing d s.position run)) := by
  have hhop := shrinks_hop h
  have hinner := carries_quantifier (carries_hop h) hhop hb y.innerGreedy y.innerLexeme
  rw [← outcomes_sole] at hinner
  have hshrinks := (hhop.forced y.inner.min).andThen (hhop.optional y.innerGreedy (b - y.inner.min))
  have honce := (carries_once hend hrun).repeated (differs_landing hend hrun h) y.innerGreedy
    y.inner.min (b - y.inner.min)
  exact agree_positions (carries_quantifier hinner hshrinks hc y.outerGreedy y.outerLexeme)
    (honce.repeated (differs_landing hend hrun h) y.outerGreedy _ _)

end

/-! ## Characters -/

/-- Whether the next character is in a set. -/
def isNextIn (x : Scene) (d : Direction) (set : CharSet) (i : Nat) : Bool :=
  ((x.input fun _ => none).beside d i).any fun c => decide (c ∈ set)

theorem outcomes_character (h : n.isCharacter = true) (s : Moment) :
    x.outcomes n d s = (x.characterEnds n d s.position).map s.moveTo := by
  cases n <;> first | rfl | cases h

/-- A node that stands for a set matches one character. -/
theorem matchesOne_of_charSet? {set : CharSet} (hn : n.isCharacter = true)
    (hset : n.charSet? x.flags = some set) : x.MatchesOne d (x.isNextIn d set) n := by
  have hends (i : Nat) : x.characterEnds n d i = if x.isNextIn d set i then [along d i 1] else [] := by
    unfold characterEnds isNextIn
    rw [hset]
    dsimp only
    cases (x.input fun _ => none).beside d i with
    | none => rfl
    | some c => cases d <;> simp [along]
  refine ⟨fun s t ht => ?_, fun s => ?_, fun i hi => ?_⟩
  · rw [outcomes_character hn, hends] at ht
    split at ht
    · rw [List.map_singleton, List.mem_singleton] at ht
      rw [ht]
      rfl
    · cases ht
  · rw [outcomes_character hn, hends]
    split <;> simp_all
  · cases hbeside : (x.input fun _ => none).beside d i with
    | none => simp [isNextIn, hbeside] at hi
    | some c =>
      cases d with
      | forward => exact (List.getElem?_eq_some_iff.1 hbeside).1
      | backward =>
        cases i with
        | zero => cases hbeside
        | succ i => exact ⟨Nat.succ_pos i, (List.getElem?_eq_some_iff.1 hbeside).1⟩

end Scene

/-! ## The fix -/

namespace NestedQuantifier

variable {p : Place} {finding : Finding}

theorem nesting_of_replacement? {n : Node} {text : List Char} (h : replacement? n = some text) :
    ∃ x : Nesting, ∃ bounds, n = x.node ∧ x.Merges bounds ∧
      text = merged bounds x.greedy x.element := by
  cases n with
  | quantifier outer outerGreedy outerLexeme element =>
    simp only [replacement?, Option.bind_eq_bind, Option.bind_eq_some_iff] at h
    obtain ⟨⟨inner, innerGreedy, innermost⟩, hsole, h⟩ := h
    unfold sole? at hsole
    split at hsole
    · cases hsole
      split at h
      · obtain ⟨bounds, hbounds, htext⟩ := Option.bind_eq_some_iff.1 h
        cases htext
        exact ⟨⟨outer, outerGreedy, outerLexeme, inner, innerGreedy, _, innermost⟩, bounds, rfl,
          ⟨‹_›, hbounds⟩, rfl⟩
      · cases h
    · cases hsole
  | _ => simp [replacement?] at h

/-- A reported nesting with finite bounds is to be written as one quantifier with the same greatest
total. The two forms try the same totals in the same order exactly if the nesting is orderly; then,
whatever is asked of the position where a match of a single character in them ends, it is the same
position that is found first. -/
theorem same_order_iff_orderly [Properties] (h : finding? p = some finding) :
    ∃ (x : Nesting) (bounds : Bounds), p.node = x.node ∧ x.inner.combine? x.outer = some bounds ∧
      finding.fix = some ⟨p.start, p.stop, merged bounds x.greedy x.element⟩ ∧
      ∀ b d, x.inner.max = some b → x.outer.max = some d →
        bounds.max = some (b * d) ∧
        ((x.trials b d).eraseDups = (trials bounds.min (b * d) x.greedy).eraseDups ↔ x.Orderly) ∧
        (x.Orderly → ∀ (scene : Scene) (direction : Direction) (hits : Nat → Bool),
          scene.MatchesOne direction hits x.element → ∀ lexeme s,
          Agree ((scene.outcomes x.node direction s).map Moment.position)
            ((scene.outcomes (.quantifier bounds x.greedy lexeme x.element) direction s).map
              Moment.position)) := by
  obtain ⟨text, htext, rfl⟩ := Option.map_eq_some_iff.1 h
  obtain ⟨x, bounds, hnode, hmerges, rfl⟩ := nesting_of_replacement? htext
  refine ⟨x, bounds, hnode, hmerges.bounds, rfl, fun b d hb hd => ?_⟩
  have hsame := Nesting.eraseDups_trials_iff hmerges hb hd
  refine ⟨hmerges.max_eq hb hd, hsame, fun horderly scene direction hits hone lexeme s => ?_⟩
  obtain ⟨run, hend, hrun⟩ := Scene.exists_run hone s.position
  have hnested := Scene.agree_nested_trials hone hb hd hend hrun
  have hmerged := Scene.agree_trials hone (hmerges.max_eq hb hd) x.greedy lexeme hend hrun
  have htrials : Agree (x.trials b d) (trials bounds.min (b * d) x.greedy) := fun ok => by
    rw [← find?_eraseDups, hsame.2 horderly, find?_eraseDups]
  exact hnested.trans ((htrials.filterMap _).trans hmerged.symm)

/-- In `(?:a{1,2}){1,2}` the totals are tried from four down, as in `a{1,4}`; so both end at the same
position first, whatever follows. -/
theorem same_order_iff_orderly_letter :
    let bounds : Bounds := ⟨1, some 2, by rintro _ ⟨⟩; decide⟩
    let lexeme := ['{', '1', ',', '2', '}']
    let x : Nesting := ⟨bounds, true, lexeme, bounds, true, lexeme, .character ⟨97, ['a']⟩⟩
    let joined : Bounds := ⟨1, some 4, by rintro _ ⟨⟩; decide⟩
    (∃ finding, finding? ⟨x.node, 0, 0, []⟩ = some finding) ∧ x.Orderly ∧
      (x.trials 2 2).eraseDups = (trials 1 4 true).eraseDups ∧
      let r : Regex := ⟨x.node.text, {}, .choice .whole [.alternative [x.node]]⟩
      ∀ (text : List Char) (s : Moment),
        Agree (((Scene.ofText r text).outcomes x.node .forward s).map Moment.position)
          (((Scene.ofText r text).outcomes (.quantifier joined true joined.toText x.element) .forward
            s).map Moment.position) := by
  intro bounds lexeme x joined
  obtain ⟨finding, hfinding⟩ : ∃ finding, finding? ⟨x.node, 0, 0, []⟩ = some finding := ⟨_, rfl⟩
  obtain ⟨y, merged, hnode, hmerged, -, hsame⟩ := same_order_iff_orderly hfinding
  obtain rfl : x = y := by
    cases y
    cases hnode
    rfl
  obtain rfl : joined = merged := Option.some.inj hmerged
  have horderly : x.Orderly := .inr (.inr (Nat.le_refl 1))
  obtain ⟨-, htrials, hfirst⟩ := hsame 2 2 rfl rfl
  refine ⟨⟨finding, hfinding⟩, horderly, htrials.2 horderly, fun text s => ?_⟩
  obtain ⟨set, hset⟩ : ∃ set, x.element.charSet? {} = some set := ⟨_, rfl⟩
  exact hfirst horderly _ _ _ (Scene.matchesOne_of_charSet? rfl hset) _ s

/-- In `(?:a{2,3}){1,2}` a total of three is tried before one of four, but after it in `a{2,6}`, which
is offered instead. On `aaaa` the one form ends after three letters and the other after four. -/
theorem first_match_differs :
    let source := ['(', '?', ':', 'a', '{', '2', ',', '3', '}', ')', '{', '1', ',', '2', '}']
    let a := Node.character ⟨97, ['a']⟩
    let x : Nesting := ⟨⟨1, some 2, by rintro _ ⟨⟩; decide⟩, true, ['{', '1', ',', '2', '}'],
      ⟨2, some 3, by rintro _ ⟨⟩; decide⟩, true, ['{', '2', ',', '3', '}'], a⟩
    let joined := ['{', '2', ',', '6', '}']
    let y := Node.quantifier ⟨2, some 6, by rintro _ ⟨⟩; decide⟩ true joined a
    let r : Regex := ⟨source, {}, .choice .whole [.alternative [x.node]]⟩
    let scene := Scene.ofText r ['a', 'a', 'a', 'a']
    let start : Moment := ⟨0, fun _ => none⟩
    Regex.parse source {} = .ok r ∧
      (check ⟨r, none⟩).map (·.fix) = [some ⟨0, 15, 'a' :: joined⟩] ∧
      (x.trials 3 2).eraseDups = [6, 5, 3, 4, 2] ∧ (trials 2 6 true).eraseDups = [6, 5, 4, 3, 2] ∧
      ((scene.outcomes x.node .forward start).map Moment.position).head? = some 3 ∧
      ((scene.outcomes y .forward start).map Moment.position).head? = some 4 :=
  ⟨rfl, rfl, by decide, by decide, by decide, by decide⟩

end NestedQuantifier

end RegexAudit
