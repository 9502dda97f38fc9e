import RegexAudit.CharSet.KnownProperties
import RegexAudit.Lint.UselessAssertion
import RegexAudit.Proofs.Removal

/-!
# Verdicts on assertions

An assertion that is reported as always rejecting is never passed, and one that is reported as always
accepting can be taken out. The verdict is read off the characters found around the assertion, and
where the pattern ends, only the end of the input was counted as found. So a verdict is right about
a match that takes the whole input; about other matches it is right if it stays the same when
anything may stand around the match.
-/

namespace RegexAudit

namespace Node

/-- Outside of classes and of negated lookarounds, every node above is matched through its
children. -/
theorem IsPattern.isOpen_of_leads {root : Node} (hroot : root.IsPattern) {trail : List Step}
    {n : Node} (hleads : root.Leads trail n) (hn : n.isClassLevel = false)
    (hnegated : ∀ s ∈ trail, ∀ direction alternatives,
      s.parent ≠ look direction true alternatives) :
    ∀ s ∈ trail, s.parent.isOpen = true := by
  induction trail generalizing n with
  | nil => simp
  | cons s up ih =>
    rw [List.forall_mem_cons] at hnegated ⊢
    obtain ⟨hchild, hup⟩ := hleads
    have hmem := List.mem_of_getElem? hchild
    have hlevel : s.parent.isClassLevel = false := by
      cases hparent : s.parent.isClassLevel with
      | false => rfl
      | true =>
        rw [hroot.classLevel_child hup.hasPart hparent hmem] at hn
        cases hn
    refine ⟨?_, ih hup hlevel hnegated.2⟩
    cases hparent : s.parent with
    | choice _ _ | alternative _ | quantifier _ _ _ _ => rfl
    | look direction negate alternatives =>
      cases negate with
      | false => rfl
      | true => exact absurd hparent (hnegated.1 direction alternatives)
    | edge _ | backreference _ =>
      rw [hparent] at hmem
      cases hmem
    | character _ | range _ _ | shorthand _ | charClass _ _ _ | classExpression _ _
    | classOperation _ _ _ | strings _ | string _ =>
      rw [hparent] at hlevel
      cases hlevel

end Node

namespace UselessAssertion

/-! ## Verdicts are right where the looks hold -/

section
variable {flags : Flags} {x : Input} {d : Direction} {look : Look} {set : CharSet} {a : Nat}

theorem relation?_some {isIn : Bool} (h : relation? look set = some isIn)
    (hlook : look.chars.Sorted) (hset : set.Sorted) (hholds : look.Holds x d a) :
    ∃ c, x.beside d a = some c ∧ (c ∈ set ↔ isIn = true) := by
  unfold relation? at h
  split at h
  · cases h
  · rename_i hedge
    simp only [Bool.or_eq_true, not_or] at hedge
    cases hc : x.beside d a with
    | none =>
      rw [Look.holds_none hc] at hholds
      exact absurd hholds hedge.1
    | some c =>
      rw [Look.holds_some hc] at hholds
      refine ⟨c, rfl, ?_⟩
      split at h
      · rename_i hsubset
        cases h
        exact ⟨fun _ => rfl, fun _ => CharSet.mem_of_isSubset hsubset hholds⟩
      · split at h
        · rename_i hdisjoint
          cases h
          have := CharSet.not_mem_of_isDisjoint hlook hset hdisjoint hholds
          exact ⟨fun hmem => absurd hmem this, nofun⟩
        · cases h

theorem ofBool_eq_accept (accepts : Bool) : Verdict.ofBool accepts = .accept ↔ accepts = true := by
  cases accepts <;> simp [Verdict.ofBool]

theorem lineVerdict?_some {verdict : Verdict} (h : lineVerdict? flags look = some verdict)
    (hlook : look.chars.Sorted) (hholds : look.Holds x d a) :
    x.isLineEdge flags d a ↔ verdict = .accept := by
  unfold lineVerdict? at h
  split at h
  · cases h
  · rename_i hedge
    simp only [Bool.or_eq_true, not_or] at hedge
    split at h
    · rename_i hmultiline
      cases h
      constructor
      · intro hline
        cases hc : x.beside d a with
        | none =>
          rw [Look.holds_none hc] at hholds
          exact absurd hholds hedge.1
        | some c =>
          rw [(hline c hc).1] at hmultiline
          cases hmultiline
      · nofun
    · rename_i hmultiline
      simp only [Bool.not_eq_true', Bool.not_eq_false] at hmultiline
      obtain ⟨isIn, hrelation, rfl⟩ := Option.map_eq_some_iff.1 h
      obtain ⟨c, hc, hmem⟩ := relation?_some hrelation hlook (CharSet.sorted_ofCodes _) hholds
      rw [CharSet.mem_ofCodes Node.isTable_lineTerminators] at hmem
      rw [ofBool_eq_accept, ← hmem, Input.isLineEdge, hc]
      constructor
      · intro hline
        exact (hline c rfl).2
      · intro hin c' hc'
        cases hc'
        exact ⟨hmultiline, hin⟩

theorem sorted_wordSet (flags : Flags) : (wordSet flags).Sorted := by
  unfold wordSet
  simp only
  split
  · exact CharSet.sorted_join (CharSet.sorted_ofCodes _) _
  · exact CharSet.sorted_ofCodes _

theorem mem_wordSet (flags : Flags) (c : Char) :
    c ∈ wordSet flags ↔ Input.isWord flags c = true := by
  have hword : CharSet.IsTable Unicode.wordCharacters := by
    unfold CharSet.IsTable
    decide
  have hfolded : CharSet.IsTable Unicode.foldedWordCharacters := by
    unfold CharSet.IsTable
    decide
  unfold wordSet Input.isWord
  simp only
  split
  · rename_i hflags
    rw [CharSet.mem_join, CharSet.mem_ofCodes hword, CharSet.mem_ofCodes hfolded, hflags,
      Bool.true_and, Bool.or_eq_true]
  · rename_i hflags
    rw [CharSet.mem_ofCodes hword, Bool.eq_false_iff.2 hflags, Bool.false_and, Bool.or_false]

theorem isWordBeside_of_relation {isIn : Bool} (h : relation? look (wordSet flags) = some isIn)
    (hlook : look.chars.Sorted) (hholds : look.Holds x d a) :
    x.isWordBeside flags d a = isIn := by
  obtain ⟨c, hc, hmem⟩ := relation?_some h hlook (sorted_wordSet flags) hholds
  rw [mem_wordSet] at hmem
  rw [Input.isWordBeside, hc, Option.any_some, Bool.eq_iff_iff, hmem]

end

variable [Properties]

/-- The verdict on an assertion, by what follows it in each direction. -/
def verdictBy? (flags : Flags) (look : Direction → Look) : Node → Option Verdict
  | .edge .lineStart => lineVerdict? flags (look .backward)
  | .edge .lineEnd => lineVerdict? flags (look .forward)
  | .edge (.word negate) => do
    let before ← relation? (look .backward) (wordSet flags)
    let after ← relation? (look .forward) (wordSet flags)
    return .ofBool ((before != after) != negate)
  | .look direction negate alternatives => do
    let set ← Node.soleSet? flags alternatives
    let isIn ← relation? (look direction) set
    return .ofBool (isIn != negate)
  | _ => none

/-- The direction an assertion looks in. -/
def directionOf : Node → Direction
  | .look direction _ _ => direction
  | .edge .lineStart => .backward
  | _ => .forward

section
variable {flags : Flags} {x : Input} {look : Direction → Look} {n : Node} {verdict : Verdict}

theorem isClassLevel_of_verdict (h : verdictBy? flags look n = some verdict) :
    n.isClassLevel = false := by
  cases n with
  | edge _ | look _ _ _ => rfl
  | choice _ _ | alternative _ | quantifier _ _ _ _ | backreference _ | character _ | range _ _
  | shorthand _ | charClass _ _ _ | classExpression _ _ | classOperation _ _ _ | strings _
  | string _ => cases h

theorem eq_of_verdict (h : verdictBy? flags look n = some verdict) {i j : Nat}
    (hij : n.spans flags x i j) : i = j := by
  cases n with
  | edge _ | look _ _ _ =>
    rw [Node.spans] at hij
    exact hij.1
  | choice _ _ | alternative _ | quantifier _ _ _ _ | backreference _ | character _ | range _ _
  | shorthand _ | charClass _ _ _ | classExpression _ _ | classOperation _ _ _ | strings _
  | string _ => cases h

/-- Where the looks hold, an assertion accepts if and only if the verdict says so. -/
theorem spans_iff_of_verdict (h : verdictBy? flags look n = some verdict) (hn : n.Plain flags)
    (hsorted : ∀ d, (look d).chars.Sorted) {a b : Nat} (hholds : ∀ d, (look d).Holds x d a) :
    n.spans flags x a b ↔ a = b ∧ verdict = .accept := by
  cases n with
  | edge e =>
    rw [Node.spans, Span.test]
    refine and_congr_right fun _ => ?_
    cases e with
    | lineStart => exact lineVerdict?_some h (hsorted .backward) (hholds .backward)
    | lineEnd => exact lineVerdict?_some h (hsorted .forward) (hholds .forward)
    | word negate =>
      obtain ⟨before, hbefore, h⟩ := Option.bind_eq_some_iff.1 h
      obtain ⟨after, hafter, h⟩ := Option.bind_eq_some_iff.1 h
      cases h
      rw [Edge.holds, isWordBeside_of_relation hbefore (hsorted _) (hholds _),
        isWordBeside_of_relation hafter (hsorted _) (hholds _), ofBool_eq_accept]
      cases before <;> cases after <;> cases negate <;> decide
  | look direction negate alternatives =>
    obtain ⟨set, hset, h⟩ := Option.bind_eq_some_iff.1 h
    obtain ⟨isIn, hisIn, h⟩ := Option.bind_eq_some_iff.1 h
    cases h
    obtain ⟨c, hc, hmem⟩ := relation?_some hisIn (hsorted direction) (hn.soleSet hset).1
      (hholds direction)
    have hseen : (Span.oneOf (Node.spansAll flags x alternatives)).seen direction a
        ↔ isIn = true := by
      rw [Node.seen_soleSet hset, hc, ← hmem]
      simp
    rw [Node.spans, Span.test, hseen, ofBool_eq_accept]
    cases isIn <;> cases negate <;> simp
  | choice _ _ | alternative _ | quantifier _ _ _ _ | backreference _ | character _ | range _ _
  | shorthand _ | charClass _ _ _ | classExpression _ _ | classOperation _ _ _ | strings _
  | string _ => cases h

end

/-! ## Taking an assertion out -/

/-- A lookaround that always accepts, since its content never matches. -/
def neutral (d : Direction) : Node := .look d true []

theorem spans_neutral (d : Direction) (flags : Flags) (x : Input) :
    (neutral d).spans flags x = Span.empty := by
  funext i j
  rw [neutral, Node.spans, Node.spansAll]
  refine propext ⟨fun h => h.1, fun h => ⟨h, ?_⟩⟩
  cases d <;> simp [Span.seen, Span.oneOf]

theorem plain_neutral (d : Direction) (flags : Flags) : (neutral d).Plain flags := by
  refine ⟨rfl, fun m set hm hset => ?_⟩
  rw [(Node.hasPart_leaf rfl).1 hm] at hset
  cases hset

/-- Against the direction it looks in, nothing is known of an assertion. -/
theorem first_neutral {flags : Flags} {look : Direction → Look} {n : Node} {verdict : Verdict}
    (h : verdictBy? flags look n = some verdict) (refs : Path → GroupRef → First) (path : Path) :
    (neutral (directionOf n)).first refs flags (directionOf n).reverse path
      = n.first refs flags (directionOf n).reverse path := by
  cases n with
  | edge e =>
    cases e with
    | lineStart | lineEnd | word _ => rfl
  | look direction negate alternatives =>
    rw [neutral, directionOf, Node.first, Node.first, if_pos (Direction.ne_reverse direction),
      if_pos (Direction.ne_reverse direction)]
  | choice _ _ | alternative _ | quantifier _ _ _ _ | backreference _ | character _ | range _ _
  | shorthand _ | charClass _ _ _ | classExpression _ _ | classOperation _ _ _ | strings _
  | string _ => cases h

/-- An assertion that accepts wherever the characters around it are those that were found may be
replaced by one that always accepts. -/
theorem standsIn_neutral {flags : Flags} {x : Input} {around : Direction → Look}
    {refs : Direction → Path → GroupRef → First} {trail : List Step} {n : Node}
    (h : verdictBy? flags
      (fun d => (Node.afterAround (around d) (refs d) flags d trail n).toLook) n = some .accept)
    (hn : n.Plain flags)
    (hsorted : ∀ d, (Node.afterAround (around d) (refs d) flags d trail n).Sorted) :
    Node.StandsIn around refs flags x (directionOf n) trail n (neutral (directionOf n)) := by
  have haccepts {a b : Nat}
      (hholds : ∀ d, (Node.afterAround (around d) (refs d) flags d trail n).Holds x d a) :
      n.spans flags x a b ↔ a = b := by
    rw [spans_iff_of_verdict h hn (fun d => First.sorted_toLook (hsorted d))
      fun d => First.toLook_holds (hholds d)]
    simp
  refine ⟨plain_neutral _ flags, first_neutral h _, fun i j hij => ?_, ?_⟩
  · rw [spans_neutral]
    exact eq_of_verdict h hij
  · intro a b hab hafter hbefore
    rw [spans_neutral, Span.toward_empty] at hab
    obtain rfl : a = b := hab
    rw [Span.toward_self, haccepts]
    intro d
    by_cases hd : d = directionOf n
    · rw [hd]
      exact hafter
    · rw [Direction.eq_reverse_of_ne hd]
      exact hbefore

/-! ## The rule -/

/-- The verdict on the assertion at a place, if it is known what may stand around the match. -/
def verdictAround? (r : Regex) (around : Direction → Look) (p : Place) : Option Verdict :=
  verdictBy? r.flags
    (fun d => (Node.afterAround (around d) (r.references r.flags d) r.flags d p.trail p.node).toLook)
    p.node

/-- The rule counts on nothing but the end of the input around the match. -/
theorem verdictAround?_onlyEdge (r : Regex) (p : Place) :
    verdictAround? r (fun _ => .onlyEdge) p = verdict? r p := by
  unfold verdictAround? verdict? Regex.lookAfter Regex.after
  simp only [Node.afterAlong_eq_afterAround]
  rfl

end UselessAssertion

/-- What may stand around a match: where it ends with the input only the edge, anything otherwise. -/
def Input.around (x : Input) (i j : Nat) (d : Direction) : Look :=
  match x.beside d (d.far i j) with
  | some _ => .anything
  | none => .onlyEdge

theorem Input.holds_around (x : Input) (i j : Nat) (d : Direction) :
    (x.around i j d).Holds x d (d.far i j) := by
  cases hc : x.beside d (d.far i j) with
  | some c =>
    rw [around, hc]
    exact Look.holds_anything
  | none =>
    rw [around, hc, Look.holds_none hc]
    rfl

theorem Input.sorted_around (x : Input) (i j : Nat) (d : Direction) :
    (x.around i j d).chars.Sorted := by
  unfold around
  split
  · exact CharSet.sorted_all
  · exact CharSet.sorted_empty

/-- A match of the whole input has nothing but the edge around it. -/
theorem Input.around_whole (x : Input) : x.around 0 x.text.length = fun _ => .onlyEdge := by
  funext d
  have hnone : x.beside d (d.far 0 x.text.length) = none := by
    cases d with
    | forward => exact List.getElem?_eq_none (Nat.le_refl _)
    | backward => rfl
  rw [around, hnone]

namespace UselessAssertion

/-- A verdict that stays the same with what is around a match is right about this match: there is
no match through an assertion that always rejects, and one that always accepts can be taken out. -/
theorem verdict_sound [Properties] {source : List Char} {letters : Flags} {r : Regex}
    (hparse : Regex.parse source letters = .ok r) (hreferences : r.root.hasBackreference = false)
    (hsets : ∀ n set, r.root.HasPart n → n.charSet? r.flags = some set →
      set.Sorted ∧ set.complement.Sorted)
    {p : Place} (hp : p ∈ r.walk)
    (hnegated : ∀ s ∈ p.trail, ∀ direction alternatives,
      s.parent ≠ .look direction true alternatives)
    {verdict : Verdict} (hverdict : verdict? r p = some verdict) (x : Input) (i j : Nat)
    (hsame : verdictAround? r (x.around i j) p = verdict? r p) :
    (verdict = .reject → ∀ k l, ¬ r.root.Occurs r.flags x i j p.trail k l) ∧
      (verdict = .accept →
        (r.root.spans r.flags x i j ↔ p.removed.spans r.flags x i j)) := by
  have hroot := (Regex.parse_source hparse).2.2.1
  have hplain : r.root.Plain r.flags := ⟨hreferences, hsets⟩
  have hleads := Node.leads_of_mem_walk hp
  have hby := hsame.trans hverdict
  have hopen := hroot.isOpen_of_leads hleads (isClassLevel_of_verdict hby) hnegated
  have hnode := hplain.of_leads hleads hopen
  have hsorted (d : Direction) : (Node.afterAround (x.around i j d) (r.references r.flags d)
      r.flags d p.trail p.node).Sorted :=
    Node.sorted_afterAround x (x.sorted_around i j d) hplain hleads hopen
  constructor
  · rintro rfl k l hoccurs
    have hspans := Node.spans_of_occurs hleads hoccurs
    obtain rfl := eq_of_verdict hby hspans
    have hholds (d : Direction) : (Node.afterAround (x.around i j d) (r.references r.flags d)
        r.flags d p.trail p.node).toLook.Holds x d k := by
      have hfar : d.far k k = k := by cases d <;> rfl
      apply First.toLook_holds
      have hbeyond : (Node.afterAround (x.around i j d) (r.references r.flags d)
          r.flags d p.trail p.node).Holds x d (d.far k k) :=
        Node.holds_afterAround hroot hplain (x.sorted_around i j d) (x.holds_around i j d)
          hleads hoccurs
      rwa [hfar] at hbeyond
    have := (spans_iff_of_verdict hby hnode (fun d => First.sorted_toLook (hsorted d)) hholds).1
      hspans
    cases this.2
  · rintro rfl
    have hstands := standsIn_neutral (x := x) hby hnode hsorted
    rw [Place.spans_removed hleads (spans_neutral (directionOf p.node) r.flags x)]
    exact hstands.spans_rebuild hroot hplain (x.sorted_around i j) hleads hopen (x.holds_around i j)

open Node in
/-- In `/a\b=/` the boundary always accepts; it can be taken out, also for the match in `xa=y`. -/
theorem verdict_sound_boundary :
    let row : Node :=
      alternative [character ⟨97, ['a']⟩, edge (.word false), character ⟨61, ['=']⟩]
    let r : Regex := ⟨['a', '\\', 'b', '='], .empty, choice .whole [row]⟩
    let p : Place := ⟨edge (.word false), 3, 1, [⟨row, 1, 0, 1⟩, ⟨r.root, 0, 0, 0⟩]⟩
    let x : Input := .ofText ['x', 'a', '=', 'y']
    Regex.parse ['a', '\\', 'b', '='] .empty = .ok r ∧ p ∈ r.walk ∧ verdict? r p = some .accept ∧
      (r.root.spans .empty x 1 3 ↔ p.removed.spans .empty x 1 3) := by
  intro row r p x
  have hparse : Regex.parse ['a', '\\', 'b', '='] .empty = .ok r := rfl
  have hp : p ∈ r.walk := List.mem_of_getElem? (i := 3) rfl
  have hverdict : verdict? r p = some .accept := by decide +kernel
  have hsame : verdictAround? r (x.around 1 3) p = verdict? r p := by decide +kernel
  have hsets : Throughout (fun n => ∀ set, n.charSet? .empty = some set →
      set.Sorted ∧ set.complement.Sorted) r.root := by
    have hletter (letter : Letter) : Throughout (fun n => ∀ set, n.charSet? .empty = some set →
        set.Sorted ∧ set.complement.Sorted) (character letter) := by
      refine throughout_iff.2 ⟨fun set hset => ?_, by simp [children]⟩
      have hapart := Regex.apart_letter hset
      exact ⟨hapart.sorted, CharSet.sorted_complement hapart⟩
    refine throughout_iff.2 ⟨nofun, fun c hc => ?_⟩
    rw [List.mem_singleton.1 hc]
    refine throughout_iff.2 ⟨nofun, ?_⟩
    simp only [row, children, List.forall_mem_cons]
    exact ⟨hletter _, throughout_iff.2 ⟨nofun, by simp [children]⟩, hletter _, by simp⟩
  have hnegated : ∀ s ∈ p.trail, ∀ direction alternatives,
      s.parent ≠ .look direction true alternatives := by
    simp [p, row, r]
  exact ⟨hparse, hp, hverdict, (verdict_sound hparse rfl (fun n set hn => hsets n hn set) hp
    hnegated hverdict x 1 3 hsame).2 rfl⟩

open Node in
/-- A match that ends right after the assertion can be missed where what follows is only looked at.
In `/a\b(?:-|(?=b))/` only the hyphen is found after the boundary, so the verdict is that it always
accepts. But nothing in `ab` is matched, and without the boundary its first letter is. -/
theorem verdict_misses_edge :
    let tail : Node := choice .plain [alternative [character ⟨45, ['-']⟩],
      alternative [look .forward false [alternative [character ⟨98, ['b']⟩]]]]
    let row : Node := alternative [character ⟨97, ['a']⟩, edge (.word false), tail]
    let r : Regex := ⟨['a', '\\', 'b', '(', '?', ':', '-', '|', '(', '?', '=', 'b', ')', ')'],
      .empty, choice .whole [row]⟩
    let p : Place := ⟨edge (.word false), 3, 1, [⟨row, 1, 0, 1⟩, ⟨r.root, 0, 0, 0⟩]⟩
    let x : Input := .ofText ['a', 'b']
    Regex.parse r.source .empty = .ok r ∧ r.root.hasBackreference = false ∧ p ∈ r.walk ∧
      verdict? r p = some .accept ∧
        (∀ j, ¬ r.root.spans .empty x 0 j) ∧ p.removed.spans .empty x 0 1 := by
  intro tail row r p x
  have hparse : Regex.parse r.source .empty = .ok r := rfl
  have hp : p ∈ r.walk := List.mem_of_getElem? (i := 3) rfl
  have hverdict : verdict? r p = some .accept := by decide +kernel
  have ha : (character ⟨97, ['a']⟩).spans .empty x 0 1 := ⟨rfl, 'a', CharSet.mem_singleton 'a', rfl⟩
  have hb : (character ⟨98, ['b']⟩).spans .empty x 1 2 := ⟨rfl, 'b', CharSet.mem_singleton 'b', rfl⟩
  have htail : tail.spans .empty x 1 1 := by
    refine ⟨_, List.mem_cons_of_mem _ List.mem_cons_self, 1, ⟨rfl, ?_⟩, rfl⟩
    exact iff_of_true ⟨2, _, List.mem_singleton_self _, 2, hb, rfl⟩ rfl
  refine ⟨hparse, rfl, hp, hverdict, ?_, ?_⟩
  · rintro j ⟨_, hrow, hj⟩
    obtain rfl := List.mem_singleton.1 hrow
    obtain ⟨k, ⟨rfl, -⟩, l, ⟨-, hword⟩, -⟩ := hj
    -- both `a` and `b` are part of a word
    have hinside : (x.isWordBeside .empty .backward 1 != x.isWordBeside .empty .forward 1) = false :=
      rfl
    exact absurd (hinside.symm.trans hword) (by decide)
  · rw [Place.spans_removed (leads_of_mem_walk hp) (spans_neutral .forward .empty x)]
    exact ⟨_, List.mem_singleton_self _, 1, ha, 1, by rw [spans_neutral]; rfl, 1, htail, rfl⟩

end UselessAssertion

end RegexAudit
