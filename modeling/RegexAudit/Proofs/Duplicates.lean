import RegexAudit.CharSet.KnownProperties
import RegexAudit.Lint.DuplicateAlternative
import RegexAudit.Proofs.Captures
import RegexAudit.Proofs.Coverage
import RegexAudit.Proofs.Equality
import RegexAudit.Proofs.Reread

/-!
# Useless alternatives are useless

If an alternative is reported, the earlier alternative that the report names can match every stretch
that the reported one can, from the same moment of a match, captures included.

Two things have to be granted, for these two alternatives:

* No reference leads into the alternative it stands in. References are compared by the groups they
  lead to, and one group cannot stand in both alternatives: in `(a)\1|(a)\1` the second reference
  leads to a group that has captured nothing.
* Letters that are equal in upper case are in one case class (`Node.CasesAgree`).
-/

namespace RegexAudit

namespace Node

/-- No reference in the tree leads to a group in it. -/
def RefersOut (resolve? : GroupRef → Option Nat) (n : Node) : Prop :=
  ∀ ref g, n.HasPart (.backreference ref) → resolve? ref = some g → ¬ n.HasGroup g

theorem hasBackreference_of_isCharacter {n : Node} (h : n.isCharacter = true) :
    n.hasBackreference = false := by
  cases n <;> first | rfl | cases h

end Node

open Pattern

namespace Scene

variable [Properties] {x : Scene} {setting : Setting} {limit : Nat} {n m : Node}

/-- A comparison of two parts of one pattern can be relied on. -/
theorem faithful (hn : AllTold setting limit n) (hm : AllTold setting limit m)
    (hcases : Node.CasesAgree x.flags n m) (captures : Captures) {byText : Bool}
    (hbyText : byText = true → n.hasBackreference = false ∧ m.hasBackreference = false) :
    Comparison.Faithful { flags := x.flags, resolve? := some x.resolve?, byText }
      (x.input captures) n.HasTerm m.HasTerm where
  hook := fun _ _ => rfl
  left := Node.hereditary_hasTerm n
  right := Node.hereditary_hasTerm m
  texts := by
    intro a b ha hb h hsame
    have hkind : a.kind = b.kind := by
      simp only [Comparison.sameText, Bool.and_eq_true, beq_iff_eq] at hsame
      exact hsame.1.1
    have hreferences : a.hasBackreference = false ∧ b.hasBackreference = false := by
      rcases h with h | h
      · obtain ⟨hn', hm'⟩ := hbyText h
        exact ⟨Node.hasBackreference_of_hasTerm hn' ha, Node.hasBackreference_of_hasTerm hm' hb⟩
      · exact ⟨Node.hasBackreference_of_isCharacter h.1,
          Node.hasBackreference_of_isCharacter (Node.isCharacter_of_kind hkind h.1)⟩
    exact spans_of_sameText (hn a ha) (hm b hb) hreferences.1 hreferences.2 hsame x.flags _
  letters := fun _ _ hy hz hsame => hcases.spans_eq hy hz hsame _
  references := by
    intro y z hy hz h
    have hsame : x.resolve? y = x.resolve? z := eq_of_beq (Bool.and_eq_true_iff.1 h).2
    simp only [input, captured, hsame]

/-- Parts of one pattern that count as equal match the same. -/
theorem spans_of_equal (hn : AllTold setting limit n) (hm : AllTold setting limit m)
    (hcases : Node.CasesAgree x.flags n m) (captures : Captures)
    (h : Comparison.equal { flags := x.flags, resolve? := some x.resolve? } n m = true) :
    n.spans x.flags (x.input captures) = m.spans x.flags (x.input captures) := by
  refine Comparison.spans_of_same (faithful hn hm hcases captures fun hbyText => ?_) n m .self .self h
  simpa using hbyText

/-- A part of one pattern that covers another one matches all that the other one matches. -/
theorem spans_of_covers (hn : AllTold setting limit n) (hm : AllTold setting limit m)
    (hcases : Node.CasesAgree x.flags n m) (captures : Captures)
    (h : Coverage.covers { flags := x.flags, resolve? := some x.resolve? } n m = true) {i j : Nat}
    (hij : m.spans x.flags (x.input captures) i j) : n.spans x.flags (x.input captures) i j := by
  refine Span.covered_iff.1 (Coverage.covered_of_covers (fun a b ha hb hab => ?_) h) i j hij
  exact spans_of_equal (hn.of_hasTerm ha) (hm.of_hasTerm hb) (hcases.of_hasTerm ha hb) captures hab

end Scene

namespace DuplicateAlternative

variable {r : Regex} {p : Place} {n : Node}

/-- Only a group or a lookaround has alternatives, and they are its children. -/
theorem alternatives_eq_children {group : Node} (h : n ∈ group.alternatives) :
    group.isClassLevel = false ∧ group.isCharacter = false ∧ group.alternatives = group.children := by
  cases group with
  | choice _ _ | look _ _ _ => exact ⟨rfl, rfl, rfl⟩
  | _ => cases h

/-- The alternatives of a group are told by their texts. -/
theorem allTold_of_earlier {source : List Char} {flags : Flags}
    (hparse : Regex.parse source flags = .ok r) (hp : p ∈ r.walk) (hn : n ∈ earlier p) :
    ∃ setting limit, AllTold setting limit n ∧ AllTold setting limit p.node := by
  obtain ⟨setting, limit, htold⟩ := Regex.allTold hparse
  obtain ⟨-, -, hpattern, -⟩ := Regex.parse_source hparse
  have hleads := Node.leads_of_mem_walk hp
  unfold earlier at hn
  split at hn
  · rename_i s up htrail
    rw [htrail] at hleads
    obtain ⟨hslot, hup⟩ := hleads
    have hmem := List.mem_of_mem_take hn
    obtain ⟨hclass, hcharacter, hchildren⟩ := alternatives_eq_children hmem
    have hparent := hpattern.hasTerm hup.hasPart hclass
    rw [hchildren] at hmem
    exact ⟨setting, limit, htold _ _ hparent hcharacter hmem,
      htold _ _ hparent hcharacter (List.mem_of_getElem? hslot)⟩
  · cases hn

/-- A report names an earlier alternative that is equal to the reported one or covers it. -/
theorem finding?_cases [Properties] {subsets : Bool} {finding : Finding}
    (h : finding? r subsets p = some finding) : ∃ n ∈ earlier p,
      (finding.message = duplicateMessage n ∧
        Comparison.equal { flags := r.flags, resolve? := some r.resolve? } n p.node = true) ∨
      (finding.message = subsetMessage n ∧
        Coverage.covers { flags := r.flags, resolve? := some r.resolve? } n p.node = true) := by
  unfold finding? at h
  simp only at h
  split at h
  · rename_i n hn
    cases h
    exact ⟨n, List.mem_of_find?_eq_some hn, .inl ⟨rfl, by simpa using List.find?_some hn⟩⟩
  · split at h
    · obtain ⟨n, hn, rfl⟩ := Option.map_eq_some_iff.1 h
      exact ⟨n, List.mem_of_find?_eq_some hn, .inr ⟨rfl, by simpa using List.find?_some hn⟩⟩
    · cases h

/-- A reported alternative is useless: the earlier alternative that the report names can match every
stretch that it can match, from every position and with every capture so far. -/
theorem finding_useless [Properties] {source : List Char} {letters : Flags}
    (hparse : Regex.parse source letters = .ok r) (hp : p ∈ r.walk) {subsets : Bool}
    {finding : Finding} (h : finding? r subsets p = some finding) :
    ∃ n ∈ earlier p,
      (finding.message = duplicateMessage n ∨ finding.message = subsetMessage n) ∧
      (n.RefersOut r.resolve? → p.node.RefersOut r.resolve? → n.CasesAgree r.flags p.node →
        ∀ x : Scene, x.flags = r.flags → x.resolve? = r.resolve? →
          ∀ (d : Direction) (s : Moment), x.Fits s.position →
            ∀ t ∈ x.outcomes p.node d s, ∃ t' ∈ x.outcomes n d s, t'.position = t.position) := by
  obtain ⟨n, hn, hfound⟩ := finding?_cases h
  obtain ⟨setting, limit, htold, htoldp⟩ := allTold_of_earlier hparse hp hn
  refine ⟨n, hn, hfound.imp And.left And.left, ?_⟩
  intro hout houtp hcases x hflags hresolve d s hs t ht
  rw [← hflags] at hcases
  rw [← hresolve] at hout houtp
  rw [← hflags, ← hresolve] at hfound
  have hspan : ∀ i j, p.node.spans x.flags (x.input s.captures) i j →
      n.spans x.flags (x.input s.captures) i j := by
    intro i j hij
    rcases hfound with ⟨-, hequal⟩ | ⟨-, hcovers⟩
    · rwa [Scene.spans_of_equal htold htoldp hcases s.captures hequal]
    · exact Scene.spans_of_covers htold htoldp hcases s.captures hcovers hij
  have hend := (Scene.outcomes_iff_spans houtp d hs t.position).1 ⟨t, ht, rfl⟩
  refine (Scene.outcomes_iff_spans hout d hs t.position).2 ?_
  cases d with
  | forward => exact hspan _ _ hend
  | backward => exact hspan _ _ hend

open Node in
/-- In `/(a)(?:\1|\1)/` the second reference is reported, and at the end of `aa` it ends where the
first one does. -/
theorem finding_useless_reference :
    let reference : Node := alternative [backreference (.index 1)]
    let group : Node := choice .plain [reference, reference]
    let row : Node := alternative
      [choice (.capture 1 none) [alternative [character ⟨97, ['a']⟩]], group]
    let r : Regex := ⟨['(', 'a', ')', '(', '?', ':', '\\', '1', '|', '\\', '1', ')'],
      .empty, choice .whole [row]⟩
    let p : Place := ⟨reference, 8, 9, [⟨group, 5, 3, 1⟩, ⟨row, 1, 0, 1⟩, ⟨r.root, 0, 0, 0⟩]⟩
    let x : Scene := .ofText r ['a', 'a']
    let s : Moment := ⟨1, fun _ => some (0, 1)⟩
    Regex.parse r.source .empty = .ok r ∧ p ∈ r.walk ∧ (finding? r false p).isSome = true ∧
      (x.outcomes p.node .forward s).map (·.position) = [2] ∧
      ∃ t' ∈ x.outcomes reference .forward s, t'.position = 2 := by
  intro reference group row r p x s
  have hparse : Regex.parse r.source .empty = .ok r := rfl
  have hp : p ∈ r.walk := List.mem_of_getElem? (i := 8) rfl
  have hfound : (finding? r false p).isSome = true := by decide +kernel
  obtain ⟨finding, hfinding⟩ := Option.isSome_iff_exists.1 hfound
  have hends : (x.outcomes p.node .forward s).map (·.position) = [2] := by decide +kernel
  obtain ⟨t, ht, hposition⟩ := List.mem_map.1 (hends ▸ List.mem_singleton.2 rfl)
  have hout : reference.RefersOut r.resolve? := by
    rintro ref g - - ⟨name, alternatives, hpart⟩
    rcases hasPart_iff.1 hpart with heq | ⟨c, hc, hpart⟩
    · exact nomatch (heq : _ = Node.alternative [backreference (.index 1)])
    · rw [List.mem_singleton.1 hc, hasPart_leaf rfl] at hpart
      cases hpart
  obtain ⟨n, hn, -, huseless⟩ := finding_useless hparse hp hfinding
  obtain rfl : n = reference := List.mem_singleton.1 hn
  have hfits : x.Fits s.position := Nat.le_succ 1
  obtain ⟨t', ht', hsame⟩ := huseless hout hout nofun x rfl rfl .forward s hfits t ht
  exact ⟨hparse, hp, hfound, hends, t', ht', hsame.trans hposition⟩

open Node in
/-- References that lead into the alternatives break this. In `/(a)\1|(a)\1/` the second alternative
is reported, but it matches the first letter of `ab`, and the first alternative matches nothing
there. -/
theorem finding_reaches_further :
    let letter : Node := alternative [character ⟨97, ['a']⟩]
    let first : Node := alternative [choice (.capture 1 none) [letter], backreference (.index 1)]
    let second : Node := alternative [choice (.capture 2 none) [letter], backreference (.index 1)]
    let r : Regex := ⟨['(', 'a', ')', '\\', '1', '|', '(', 'a', ')', '\\', '1'], .empty,
      choice .whole [first, second]⟩
    let p : Place := ⟨second, 6, 6, [⟨r.root, 0, 0, 1⟩]⟩
    let x : Scene := .ofText r ['a', 'b']
    let s : Moment := ⟨0, fun _ => none⟩
    Regex.parse r.source .empty = .ok r ∧ p ∈ r.walk ∧ earlier p = [first] ∧
      (finding? r false p).isSome = true ∧
      (x.outcomes p.node .forward s).map (·.position) = [1] ∧
      (x.outcomes first .forward s).map (·.position) = [] := by
  intro letter first second r p x s
  have hp : p ∈ r.walk := List.mem_of_getElem? (i := 6) rfl
  exact ⟨rfl, hp, rfl, by decide +kernel, by decide +kernel, by decide +kernel⟩

end DuplicateAlternative

end RegexAudit
