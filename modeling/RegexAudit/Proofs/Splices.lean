import Mathlib.Data.Nat.Digits.Defs
import RegexAudit.Lint.Fix
import RegexAudit.Proofs.Passages
import RegexAudit.Proofs.Seams

/-!
# Replacing parts of a pattern

A fix cuts a source at byte offsets, and puts a text between the ends:

    fix.Cuts source front text back → fix.result? source = some (front ++ fix.text ++ back)

What comes of it is a pattern if a run goes along all of it. The run along the old source, up to the
cut, is taken again before the new text (`parses_of_joined`):

    Run ⟨[], none, front ++ v⟩ before ⟨opened, none, v⟩
      → Run ⟨opened, none, w⟩ after finished → front ++ w is parsed

The groups on both sides of the cut have to be all that references need. `Mends` says what a fix of a
parsed pattern does.
-/

namespace RegexAudit

open Node

/-! ## Cutting the source -/

/-- A fix takes `text` out of the source. -/
structure Fix.Cuts (fix : Fix) (source front text back : List Char) : Prop where
  source : source = front ++ text ++ back
  start : fix.start = Text.width front
  stop : fix.stop = Text.width (front ++ text)

theorem Fix.Cuts.result? {fix : Fix} {source front text back : List Char}
    (h : fix.Cuts source front text back) :
    fix.result? source = some (front ++ fix.text ++ back) := by
  rw [Fix.result?, Text.replace?, h.source, h.start, h.stop, Text.cut?_width (front ++ text) back,
    List.append_assoc, Text.cut?_width]
  rfl

/-- The offsets of a fix say what is before it and what is after it. -/
theorem Fix.Cuts.unique {fix : Fix} {source front text back front' text' back' : List Char}
    (h : fix.Cuts source front text back) (h' : fix.Cuts source front' text' back') :
    front = front' ∧ text = text' ∧ back = back' := by
  have hcut (start : List Char) (later : List Char) (hsource : source = start ++ later) :
      Text.cut? (Text.width start) source = some (start, later) := by
    rw [hsource, Text.cut?_width]
  have hfront := hcut front (text ++ back) (by rw [h.source, List.append_assoc])
  have hfront' := hcut front' (text' ++ back') (by rw [h'.source, List.append_assoc])
  have hback := hcut (front ++ text) back h.source
  have hback' := hcut (front' ++ text') back' h'.source
  rw [← h.start] at hfront
  rw [← h'.start, hfront] at hfront'
  rw [← h.stop] at hback
  rw [← h'.stop, hback] at hback'
  obtain ⟨rfl, htext⟩ := Prod.mk.inj (Option.some.inj hfront')
  obtain ⟨-, rfl⟩ := Prod.mk.inj (Option.some.inj hback')
  exact ⟨rfl, List.append_cancel_right htext, rfl⟩

/-! ## Quantifiers written anew -/

theorem Bounds.combine?_le {inner outer bounds : Bounds} (h : inner.combine? outer = some bounds) :
    bounds.min ≤ Bounds.limit ∧ ∀ m, bounds.max = some m → m ≤ Bounds.limit := by
  unfold Bounds.combine? at h
  split at h
  · cases h
  · split at h
    · cases h
    · rename_i hmin
      simp only at h
      split at h
      · cases h
      · rename_i hmax
        cases htotal : inner.totalMax outer with
        | none =>
          rw [htotal] at h
          cases h
          exact ⟨Nat.le_of_not_lt hmin, nofun⟩
        | some m =>
          rw [htotal] at h hmax
          simp only [Bounds.make?] at h
          split at h
          · cases h
            refine ⟨Nat.le_of_not_lt hmin, ?_⟩
            rintro _ ⟨⟩
            simpa using hmax
          · cases h

theorem Bounds.exists_toText_cons (bounds : Bounds) :
    ∃ c tail, bounds.toText = c :: tail ∧ c ∈ ['*', '+', '?', '{'] := by
  unfold Bounds.toText
  split
  · exact ⟨_, _, rfl, by decide⟩
  · exact ⟨_, _, rfl, by decide⟩
  · exact ⟨_, _, rfl, by decide⟩
  · exact ⟨_, _, rfl, by decide⟩
  · split <;> exact ⟨_, _, rfl, by decide⟩

namespace Lexeme

theorem numeral_toDigits (n : Nat) : numeral 10 (Nat.toDigits 10 n) = n := by
  calc numeral 10 (Nat.toDigits 10 n) = Nat.ofDigitChars 10 (Nat.toDigits 10 n) 0 := by
        refine List.foldl_ext _ _ _ fun a d hd => ?_
        have hdigit := Nat.isDigit_of_mem_toDigits (by decide) (by decide) hd
        rw [digitValue, if_pos hdigit, Nat.mul_comm]
    _ = n := Nat.ofDigitChars_toDigits (by decide) (by decide)

theorem count?_toDigits {n : Nat} (hn : n ≤ Bounds.limit) {c : Char} (hc : c.isDigit = false)
    (r : List Char) : count? (Nat.toDigits 10 n ++ c :: r) = some (n, c :: r) := by
  have hdigits : ∀ d ∈ Nat.toDigits 10 n, d.isDigit = true := fun d hd =>
    Nat.isDigit_of_mem_toDigits (by decide) (by decide) hd
  have hdecimal : decimal? (Nat.toDigits 10 n ++ []) = some (n, []) := by
    rw [List.append_nil]
    refine decimal?_eq_some.2 ⟨?_, ?_, ?_⟩
    · rw [List.takeWhile_eq_self_iff.2 hdigits]
      exact Nat.toDigits_ne_nil
    · rw [List.takeWhile_eq_self_iff.2 hdigits, numeral_toDigits]
    · exact (List.dropWhile_eq_nil_iff.2 hdigits).symm
  have hstop : (c :: r).head?.any Char.isDigit = false := hc
  rw [count?, decimal?_joined hdecimal hstop, Option.map_some]
  simp only [Nat.min_eq_left hn]

section
variable {bounds : Bounds} (hmin : bounds.min ≤ Bounds.limit)
  (hmax : ∀ m, bounds.max = some m → m ≤ Bounds.limit)

include hmin hmax

/-- The text of bounds is read as these bounds. -/
theorem counts_toText (r : List Char) :
    Counts (bounds.toText ++ r) (bounds.min, bounds.max) r := by
  obtain ⟨min, max, hordered⟩ := bounds
  have hcount {n : Nat} (hn : n ≤ Bounds.limit) (c : Char) (w : List Char)
      (hc : c.isDigit = false) :
      count? (Nat.toDigits 10 n ++ c :: w ++ r) = some (n, c :: (w ++ r)) := by
    rw [List.append_assoc]
    exact count?_toDigits hn hc _
  unfold Bounds.toText
  simp only at hmin hmax ⊢
  split
  · exact .star r
  · exact .plus r
  · exact .optional r
  · exact .atLeast (hcount hmin ',' ['}'] rfl)
  · rename_i most _
    split
    · rename_i heq
      subst heq
      exact .exactly (hcount hmin '}' [] rfl)
    · rw [List.append_assoc ('{' :: _)]
      exact .between (hcount hmin ',' (Nat.toDigits 10 most ++ ['}']) rfl)
        (hcount (hmax _ rfl) '}' [] rfl)

theorem quantifier?_toText (setting : Setting) (greedy : Bool) {r : List Char}
    (hr : r.head? ≠ some '?') :
    quantifier? setting (bounds.toText ++ (if greedy then [] else ['?']) ++ r) =
      .ok (some (bounds, greedy), r) := by
  have hmake : Bounds.make? bounds.min bounds.max = some bounds := by
    obtain ⟨min, max, hordered⟩ := bounds
    cases max with
    | none => rfl
    | some m => exact dif_pos (hordered m rfl)
  rw [List.append_assoc]
  have hcounts := counts_toText hmin hmax
  cases greedy with
  | true => exact quantifier?_eq_some.2 (.greedy (hcounts r) hmake hr)
  | false => exact quantifier?_eq_some.2 (.lazy (hcounts ('?' :: r)) hmake)

end

end Lexeme

namespace Pattern

/-! ## Texts put together -/

section
variable {flags : Flags} {labels before ms : List (Option (List Char))} {setting : Setting}
  {limit : Nat} {opened : List Bool} {front v w : List Char}

/-- The beginning of a pattern and a run from there on are a pattern again. -/
theorem parses_of_joined (hwithin : (settingFor flags labels).Within setting)
    (hlimit : nestingLimit = limit + 1)
    (hrun : Run setting limit (Sound labels) ⟨[], none, front ++ v⟩ before ⟨opened, none, v⟩)
    (hseam : Seam setting.strict front w) (hc : v.head? ≠ some 'c')
    (hfinishes : Finishes flags labels limit ⟨opened, none, w⟩ ms)
    (hlabels : before ++ ms = labels) (hdistinct : (labels.filterMap id).Nodup) :
    ∃ r, Regex.parse (front ++ w) flags = .ok r := by
  have hbase : Finishes flags labels limit ⟨opened ++ [], none, w⟩ ms := by rwa [List.append_nil]
  have hjoined := hrun.joined hwithin (Nat.le_refl limit) rfl hseam hc hbase
  rw [hlabels] at hjoined
  exact hjoined.parses hlimit hdistinct

theorem within_of_sublist {flags : Flags} {labels labels' : List (Option (List Char))}
    (h : labels'.Sublist labels) : (settingFor flags labels').Within (settingFor flags labels) where
  flags := rfl
  groups := h.length_le
  named hnamed := by
    obtain ⟨label, hmem, hsome⟩ := List.any_eq_true.1 hnamed
    exact List.any_eq_true.2 ⟨label, h.subset hmem, hsome⟩

end

/-! ## Fixes of parsed patterns -/

section
variable {r : Regex} {p : Place} {fix : Fix}

/-- References are to groups that there are, unless a string of a class holds a bare bracket. -/
def Settled (r : Regex) (n : Node) : Prop :=
  (∀ p ∈ r.walk, p.node.holdsBracket = false) → Sound r.root.labels n

/-- The fix can be applied, and the result is a pattern if no string of a class holds a bare bracket
and, where the new text can join what is around it, it does not. -/
def Mends (r : Regex) (fix : Fix) (joins : Prop) : Prop :=
  ∃ front text back, fix.Cuts r.source front text back ∧
    ((∀ p ∈ r.walk, p.node.holdsBracket = false) →
      (joins → Seam r.flags.unicodeMode front (fix.text ++ back) ∧
        Seam r.flags.unicodeMode (front ++ fix.text) back) →
      ∃ r', Regex.parse (front ++ fix.text ++ back) r.flags = .ok r')

theorem Mends.imp {joins joins' : Prop} (h : Mends r fix joins) (hjoins : joins → joins') :
    Mends r fix joins' := by
  obtain ⟨front, text, back, hcuts, hmends⟩ := h
  exact ⟨front, text, back, hcuts, fun hbare hseams => hmends hbare fun hj => hseams (hjoins hj)⟩

theorem Route.Passage.cuts {x : Route} (a : x.Passage p) {front : List Char}
    (hsource : x.source = front ++ a.s.rest) (hstart : Text.width front = p.start)
    (text : List Char) : Fix.Cuts ⟨p.start, p.stop, text⟩ x.source front p.node.text a.s'.rest where
  source := by rw [hsource, a.text, List.append_assoc]
  start := hstart.symm
  stop := by rw [Place.stop, Text.width_append, hstart, Node.width_eq]

variable (hparse : Regex.parse r.source r.flags = .ok r)

include hparse

theorem stands_settled : ∀ p ∈ r.walk, (Route.ofRegex r (Settled r)).Stands p :=
  Route.stands_of_parse hparse fun n hn hbare => (sound_of_parse hparse hbare).2 n hn

namespace Route.Passage

variable (a : (ofRegex r (Settled r)).Passage p)
  (hbare : ∀ p ∈ r.walk, p.node.holdsBracket = false)

include hbare

theorem finishes : Finishes r.flags r.root.labels (nestingLimit - 1)
    ⟨a.opened, a.pending, a.s'.rest⟩ a.after := by
  have hrun : Pattern.Run (settingOf r.flags r.source) (nestingLimit - 1) (Sound r.root.labels) _ _ _ :=
    a.leaves.mono fun n hn => hn hbare
  rwa [(sound_of_parse hparse hbare).1] at hrun

end Route.Passage

/-- What a run comes to is replaced by something else that a run can go on with. -/
theorem parses_of_run {front v w : List Char} {opened : List Bool}
    {before ms : List (Option (List Char))}
    (hbare : ∀ p ∈ r.walk, p.node.holdsBracket = false)
    (hrun : (Route.ofRegex r (Settled r)).Run ⟨[], none, r.source⟩ before ⟨opened, none, v⟩)
    (hsource : r.source = front ++ v) (hseam : Seam r.flags.unicodeMode front w)
    (hhead : v.head? ≠ some 'c')
    (hfinishes : Finishes r.flags r.root.labels (nestingLimit - 1) ⟨opened, none, w⟩ ms)
    (hlabels : before ++ ms = r.root.labels) :
    ∃ r', Regex.parse (front ++ w) r.flags = .ok r' := by
  have hsound : Run (settingOf r.flags r.source) (nestingLimit - 1) (Sound r.root.labels)
      ⟨[], none, r.source⟩ before ⟨opened, none, v⟩ := hrun.mono fun n hn => hn hbare
  rw [(sound_of_parse hparse hbare).1, hsource] at hsound
  exact parses_of_joined (.refl _) rfl hsound hseam hhead hfinishes hlabels (nodup_labels hparse)

end

end Pattern

end RegexAudit
