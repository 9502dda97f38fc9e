import Mathlib.Data.List.Nodup
import Mathlib.Data.List.Perm.Basic
import Mathlib.Data.Set.List
import RegexAudit.Proofs.Parsed

/-!
# Literals

A literal that is written is read back as what it was written from, errors included:

    Flags.read letters = .ok flags →
      Regex.ofLiteral (Regex.toLiteral ⟨source, flags, root⟩) = Regex.parse source flags

The source may hold slashes, also at its end, for no flag is written as one: the last slash of a
literal is always the one before its flags (`splitAtLastSlash?_append`). What can stand after it are
the letters that flags are written with, in any order (`read_eq_ok_iff`).
-/

namespace RegexAudit

namespace Flag

theorem mem_all (f : Flag) : f ∈ all := by cases f <;> decide

theorem letter_injective : Function.Injective letter := by
  intro f g h
  cases f <;> cases g <;> first | rfl | cases h

theorem ofLetter?_eq_some {c : Char} {f : Flag} : ofLetter? c = some f ↔ f.letter = c := by
  constructor
  · intro h
    simpa using List.find?_some h
  · rintro rfl
    cases f <;> rfl

end Flag

namespace Flags

/-- The letters of all flags, in the order in which they are written. -/
def alphabet : List Char := ['d', 'g', 'i', 'm', 's', 'u', 'v', 'y']

theorem map_letter_all : Flag.all.map Flag.letter = alphabet := rfl

theorem has_add (flags : Flags) (f g : Flag) :
    (flags.add f).has g = (flags.has g || decide (g = f)) := by
  cases f <;> cases g <;> simp [add, has]

theorem has_foldl_add (flags : Flags) (fs : List Flag) (g : Flag) :
    (fs.foldl add flags).has g = (flags.has g || decide (g ∈ fs)) := by
  induction fs generalizing flags with
  | nil => simp
  | cons f fs ih =>
    rw [List.foldl_cons, ih, has_add, Bool.or_assoc]
    simp

theorem has_foldl_empty (fs : List Flag) (g : Flag) :
    (fs.foldl add empty).has g = decide (g ∈ fs) := by
  rw [has_foldl_add]
  cases g <;> rfl

theorem eq_of_has {flags flags' : Flags} (h : ∀ f, flags.has f = flags'.has f) : flags = flags' := by
  cases flags
  cases flags'
  congr
  · exact h .hasIndices
  · exact h .global
  · exact h .ignoreCase
  · exact h .multiline
  · exact h .dotAll
  · exact h .unicode
  · exact h .unicodeSets
  · exact h .sticky

/-! ## Letters in any order -/

/-- Letters can be added if they are those of distinct flags that are not set. -/
theorem addLetters_eq_ok_iff {flags flags' : Flags} {offset : Nat} {letters : List Char} :
    addLetters flags offset letters = .ok flags' ↔
      ∃ fs : List Flag, letters = fs.map Flag.letter ∧ fs.Nodup ∧ (∀ f ∈ fs, flags.has f = false) ∧
        flags' = fs.foldl add flags := by
  induction letters generalizing flags offset with
  | nil =>
    constructor
    · intro h
      cases h
      exact ⟨[], rfl, .nil, nofun, rfl⟩
    · rintro ⟨fs, hletters, -, -, rfl⟩
      obtain rfl : fs = [] := List.map_eq_nil_iff.1 hletters.symm
      rfl
  | cons c letters ih =>
    have hfirst {fs : List Flag} (h : c :: letters = fs.map Flag.letter) :
        ∃ f gs, fs = f :: gs ∧ Flag.ofLetter? c = some f ∧ letters = gs.map Flag.letter := by
      obtain ⟨f, gs, rfl, hf, hgs⟩ := List.map_eq_cons_iff.1 h.symm
      exact ⟨f, gs, rfl, Flag.ofLetter?_eq_some.2 hf, hgs.symm⟩
    rw [addLetters]
    cases hc : Flag.ofLetter? c with
    | none =>
      refine iff_of_false nofun ?_
      rintro ⟨fs, hletters, -⟩
      obtain ⟨f, gs, -, hf, -⟩ := hfirst hletters
      rw [hf] at hc
      cases hc
    | some f =>
      simp only
      split
      · rename_i hset
        refine iff_of_false nofun ?_
        rintro ⟨fs, hletters, -, hunset, -⟩
        obtain ⟨g, gs, rfl, hg, -⟩ := hfirst hletters
        obtain rfl : f = g := Option.some.inj (hc.symm.trans hg)
        rw [hunset f (List.mem_cons_self ..)] at hset
        cases hset
      · rename_i hunset
        rw [Bool.not_eq_true] at hunset
        rw [ih]
        constructor
        · rintro ⟨gs, rfl, hnodup, hgs, rfl⟩
          simp only [has_add, Bool.or_eq_false_iff, decide_eq_false_iff_not] at hgs
          refine ⟨f :: gs, ?_, List.nodup_cons.2 ⟨fun hmem => (hgs f hmem).2 rfl, hnodup⟩,
            List.forall_mem_cons.2 ⟨hunset, fun g hg => (hgs g hg).1⟩, rfl⟩
          rw [List.map_cons, Flag.ofLetter?_eq_some.1 hc]
        · rintro ⟨fs, hletters, hnodup, hfs, rfl⟩
          obtain ⟨g, gs, rfl, hg, rfl⟩ := hfirst hletters
          obtain rfl : f = g := Option.some.inj (hc.symm.trans hg)
          rw [List.nodup_cons] at hnodup
          rw [List.forall_mem_cons] at hfs
          refine ⟨gs, rfl, hnodup.2, fun g hg => ?_, rfl⟩
          rw [has_add, hfs.2 g hg, Bool.false_or, decide_eq_false_iff_not]
          exact fun heq => hnodup.1 (heq ▸ hg)

/-- Flags are read from their letters, each of them once, if they do not exclude each other. -/
theorem read_iff {letters : List Char} {flags : Flags} :
    read letters = .ok flags ↔ ¬(flags.unicode = true ∧ flags.unicodeSets = true) ∧
      ∃ fs : List Flag, letters = fs.map Flag.letter ∧ fs.Nodup ∧ flags = fs.foldl add empty := by
  have hempty (f : Flag) : empty.has f = false := by cases f <;> rfl
  have hletters : addLetters empty 0 letters = .ok flags ↔
      ∃ fs : List Flag, letters = fs.map Flag.letter ∧ fs.Nodup ∧ flags = fs.foldl add empty := by
    simp only [addLetters_eq_ok_iff, hempty, implies_true, true_and]
  rw [← hletters, read]
  cases addLetters empty 0 letters with
  | error e => exact iff_of_false nofun fun h => nomatch h.2
  | ok added =>
    show (if added.unicode && added.unicodeSets then _ else _) = _ ↔ _
    rw [Except.ok.injEq]
    split
    · rename_i hboth
      refine iff_of_false nofun ?_
      rintro ⟨hnot, rfl⟩
      exact hnot (by simpa using hboth)
    · rename_i hnot
      rw [Except.ok.injEq, iff_and_self]
      rintro rfl
      simpa using hnot

/-- Flags are read from the letters that they are written with, in any order. -/
theorem read_eq_ok_iff {letters : List Char} {flags : Flags} :
    read letters = .ok flags ↔
      ¬(flags.unicode = true ∧ flags.unicodeSets = true) ∧ letters.Perm flags.toText := by
  have hnodup : (Flag.all.filter flags.has).Nodup := List.Nodup.filter _ (by decide)
  rw [read_iff]
  refine and_congr_right fun _ => ⟨?_, fun h => ?_⟩
  · rintro ⟨fs, rfl, hfs, rfl⟩
    refine ((List.perm_ext_iff_of_nodup hfs hnodup).2 fun f => ?_).map _
    simp [Flag.mem_all, has_foldl_empty]
  · obtain ⟨fs, hletters, hperm⟩ : Relation.Comp (· = List.map Flag.letter ·) List.Perm letters
        (Flag.all.filter flags.has) := by
      rwa [List.eq_map_comp_perm]
    refine ⟨fs, hletters, hperm.nodup_iff.2 hnodup, eq_of_has fun f => ?_⟩
    simp [has_foldl_empty, hperm.mem_iff, Flag.mem_all]

theorem toText_sublist (flags : Flags) : flags.toText.Sublist alphabet := by
  rw [← map_letter_all]
  exact List.filter_sublist.map _

/-- Letters are accepted if they are distinct letters of flags, `u` and `v` not both. -/
theorem exists_read_iff {letters : List Char} : (∃ flags, read letters = .ok flags) ↔
    letters.Nodup ∧ (∀ c ∈ letters, c ∈ alphabet) ∧ ¬('u' ∈ letters ∧ 'v' ∈ letters) := by
  have hmem (fs : List Flag) (f : Flag) :
      f.letter ∈ fs.map Flag.letter ↔ (fs.foldl add empty).has f = true := by
    rw [List.mem_map_of_injective Flag.letter_injective, has_foldl_empty, decide_eq_true_iff]
  constructor
  · rintro ⟨flags, h⟩
    obtain ⟨hnot, fs, rfl, hfs, rfl⟩ := read_iff.1 h
    refine ⟨hfs.map Flag.letter_injective, ?_, fun hboth => ?_⟩
    · intro c hc
      obtain ⟨f, -, rfl⟩ := List.mem_map.1 hc
      exact map_letter_all ▸ List.mem_map_of_mem f.mem_all
    · exact hnot ⟨(hmem fs .unicode).1 hboth.1, (hmem fs .unicodeSets).1 hboth.2⟩
  · rintro ⟨hnodup, halphabet, hnot⟩
    have hletter : ∀ c ∈ letters, c ∈ Set.range Flag.letter := by
      intro c hc
      obtain ⟨f, -, hf⟩ := List.mem_map.1 (map_letter_all ▸ halphabet c hc)
      exact ⟨f, hf⟩
    obtain ⟨fs, rfl⟩ : letters ∈ Set.range (List.map Flag.letter) := by
      rw [Set.range_list_map]
      exact hletter
    refine ⟨fs.foldl add empty, read_iff.2 ⟨fun hboth => hnot ?_, fs, rfl, hnodup.of_map _, rfl⟩⟩
    exact ⟨(hmem fs .unicode).2 hboth.1, (hmem fs .unicodeSets).2 hboth.2⟩

end Flags

namespace Regex

/-! ## The last slash -/

/-- A slash with none after it is the last one, whatever stands before it. -/
theorem splitAtLastSlash?_append (source : List Char) {letters : List Char} (h : '/' ∉ letters) :
    splitAtLastSlash? (source ++ '/' :: letters) = some (source, letters) := by
  have hpass : ∀ c ∈ letters.reverse, (c != '/') = true := by
    intro c hc
    rw [bne_iff_ne]
    rintro rfl
    exact h (List.mem_reverse.1 hc)
  have hback : (source ++ '/' :: letters).reverse = letters.reverse ++ '/' :: source.reverse := by
    simp
  rw [splitAtLastSlash?, hback, List.dropWhile_append_of_pos hpass,
    List.takeWhile_append_of_pos hpass]
  simp

theorem slash_not_mem_toText (flags : Flags) : '/' ∉ flags.toText := fun h =>
  absurd (flags.toText_sublist.subset h) (by decide)

/-- A literal that is written is read as the source and the flags it was written from. -/
theorem ofLiteral_toLiteral {letters : List Char} {flags : Flags}
    (h : Flags.read letters = .ok flags) (source : List Char) (root : Node) :
    ofLiteral (toLiteral ⟨source, flags, root⟩) = parse source flags := by
  have hread : Flags.read flags.toText = .ok flags :=
    Flags.read_eq_ok_iff.2 ⟨(Flags.read_eq_ok_iff.1 h).1, .refl _⟩
  rw [toLiteral, List.cons_append, ofLiteral,
    splitAtLastSlash?_append source (slash_not_mem_toText flags)]
  simp only [hread]
  rfl

/-- A literal is read as what it was written from: what the source is parsed as, if it can be
parsed, and else the same error. The flags it can have are given by distinct letters, `u` and `v` not
both, and they are written in the order of the alphabet. -/
theorem literal_read_back :
    (∀ letters flags, Flags.read letters = .ok flags → ∀ source,
      (∀ r, parse source flags = .ok r →
        r.source = source ∧ r.flags = flags ∧ ofLiteral r.toLiteral = .ok r) ∧
      ∀ e, parse source flags = .error e →
        ofLiteral ('/' :: source ++ '/' :: flags.toText) = .error e) ∧
    (∀ letters, (∃ flags, Flags.read letters = .ok flags) ↔
      letters.Nodup ∧ (∀ c ∈ letters, c ∈ Flags.alphabet) ∧ ¬('u' ∈ letters ∧ 'v' ∈ letters)) ∧
    ∀ letters flags, Flags.read letters = .ok flags →
      flags.toText.Perm letters ∧ flags.toText.Sublist Flags.alphabet := by
  refine ⟨fun letters flags h source => ⟨fun r hr => ?_, fun e he => ?_⟩,
    fun letters => Flags.exists_read_iff,
    fun letters flags h => ⟨(Flags.read_eq_ok_iff.1 h).2.symm, flags.toText_sublist⟩⟩
  · obtain ⟨rfl, rfl, -⟩ := parse_source hr
    exact ⟨rfl, rfl, (ofLiteral_toLiteral h r.source r.root).trans hr⟩
  · exact (ofLiteral_toLiteral h source default).trans he

/-- `/[/]\//yg` has four slashes, and is read with the flags `gy`; `/(/` with the same flags is not
read, for the group is not closed. -/
theorem literal_read_back_slashes :
    let flags : Flags := { global := true, sticky := true }
    let source := ['[', '/', ']', '\\', '/']
    Flags.read ['y', 'g'] = .ok flags ∧ flags.toText = ['g', 'y'] ∧
      (∃ r, parse source flags = .ok r ∧ r.toLiteral = '/' :: source ++ ['/', 'g', 'y'] ∧
        ofLiteral r.toLiteral = .ok r) ∧
      ∃ e, parse ['('] flags = .error e ∧ ofLiteral ['/', '(', '/', 'g', 'y'] = .error e := by
  intro flags source
  have hread : Flags.read ['y', 'g'] = .ok flags := rfl
  obtain ⟨r, hr⟩ : ∃ r, parse source flags = .ok r := ⟨_, rfl⟩
  obtain ⟨e, he⟩ : ∃ e, parse ['('] flags = .error e := ⟨_, rfl⟩
  have hback := literal_read_back.1 ['y', 'g'] flags hread
  obtain ⟨hsource, hflags, hliteral⟩ := (hback source).1 r hr
  refine ⟨hread, rfl, ⟨r, hr, ?_, hliteral⟩, e, he, (hback ['(']).2 e he⟩
  rw [toLiteral, hsource, hflags]
  rfl

end Regex

end RegexAudit
