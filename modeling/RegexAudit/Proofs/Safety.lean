import RegexAudit.Proofs.Faults
import RegexAudit.Proofs.Numerals
import RegexAudit.Proofs.Walks

/-!
# Safety of parsing

Whatever the source, no reader is at a place that is none of the source, and reading comes to an end
(`Regex.parse_safe`). A reader holds the text it has left. That text is an end of the source, so
cutting the source at its position gives it back:

    t.Reached flags source → Text.BeginsAt source t.text (Text.position source t.text)

The same holds of the text where a reader stops, and of the text where a fault is reported. For a
fault it is proved down the tree of calls, which has no infinite branch: what is not the reader's own
fault is the fault of a call (`Pattern.arises`).

The text that is left stands for a byte position: a reader has none of its own, and takes up an
earlier text where it goes back. Positions that are moved by numbers of bytes and set back are the
state of `Syntax.Parser`. It stands where the text of the reader begins at every step, and is never
stopped by a position that is none of the source (`Ast.fault_of_parse`).
-/

namespace RegexAudit

/-! ## Positions -/

namespace Text

/-- Byte `n` is not past the end of the source and not inside of a character, and `rest` is what
follows there. -/
structure BeginsAt (source rest : List Char) (n : Nat) : Prop where
  le : n ≤ width source
  cut : ∃ front, cut? n source = some (front, rest)

theorem length_le_width (text : List Char) : text.length ≤ width text := by
  induction text with
  | nil => exact Nat.le_refl _
  | cons c text ih =>
    have hsize := c.utf8Size_pos
    rw [List.length_cons, width_cons]
    omega

theorem beginsAt_position {source rest : List Char} (h : rest <:+ source) :
    BeginsAt source rest (position source rest) := by
  obtain ⟨front, rfl⟩ := h
  have hposition : position (front ++ rest) rest = width front := by
    rw [position, width_append, Nat.add_sub_cancel]
  rw [hposition]
  refine ⟨?_, front, cut?_width front rest⟩
  rw [width_append]
  exact Nat.le_add_right _ _

theorem position_lt {source text rest : List Char} (h : text <:+ source)
    (hrest : Pattern.Follows text rest) : position source text < position source rest := by
  obtain ⟨front, rfl⟩ := h
  have hlt := hrest.width_lt
  unfold position
  rw [width_append]
  omega

end Text

/-- The text of a place that sits in a source begins where the place starts. -/
theorem Place.Sits.beginsAt {source : List Char} {p : Place} (h : p.Sits source) :
    ∃ rest, Text.BeginsAt source rest p.start := by
  obtain ⟨front, back, hsource, hstart⟩ := h
  rw [List.append_assoc] at hsource
  refine ⟨p.node.text ++ back, ?_, front, ?_⟩
  · rw [hsource, Text.width_append, hstart]
    exact Nat.le_add_right _ _
  · rw [hsource, ← hstart]
    exact Text.cut?_width front _

namespace Pattern

open Lexeme Node

variable {setting : Setting} {source : List Char} {flags : Flags}

/-! ## Tasks in a source -/

/-- What is called while a source is parsed. -/
def Task.Reached (flags : Flags) (source : List Char) : Task → Prop :=
  Relation.ReflTransGen (Calls (settingOf flags source)) (.disjunction nestingLimit ⟨source, 0, []⟩)

/-- A task reads an end of a source, after an opening that stands in it too, and it has counted no
more groups than there are characters before it. -/
structure Task.Within (source : List Char) (t : Task) : Prop where
  text : t.text <:+ t.origin
  origin : t.origin <:+ source
  groups : t.groups + t.text.length ≤ source.length

/-- Faults of a call are reported at its own text, or where its caller starts or reports them. -/
theorem Calls.origin_cases {t u : Task} (h : Calls setting t u) :
    u.origin = u.text ∨ u.origin = t.text ∨ u.origin = t.origin := by
  cases h with
  | again h => cases h <;> simp [Task.origin, Task.text]
  | listed hrest _ => exact .inr (.inl hrest.symm)
  | nested hrest _ => exact .inr (.inl hrest.symm)
  | _ => simp [Task.origin, Task.text]

theorem Calls.within {t u : Task} (h : Calls setting t u) (ht : t.Within source) :
    u.Within source := by
  have hgroups := Nat.le_trans h.groups_le ht.groups
  have hsource := ht.text.trans ht.origin
  rcases h.origin_cases with horigin | horigin | horigin
  · exact ⟨horigin ▸ List.suffix_refl _, horigin ▸ h.suffix.trans hsource, hgroups⟩
  · exact ⟨horigin ▸ h.suffix, horigin ▸ hsource, hgroups⟩
  · exact ⟨horigin ▸ h.suffix.trans ht.text, horigin ▸ ht.origin, hgroups⟩

theorem within_start (limit : Nat) (source : List Char) :
    Task.Within source (.disjunction limit ⟨source, 0, []⟩) :=
  ⟨List.suffix_refl _, List.suffix_refl _, Nat.le_of_eq (Nat.zero_add _)⟩

theorem Task.Reached.within {t : Task} (h : t.Reached flags source) : t.Within source := by
  unfold Task.Reached at h
  induction h with
  | refl => exact within_start _ _
  | tail _ hcall ih => exact hcall.within ih

/-- Faults are reported in the source. -/
theorem Task.Within.fault {t : Task} {f : Fault} (ht : t.Within source)
    (h : t.outcome setting = .error f) : f.rest <:+ source := by
  induction t using (wellFounded_calls setting).induction with
  | _ t ih =>
    cases arises h with
    | here hrest => exact hrest.trans (ht.text.trans ht.origin)
    | origin hrest => exact hrest ▸ ht.origin
    | call hcall hfault => exact ih _ hcall (hcall.within ht) hfault

/-! ## Numbers of tasks -/

theorem toOption_eq_some {ε α : Type} {x : Except ε α} {a : α} :
    x.toOption = some a ↔ x = .ok a := by
  cases x <;> simp [Except.toOption]

theorem Task.number?_le {t : Task} {n : Nat} (h : t.number? setting = some n) :
    n ≤ max t.groups Bounds.limit := by
  have hlimit (hn : n ≤ Bounds.limit) : n ≤ max t.groups Bounds.limit :=
    Nat.le_trans hn (Nat.le_max_right _ _)
  cases t with
  | disjunction depth s | alternatives depth s | elements depth s | term depth s =>
    cases h
    exact Nat.le_max_left _ _
  | decimal r =>
    obtain ⟨read, hread, rfl⟩ := Option.map_eq_some_iff.1 h
    obtain ⟨digits, -, rfl⟩ := Option.map_eq_some_iff.1 hread
    exact hlimit (Nat.min_le_right _ _)
  | characterEscape inClass r =>
    obtain ⟨read, hread, rfl⟩ := Option.map_eq_some_iff.1 h
    exact hlimit (characterEscape_le (toOption_eq_some.1 hread))
  | octal r =>
    cases h
    exact hlimit (octalOrSelf_le r)
  | unicodeEscape r =>
    obtain ⟨read, hread, rfl⟩ := Option.map_eq_some_iff.1 h
    exact hlimit (unicodeEscape_iff.1 (toOption_eq_some.1 hread)).le
  | bracedCode r =>
    obtain ⟨read, hread, rfl⟩ := Option.map_eq_some_iff.1 h
    exact hlimit (Nat.le_trans (bracedCode?_le hread) (by decide))
  | fourDigits r =>
    obtain ⟨read, hread, rfl⟩ := Option.map_eq_some_iff.1 h
    exact hlimit (fourDigits_iff.1 (toOption_eq_some.1 hread)).1.le
  | trailSurrogate r =>
    obtain ⟨read, hread, rfl⟩ := Option.map_eq_some_iff.1 h
    obtain ⟨-, -, -, -, hhigh⟩ := trailSurrogate?_eq_some.1 hread
    exact hlimit (Nat.le_trans hhigh (by decide))
  | _ => cases h

/-- Every group that is counted in advance has a parenthesis of its own. -/
theorem countGroups_le (nested : Bool) (depth : Nat) (r : List Char) :
    (countGroups nested depth r).1 ≤ r.length := by
  fun_induction countGroups nested depth r with
  | case1 => exact Nat.le_refl _
  | case2 => exact Nat.zero_le _
  | case3 _ _ _ ih => exact Nat.le_succ_of_le (Nat.le_succ_of_le ih)
  | case4 _ _ ih => exact Nat.le_succ_of_le ih
  | case5 _ _ ih => exact Nat.le_succ_of_le ih
  | case6 _ _ count _ hcount _ _ _ _ ih =>
    rw [hcount] at ih
    exact Nat.succ_le_succ ih
  | case7 _ _ count _ hcount _ _ _ _ ih =>
    rw [hcount] at ih
    exact Nat.le_succ_of_le ih
  | case8 _ _ _ _ _ _ _ _ ih => exact Nat.le_succ_of_le ih

/-! ## What is safe -/

/-- What is safe about a task while a source is read: it starts, stops and fails at places of the
source, and its numbers are no larger than the source or the greatest count. -/
structure Task.Safe (setting : Setting) (source : List Char) (t : Task) : Prop where
  starts : Text.BeginsAt source t.text (Text.position source t.text)
  stops : ∀ rest, t.outcome setting = .ok rest →
    Text.BeginsAt source rest (Text.position source rest)
  faults : ∀ f, t.outcome setting = .error f →
    Text.BeginsAt source f.rest (Text.position source f.rest)
  numbers : ∀ n, t.number? setting = some n → n ≤ max (Text.width source) Bounds.limit

theorem Task.Within.safe {t : Task} (h : t.Within source) : t.Safe setting source where
  starts := Text.beginsAt_position (h.text.trans h.origin)
  stops _ hrest :=
    Text.beginsAt_position ((Task.suffix_outcome hrest).trans (h.text.trans h.origin))
  faults _ hfault := Text.beginsAt_position (h.fault hfault)
  numbers n hn := by
    have hgroups := h.groups
    have hlength := Text.length_le_width source
    have hle := Task.number?_le hn
    omega

theorem suffix_of_read {limit : Nat} {f : Fault} (h : read limit flags source = .error f) :
    f.rest <:+ source := by
  rcases bind_eq_error.1 h with hinside | ⟨⟨ns, s⟩, hread, h⟩
  · exact (within_start limit source).fault (map_eq_error.2 hinside)
  · have hsuffix : s.rest <:+ source := ((kept_forward _).disjunction hread).suffix
    simp only at h
    split at h
    · cases h
    · rename_i hrest
      cases h
      exact hrest ▸ hsuffix
    · cases h
      exact hsuffix

/-- Errors of parsing are at places of the source. -/
theorem beginsAt_of_parse {e : ParseError} (h : parse flags source = .error e) :
    ∃ rest, Text.BeginsAt source rest e.offset := by
  unfold parse parseWithin at h
  split at h
  · rename_i f hread
    cases h
    exact ⟨f.rest, Text.beginsAt_position (suffix_of_read hread)⟩
  · rename_i root names hread
    split at h
    · rename_i p hfind
      cases h
      obtain ⟨_, _, _, htext⟩ := read_source hread
      have htop : Place.Sits source ⟨root, 0, 0, []⟩ := ⟨[], [], by simp [htext], rfl⟩
      have hp : p ∈ Place.below ⟨root, 0, 0, []⟩ := by
        rw [← Place.walk_eq_below]
        exact List.mem_of_find?_eq_some hfind
      exact (Place.forall_below (fun p => Place.sits_children) htop p hp).beginsAt
    · cases h

end Pattern

open Pattern

/-- Parsing a source is safe. -/
structure Regex.ParsesSafely (source : List Char) (flags : Flags) : Prop where
  /-- Every reader is at places of the source, and its numbers are small. -/
  places : ∀ t, Task.Reached flags source t → t.Safe (settingOf flags source) source
  /-- A loop that goes on is further in the source, -/
  progress : ∀ t u, Task.Reached flags source t → Again (settingOf flags source) t u →
    Text.position source t.text < Text.position source u.text
  /-- and it does there what is left to be done. -/
  resumes : ∀ t u, Again (settingOf flags source) t u →
    t.outcome (settingOf flags source) = u.outcome (settingOf flags source)
  /-- No chain of calls goes on forever. -/
  ends : WellFounded fun u t => Calls (settingOf flags source) t u
  /-- No more groups are counted in advance than the source has bytes. -/
  counted : (settingOf flags source).groups ≤ Text.width source
  /-- Errors are at places of the source. -/
  errors : ∀ e, Regex.parse source flags = .error e → ∃ rest, Text.BeginsAt source rest e.offset

/-- Whatever the source and its flags are, parsing stays in the source, every round of a loop takes
a part of it, and errors are reported at the start of a character or at the end. -/
theorem Regex.parse_safe (source : List Char) (flags : Flags) : ParsesSafely source flags where
  places _ ht := ht.within.safe
  progress t u ht hagain :=
    Text.position_lt (ht.within.text.trans ht.within.origin) hagain.follows
  resumes _ _ hagain := hagain.outcome_eq
  ends := wellFounded_calls _
  counted := by
    have hcount := countGroups_le flags.unicodeSets 0 source
    exact Nat.le_trans hcount (Text.length_le_width source)
  errors e h := by
    rcases bind_eq_error.1 h with hparse | ⟨root, -, h⟩
    · exact beginsAt_of_parse hparse
    · cases h

/-- In `é(` the loop of the elements goes on after a character of two bytes, and the group that is not
closed is reported at byte 3, which is the end. -/
theorem Regex.parse_safe_accent :
    let source := ['é', '(']
    let setting := settingOf {} source
    let first : Task := .elements 249 ⟨source, 0, []⟩
    let second : Task := .elements 249 ⟨['('], 0, []⟩
    first.Reached {} source ∧ Again setting first second ∧
      Text.position source first.text < Text.position source second.text ∧
      Regex.parse source {} = .error ⟨.unterminatedGroup, 3⟩ ∧ ∃ rest, Text.BeginsAt source rest 3 := by
  intro source setting first second
  have hsafe := Regex.parse_safe source {}
  have hreached : first.Reached {} source := (Relation.ReflTransGen.single .alternatives).tail .elements
  have hagain : Again setting first second := by
    refine .element ?_ (rfl : termAt setting 249 ⟨source, 0, []⟩ = .ok (.character ⟨233, ['é']⟩, _))
    rintro (h | ⟨after, h | h⟩) <;> cases h
  have herror : Regex.parse source {} = .error ⟨.unterminatedGroup, 3⟩ := rfl
  exact ⟨hreached, hagain, hsafe.progress _ _ hreached hagain, herror, hsafe.errors _ herror⟩

end RegexAudit
