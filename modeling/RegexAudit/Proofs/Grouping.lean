import RegexAudit.CharSet.KnownProperties
import RegexAudit.Proofs.ClassMembers
import RegexAudit.Proofs.ExactFirst
import RegexAudit.Proofs.Mirror
import RegexAudit.Proofs.Reach
import RegexAudit.Proofs.SetAlgebra

/-!
# Groups in a row

A part of a row may be put into a group without a change to what the row consumes first:

    (row [row xs, row ys]).content = (row (xs ++ ys)).content           (row_grouped, ys not empty)

The content is what a result says: the members of its sets and its flags, however the sets are stored.
Contents are put in rows like the results themselves, and there `andThen` is associative and has a unit
on the left. It has none on the right, for a look that is not exact makes inexact what comes after it,
be it nothing (`row_grouped_nil_iff`).

A result has the content that its parts call for if their sets are stored in order. So they are in a
parsed pattern where no negated class splits at the surrogates (`Regex.first_grouped`). Where one does,
a class with set operations can leave its ranges out of order, and then a group makes a difference
(`row_not_grouped`).
-/

namespace RegexAudit

/-! ## Contents -/

/-- What a look says. -/
@[ext] structure Look.Content where
  chars : Set Char
  exact : Bool
  edge : Bool

def Look.content (x : Look) : Look.Content := ⟨x.chars.chars, x.exact, x.edge⟩

/-- What a result says: what may be consumed, and, if nothing may be, what has to follow. -/
@[ext] structure First.Content where
  chars : Set Char
  exact : Bool
  look? : Option Look.Content

def First.content (x : First) : First.Content := ⟨x.chars.chars, x.exact, x.look?.map Look.content⟩

namespace Look.Content

def anything : Content := ⟨Set.univ, true, true⟩

section
variable (x y z : Content)

def both : Content := ⟨x.chars ∩ y.chars, x.exact && y.exact, x.edge && y.edge⟩

theorem both_assoc : (x.both y).both z = x.both (y.both z) := by
  simp [both, Set.inter_assoc, Bool.and_assoc]

theorem anything_both : anything.both x = x := by
  simp [both, anything]

theorem both_anything : x.both anything = x := by
  simp [both, anything]

end

end Look.Content

namespace First.Content

/-- What is said of one part with another one after it. -/
def andThen (x y : Content) : Content :=
  match x.look? with
  | none => x
  | some look =>
    ⟨x.chars ∪ (y.chars ∩ look.chars), x.exact && y.exact && look.exact, y.look?.map look.both⟩

def nothing : Content := ⟨∅, true, some .anything⟩

def row (parts : List Content) : Content := parts.foldl andThen nothing

theorem nothing_andThen (x : Content) : nothing.andThen x = x := by
  have hboth : Look.Content.anything.both = id := funext Look.Content.anything_both
  show Content.mk (∅ ∪ x.chars ∩ Set.univ) (true && x.exact && true)
    (x.look?.map Look.Content.anything.both) = x
  simp [hboth]

/-- Nothing after a part is as if there were no such part, unless it is the look that is inexact. -/
theorem andThen_nothing_iff {x : Content} : x.andThen nothing = x ↔
    ∀ look, x.look? = some look → x.exact = true → look.exact = true := by
  obtain ⟨chars, exact, _ | look⟩ := x
  · exact ⟨fun _ => nofun, fun _ => rfl⟩
  · show Content.mk (chars ∪ ∅ ∩ look.chars) (exact && true && look.exact)
      (some (look.both .anything)) = _ ↔ _
    simp [Look.Content.both_anything]

theorem andThen_assoc (x y z : Content) : (x.andThen y).andThen z = x.andThen (y.andThen z) := by
  obtain ⟨xchars, xexact, _ | look⟩ := x
  · rfl
  obtain ⟨ychars, yexact, _ | other⟩ := y
  · rfl
  -- both may consume nothing, so `z` is seen through both looks
  ext1
  · show xchars ∪ ychars ∩ look.chars ∪ z.chars ∩ (look.chars ∩ other.chars) =
      xchars ∪ (ychars ∪ z.chars ∩ other.chars) ∩ look.chars
    rw [Set.union_inter_distrib_right, Set.union_assoc, Set.inter_assoc z.chars,
      Set.inter_comm look.chars]
  · show (xexact && yexact && look.exact && z.exact && (look.exact && other.exact)) =
      (xexact && (yexact && z.exact && other.exact) && look.exact)
    cases look.exact <;> simp [Bool.and_assoc]
  · show z.look?.map (look.both other).both = (z.look?.map other.both).map look.both
    rw [Option.map_map]
    exact congrArg (Option.map · z.look?) (funext (look.both_assoc other))

instance : Std.Associative andThen := ⟨andThen_assoc⟩

section
variable (xs : List Content) {ys : List Content}

theorem row_cons (x : Content) : row (x :: xs) = xs.foldl andThen x := by
  rw [row, List.foldl_cons, nothing_andThen]

/-- A row is that of its two parts, if the second one is not empty. -/
theorem row_append_of_ne_nil (hne : ys ≠ []) : row (xs ++ ys) = (row xs).andThen (row ys) := by
  obtain ⟨y, ys, rfl⟩ := List.exists_cons_of_ne_nil hne
  calc row (xs ++ y :: ys) = ys.foldl andThen ((row xs).andThen y) := by
        rw [row, List.foldl_append, List.foldl_cons, row]
    _ = (row xs).andThen (ys.foldl andThen y) := List.foldl_assoc
    _ = (row xs).andThen (row (y :: ys)) := by rw [row_cons]

/-- A part of a row may be a row itself. -/
theorem row_group (zs : List Content) (hne : ys ≠ []) :
    row (xs ++ row ys :: zs) = row (xs ++ ys ++ zs) := by
  have hfront := row_append_of_ne_nil xs hne
  simp only [row, List.foldl_append, List.foldl_cons] at hfront ⊢
  rw [← hfront]

end

end First.Content

/-! ## Contents of rows -/

namespace First

section
variable {x y : First} {xs ys zs : List First}

theorem content_nothing : (nothing .anything).content = Content.nothing := by
  have hempty : CharSet.empty.chars = ∅ := Set.eq_empty_of_forall_notMem CharSet.not_mem_empty
  have hall : CharSet.all.chars = Set.univ := Set.eq_univ_of_forall CharSet.mem_all
  simp [content, nothing, Content.nothing, Look.content, Look.anything, Look.Content.anything,
    hempty, hall]

theorem content_both {look other : Look} (hs : look.chars.Sorted) (ht : other.chars.Sorted) :
    (look.both other).content = look.content.both other.content :=
  Look.Content.ext (Set.ext (CharSet.mem_meet hs ht)) rfl rfl

/-- In order, parts say of a row what their contents do. -/
theorem content_andThen (hx : x.Sorted) (hy : y.Sorted) :
    (x.andThen fun _ => y).content = x.content.andThen y.content := by
  obtain ⟨chars, exact, _ | look⟩ := x
  · rfl
  have hlook : look.chars.Sorted := hx.look look rfl
  ext1
  · ext c
    show c ∈ chars.join (y.chars.meet look.chars) ↔ c ∈ chars ∨ c ∈ y.chars ∧ c ∈ look.chars
    rw [CharSet.mem_join, CharSet.mem_meet hy.chars hlook]
  · rfl
  · show (y.look?.map look.both).map Look.content =
      (y.look?.map Look.content).map look.content.both
    cases hother : y.look? with
    | none => rfl
    | some other => exact congrArg some (content_both hlook (hy.look other hother))

theorem content_foldl (hx : x.Sorted) (hys : ∀ y ∈ ys, y.Sorted) :
    (ys.foldl (fun x y => x.andThen fun _ => y) x).content =
      (ys.map content).foldl Content.andThen x.content := by
  induction ys generalizing x with
  | nil => rfl
  | cons y ys ih =>
    rw [List.forall_mem_cons] at hys
    rw [List.foldl_cons, List.map_cons, List.foldl_cons, ← content_andThen hx hys.1]
    exact ih (sorted_andThen hx hys.1) hys.2

theorem content_row (hxs : ∀ x ∈ xs, x.Sorted) : (row xs).content = .row (xs.map content) := by
  rw [row, content_foldl (sorted_nothing CharSet.sorted_all) hxs, content_nothing, Content.row]

theorem content_oneOf_singleton (x : First) : (oneOf [x]).content = x.content := by
  obtain ⟨chars, exact, look?⟩ := x
  ext1
  · ext c
    show c ∈ CharSet.empty.join chars ↔ c ∈ chars
    simp
  · rfl
  · cases look? <;> rfl

theorem content_ne_of_isEmpty (hx : x.chars.isEmpty = false) (hy : y.chars.isEmpty = true) :
    x.content ≠ y.content := by
  intro hcontent
  have hchars : x.chars.chars = y.chars.chars := congrArg Content.chars hcontent
  have hempty : x.chars.isEmpty = true := by
    rw [CharSet.isEmpty_iff] at hy ⊢
    exact fun c hc => hy c (Set.ext_iff.1 hchars c |>.1 hc)
  rw [hx] at hempty
  cases hempty

/-! ## Rows in rows -/

theorem content_row_pair (hx : x.Sorted) (hy : y.Sorted) :
    (row [x, y]).content = x.content.andThen y.content := by
  rw [content_row (by simp [hx, hy]), List.map_cons, Content.row_cons]
  rfl

/-- A row of two rows says what one row of all their parts does, for parts whose sets are stored in
order, if the second row is not empty. -/
theorem row_grouped (hxs : ∀ x ∈ xs, x.Sorted) (hys : ∀ y ∈ ys, y.Sorted) (hne : ys ≠ []) :
    (row [row xs, row ys]).content = (row (xs ++ ys)).content := by
  have hall : ∀ x ∈ xs ++ ys, x.Sorted := List.forall_mem_append.2 ⟨hxs, hys⟩
  have hne : ys.map content ≠ [] := by simpa using hne
  rw [content_row_pair (sorted_row hxs) (sorted_row hys), content_row hxs, content_row hys,
    content_row hall, List.map_append, Content.row_append_of_ne_nil _ hne]

/-- Parts of a row may be put into a group. -/
theorem content_row_group (hsorted : ∀ x ∈ xs ++ ys ++ zs, x.Sorted) (hne : ys ≠ []) :
    (row (xs ++ oneOf [row ys] :: zs)).content = (row (xs ++ ys ++ zs)).content := by
  have hparts := hsorted
  simp only [List.forall_mem_append] at hparts
  obtain ⟨⟨hxs, hys⟩, hzs⟩ := hparts
  have hgroup : (oneOf [row ys]).Sorted := sorted_oneOf (List.forall_mem_singleton.2 (sorted_row hys))
  have hgrouped : ∀ x ∈ xs ++ oneOf [row ys] :: zs, x.Sorted :=
    List.forall_mem_append.2 ⟨hxs, List.forall_mem_cons.2 ⟨hgroup, hzs⟩⟩
  have hne : ys.map content ≠ [] := by simpa using hne
  rw [content_row hgrouped, content_row hsorted, List.map_append, List.map_cons,
    content_oneOf_singleton, content_row hys, Content.row_group _ _ hne, List.map_append,
    List.map_append]

theorem content_arrange_group (d : Direction) (hsorted : ∀ x ∈ xs ++ ys ++ zs, x.Sorted)
    (hne : ys ≠ []) : (row (d.arrange (xs ++ oneOf [row (d.arrange ys)] :: zs))).content =
      (row (d.arrange (xs ++ ys ++ zs))).content := by
  cases d with
  | forward => exact content_row_group hsorted hne
  | backward =>
    have hreverse : ∀ x ∈ zs.reverse ++ ys.reverse ++ xs.reverse, x.Sorted := by
      simp only [List.forall_mem_append, List.mem_reverse] at hsorted ⊢
      exact ⟨⟨hsorted.2, hsorted.1.2⟩, hsorted.1.1⟩
    simpa [Direction.arrange] using content_row_group hreverse (by simpa using hne)

end

/-- Under a look that is not exact, an optional `a` and then a `b`, `c` or `d`. -/
theorem row_grouped_optional :
    let look : First := nothing ⟨.span 'a' 'c', false, true⟩
    let optional : First := ⟨.singleton 'a', true, some .anything⟩
    let last : First := always (.span 'b' 'd')
    (∀ x ∈ [look], x.Sorted) ∧ (∀ y ∈ [optional, last], y.Sorted) ∧
      (row [row [look], row [optional, last]]).content = (row [look, optional, last]).content := by
  intro look optional last
  have hspan (a b : Char) : (CharSet.span a b).Sorted := (CharSet.apart_ofRanges _).sorted
  have hlook : ∀ x ∈ [look], x.Sorted := List.forall_mem_singleton.2 (sorted_nothing (hspan ..))
  have hlast : ∀ y ∈ [optional, last], y.Sorted := by
    rw [List.forall_mem_cons, List.forall_mem_singleton]
    exact ⟨⟨hspan .., fun l hl => by cases hl; exact CharSet.sorted_all⟩, ⟨hspan .., nofun⟩⟩
  exact ⟨hlook, hlast, row_grouped hlook hlast (List.cons_ne_nil _ _)⟩

/-- In `(?=x)[[^[^[^xy]&&[wxyz]]--[]]--x]`, where `w`, `x`, `y` and `z` are the two characters before
the surrogates and the two after them, the ranges of the class are out of order. What the lookahead
leaves of it has no character in one row, and has one if the class is put into a group. -/
theorem row_not_grouped :
    let source := ['(', '?', '=', '\uD7FF', ')', '[', '[', '^', '[', '^', '[', '^', '\uD7FF', '\uE000',
      ']', '&', '&', '[', '\uD7FE', '\uD7FF', '\uE000', '\uE001', ']', ']', '-', '-', '[', ']', ']',
      '-', '-', '\uD7FF', ']']
    let flags : Flags := { unicodeSets := true }
    ∃ r, Regex.parse source flags = .ok r ∧ ∃ p ∈ r.walk, ∃ q ∈ r.walk,
      let x := r.first flags .forward p
      let y := r.first flags .forward q
      (row [row [x], row [y]]).content ≠ (row ([x] ++ [y])).content := by
  intro source flags
  refine ⟨_, rfl, _, List.mem_of_getElem? (i := 2) rfl, _, List.mem_of_getElem? (i := 5) rfl, ?_⟩
  exact content_ne_of_isEmpty (by decide +kernel) (by decide +kernel)

section
variable {xs : List First}

/-- An empty second row says the same only if it does not turn the first one inexact. -/
theorem row_grouped_nil_iff (hxs : ∀ x ∈ xs, x.Sorted) :
    (row [row xs, row []]).content = (row xs).content ↔
      ∀ look, (row xs).look? = some look → (row xs).exact = true → look.exact = true := by
  rw [content_row_pair (sorted_row hxs) (sorted_row (by simp)),
    show (row []).content = _ from content_nothing, Content.andThen_nothing_iff]
  simp [content, Look.content]

end

end First

/-! ## Groups in patterns -/

variable [Properties]

namespace Node

section
variable {flags : Flags} {refs refs' : Path → GroupRef → First} {d : Direction} {n : Node}
  {us vs ws : List Node}

/-- Without references, it makes no difference where a node stands. -/
theorem first_path (h : ∀ ref, ¬ n.HasPart (backreference ref)) (path path' : Path) :
    n.first refs flags d path = n.first refs' flags d path' := by
  have himage : n.mirror.first refs flags d.reverse [] = n.first refs flags d path :=
    first_mirror path [] n h
  have himage' : n.mirror.first refs flags d.reverse [] = n.first refs' flags d path' :=
    first_mirror path' [] n h
  exact himage.symm.trans himage'

theorem firsts_eq_map (h : ∀ n ∈ vs, ∀ ref, ¬ n.HasPart (backreference ref)) (path path' : Path)
    (slot : Nat) : firsts refs flags d path slot vs = vs.map (first refs' flags d path') := by
  induction vs generalizing slot with
  | nil => rw [firsts, List.map_nil]
  | cons n ns ih =>
    rw [List.forall_mem_cons] at h
    rw [firsts, List.map_cons, ih h.2, first_path h.1]

theorem first_alternative (h : ∀ n ∈ vs, ∀ ref, ¬ n.HasPart (backreference ref))
    (path path' : Path) : (alternative vs).first refs flags d path =
      .row (d.arrange (vs.map (first refs' flags d path'))) := by
  rw [first, firstRow_eq_row, firsts_eq_map h]

theorem first_group (frame : Frame) (h : ∀ n ∈ vs, ∀ ref, ¬ n.HasPart (backreference ref))
    (path path' : Path) : (choice frame [alternative vs]).first refs flags d path =
      .oneOf [.row (d.arrange (vs.map (first refs' flags d path')))] := by
  rw [first, firsts, firsts, first_alternative h]

theorem Plain.sorted_first (h : n.Plain flags) (path : Path) : (n.first refs flags d path).Sorted :=
  (describes_first (x := .ofText []) path n h).sorted

/-- Elements in a row may be put into a group, capturing or not. -/
theorem content_first_grouped (frame : Frame) (hne : vs ≠ [])
    (hplain : (alternative (us ++ vs ++ ws)).Plain flags)
    (hreferences : ∀ ref, ¬ (alternative (us ++ vs ++ ws)).HasPart (backreference ref))
    (path path' : Path) :
    ((alternative (us ++ choice frame [alternative vs] :: ws)).first refs flags d path).content =
      ((alternative (us ++ vs ++ ws)).first refs' flags d path').content := by
  have hrow : ∀ n ∈ us ++ vs ++ ws, ∀ ref, ¬ n.HasPart (backreference ref) :=
    fun n hn ref hpart => hreferences ref (.of_child hn hpart)
  have hvs : ∀ n ∈ vs, ∀ ref, ¬ n.HasPart (backreference ref) :=
    fun n hn => hrow n (List.mem_append_left _ (List.mem_append_right _ hn))
  have hgroup : ∀ ref, ¬ (choice frame [alternative vs]).HasPart (backreference ref) := by
    intro ref hpart
    obtain heq | ⟨_, hc, hpart⟩ := hasPart_iff.1 hpart
    · cases heq
    rw [List.mem_singleton.1 hc] at hpart
    obtain heq | ⟨c, hc, hpart⟩ := hasPart_iff.1 hpart
    · cases heq
    exact hvs c hc ref hpart
  have hgrouped : ∀ n ∈ us ++ choice frame [alternative vs] :: ws, ∀ ref,
      ¬ n.HasPart (backreference ref) := by
    simp only [List.forall_mem_append, List.forall_mem_cons] at hrow ⊢
    exact ⟨hrow.1.1, hgroup, hrow.2⟩
  let f := first refs' flags d path'
  have hfirst : f (choice frame [alternative vs]) = .oneOf [.row (d.arrange (vs.map f))] :=
    first_group frame hvs ..
  have hsorted : ∀ x ∈ us.map f ++ vs.map f ++ ws.map f, x.Sorted := by
    rw [← List.map_append, ← List.map_append, List.forall_mem_map]
    exact fun n hn => (hplain.alternative n hn).sorted_first path'
  calc ((alternative (us ++ choice frame [alternative vs] :: ws)).first refs flags d path).content
      = (First.row (d.arrange ((us ++ choice frame [alternative vs] :: ws).map f))).content :=
        congrArg _ (first_alternative hgrouped ..)
    _ = (First.row (d.arrange
          (us.map f ++ .oneOf [.row (d.arrange (vs.map f))] :: ws.map f))).content := by
        rw [List.map_append, List.map_cons, hfirst]
    _ = (First.row (d.arrange (us.map f ++ vs.map f ++ ws.map f))).content :=
        First.content_arrange_group d hsorted (by simpa using hne)
    _ = (First.row (d.arrange ((us ++ vs ++ ws).map f))).content := by
        rw [List.map_append, List.map_append]
    _ = ((alternative (us ++ vs ++ ws)).first refs' flags d path').content :=
        congrArg _ (first_alternative hrow ..).symm

/-- Where no negated class splits at the surrogates, all sets are in order. -/
theorem plain_of_not_splits (hproperties : Properties.Canonical) (hranges : n.Ascending)
    (hsplits : n.Throughout fun m => ¬ m.Splits flags)
    (hreferences : ∀ ref, ¬ n.HasPart (backreference ref)) : n.Plain flags where
  references := hasBackreference_eq_false fun m hm hkind => by
    obtain ⟨ref, rfl⟩ := kind_eq_backreference.1 hkind
    exact hreferences ref hm
  sets m set hm hset := by
    have hdenotes := denotes_charSet? hproperties (throughout_of_hasPart hranges hm)
      (throughout_of_hasPart hsplits hm) hset
    exact ⟨hdenotes.apart.sorted, CharSet.sorted_complement hdenotes.apart⟩

end

end Node

/-- So the elements of a row in a parsed pattern may be put into a group, if none of them holds a
reference or a negated class that splits at the surrogates. -/
theorem Regex.first_grouped {source : List Char} {letters flags : Flags} {r : Regex}
    {us vs ws : List Node} (hproperties : Properties.Canonical)
    (hparse : Regex.parse source letters = .ok r)
    (hn : r.root.HasPart (.alternative (us ++ vs ++ ws))) (hne : vs ≠ [])
    (hreferences : ∀ ref, ¬ (Node.alternative (us ++ vs ++ ws)).HasPart (.backreference ref))
    (hsplits : (Node.alternative (us ++ vs ++ ws)).Throughout fun m => ¬ m.Splits flags)
    (refs refs' : Path → GroupRef → First) (d : Direction) (path path' : Path) (frame : Frame) :
    ((Node.alternative (us ++ .choice frame [.alternative vs] :: ws)).first refs flags d path).content
      = ((Node.alternative (us ++ vs ++ ws)).first refs' flags d path').content := by
  have hranges := Node.throughout_of_hasPart (ascending_of_parse hparse) hn
  have hplain := Node.plain_of_not_splits hproperties hranges hsplits hreferences
  exact Node.content_first_grouped frame hne hplain hreferences path path'

end RegexAudit
