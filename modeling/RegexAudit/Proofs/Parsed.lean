import RegexAudit.Proofs.Readings
import RegexAudit.Syntax.Regex

/-!
# Parsed trees

What is known of a tree because it was read from a text. Its text is the text it was read from:

    Pattern.read limit flags source = .ok (root, names) →  root.text = source

the whole pattern is its root and stands nowhere below it, and classes hold characters only. All of
this is shown together, for the leaves first and then along the loops.
-/

namespace RegexAudit

namespace Node

/-- No node of the tree is a whole pattern, and classes hold nothing but what stands in classes. -/
def Inner : Node → Prop := Throughout fun m =>
  (∀ alternatives, m ≠ choice .whole alternatives) ∧
    (m.isClassLevel = true → ∀ c ∈ m.children, c.isClassLevel = true)

theorem ClassPart.inner {n : Node} (h : n.ClassPart) : n.Inner := by
  intro m hm
  refine ⟨fun alternatives heq => ?_, fun _ c hc => h c (hm.child hc)⟩
  have := h m hm
  rw [heq] at this
  cases this

/-- Outside of classes only the children count. -/
theorem inner_of_children {n : Node} (hclass : n.isClassLevel = false)
    (hwhole : ∀ alternatives, n ≠ choice .whole alternatives)
    (hchildren : ∀ c ∈ n.children, c.Inner) : n.Inner := by
  refine throughout_iff.2 ⟨⟨hwhole, fun h => ?_⟩, hchildren⟩
  rw [hclass] at h
  cases h

theorem ReadFrom.inner {text rest : List Char} {n : Node} (h : ReadFrom ClassPart text rest n) :
    ReadFrom Inner text rest n :=
  ⟨h.shape.inner, h.source⟩

end Node

open Node

namespace Pattern

variable {setting : Setting} {depth : Nat} {n : Node} {s s' : Progress}

/-! ## Leaves -/

theorem escaped_source {r rest : List Char} {n : Node} (h : escaped setting r = .ok (n, rest)) :
    ReadFrom Inner ('\\' :: r) rest n := by
  cases escaped_iff.1 h with
  | shorthand hset => exact (readFrom_shorthand (Lexeme.shorthand?_source hset)).inner
  | name _ _ =>
    refine ⟨inner_of_children rfl (by simp) (by simp [children]), ?_⟩
    simp [Node.text, GroupRef.text]
  | index h1 h9 hdecimal _ =>
    refine ⟨inner_of_children rfl (by simp) (by simp [children]), ?_⟩
    rw [Lexeme.decimal?_source h1 h9 hdecimal]
    simp [Node.text, GroupRef.text]
  | octal _ _ _ _ _ hoctal =>
    rename_i c r _ _ _ _ _ _ _ _
    have hsuffix := Lexeme.suffix_octalOrSelf c r
    rw [hoctal] at hsuffix
    exact (readFrom_escape _ (hsuffix.trans (List.suffix_cons _ _))).inner
  | character _ _ _ hvalue =>
    exact (readFrom_escape _ (Lexeme.suffix_characterEscape hvalue)).inner

/-- A leaf is an assertion, a reference, or stands for a character. -/
theorem Leaf.shape {text rest : List Char} {repeats : Bool}
    (h : Leaf setting (Class.nested setting depth) text n repeats rest) :
    (∃ e, n = .edge e) ∨ (∃ ref, n = .backreference ref) ∨
      n.isCharacter = true ∧ n.ClassPart := by
  cases h with
  | edge e => exact .inl ⟨e, rfl⟩
  | any => exact .inr (.inr ⟨rfl, classPart_shorthand _⟩)
  | charClass hread =>
    split at hread
    · exact .inr (.inr ⟨Class.isCharacter_nested hread, (Class.nested_source depth hread).shape⟩)
    · exact .inr (.inr ⟨Class.isCharacter_listed hread, (Class.listed_source hread).shape⟩)
  | escape _ _ hread =>
    cases escaped_iff.1 hread with
    | shorthand _ => exact .inr (.inr ⟨rfl, classPart_shorthand _⟩)
    | name _ _ | index _ _ _ _ => exact .inr (.inl ⟨_, rfl⟩)
    | octal _ _ _ _ _ _ | character _ _ _ _ => exact .inr (.inr ⟨rfl, classPart_character _⟩)
  | plain _ => exact .inr (.inr ⟨rfl, classPart_character _⟩)

theorem Leaf.source {text rest : List Char} {repeats : Bool}
    (h : Leaf setting (Class.nested setting depth) text n repeats rest) :
    text = n.text ++ rest := by
  cases h with
  | edge e | any | plain _ => rfl
  | charClass hread =>
    split at hread
    · exact (Class.nested_source depth hread).source
    · exact (Class.listed_source hread).source
  | escape _ _ hread => exact (escaped_source hread).source

theorem Leaf.inner {text rest : List Char} {repeats : Bool}
    (h : Leaf setting (Class.nested setting depth) text n repeats rest) : n.Inner := by
  obtain ⟨_, rfl⟩ | ⟨_, rfl⟩ | ⟨-, hclass⟩ := h.shape
  · exact inner_of_children rfl nofun (List.forall_mem_nil _)
  · exact inner_of_children rfl nofun (List.forall_mem_nil _)
  · exact hclass.inner

/-! ## Alternatives -/

theorem Opening.inner_node (o : Opening) (groups : Nat) {ns : List Node} (h : ∀ n ∈ ns, n.Inner) :
    (o.node groups ns).Inner := by
  rw [← o.children_node groups ns] at h
  cases o <;> exact inner_of_children rfl nofun h

theorem Ends.readFrom {element : Node} {repeats : Bool} {start text rest : List Char}
    (h : Ends setting element repeats text n rest) (helement : ReadFrom Inner start text element) :
    ReadFrom Inner start rest n := by
  have hsuffix := h.suffix
  cases h with
  | repeatable _ | unrepeatable _ => exact helement
  | repeated _ =>
    refine ⟨inner_of_children rfl nofun (by simpa [children] using helement.shape), ?_⟩
    rw [helement.source, Node.text, List.append_assoc, textBefore_append hsuffix]

theorem inner_alternative {ns : List Node} (h : ∀ n ∈ ns, n.Inner) : (Node.alternative ns).Inner :=
  inner_of_children rfl nofun h

/-- A reader of alternatives takes texts with bars between them. -/
def ReadsAlternatives (inner : AlternativesReader) : Prop :=
  ∀ {s s' : Progress} {ns : List Node}, inner s = .ok (ns, s') →
    (∀ n ∈ ns, n.Inner) ∧ s.rest = textAll ['|'] ns ++ s'.rest

namespace ReadsAlternatives

variable {inner : AlternativesReader} {ns : List Node} (hinner : ReadsAlternatives inner)

include hinner

theorem unquantified {repeats : Bool}
    (h : unquantified setting inner (Class.nested setting depth) s = .ok ((n, repeats), s')) :
    ReadFrom Inner s.rest s'.rest n := by
  obtain ⟨rest, hleaf, rfl⟩ | ⟨o, r, ns, s1, hencloses, rfl, -⟩ := unquantified_iff.1 h
  · exact ⟨hleaf.inner, hleaf.source⟩
  · obtain ⟨hshape, hsource⟩ := hinner hencloses.inside
    rw [o.rest_enter, hencloses.closes] at hsource
    refine ⟨o.inner_node _ hshape, ?_⟩
    rw [hencloses.opens, hsource, o.text_node]
    simp

theorem term (h : term setting inner (Class.nested setting depth) s = .ok (n, s')) :
    ReadFrom Inner s.rest s'.rest n := by
  obtain ⟨element, repeats, s1, rest, hread, hends, rfl⟩ := term_iff.1 h
  exact hends.readFrom (hinner.unquantified hread)

theorem row (h : Row (Pattern.term setting inner (Class.nested setting depth)) s ns s') :
    AllReadFrom Inner s.rest s'.rest ns := by
  induction h with
  | stop _ => exact allReadFrom_nil _
  | step _ hfirst _ ih => exact (ReadsAlternatives.term hinner hfirst).cons ih

theorem bars (h : Bars (Pattern.term setting inner (Class.nested setting depth)) s ns s') :
    ns ≠ [] ∧ (∀ n ∈ ns, n.Inner) ∧ s.rest = textAll ['|'] ns ++ s'.rest := by
  induction h with
  | last hrow _ =>
    have hread := hinner.row hrow
    have hshape := inner_alternative hread.shape
    exact ⟨List.cons_ne_nil _ _, List.forall_mem_singleton.2 hshape, hread.source⟩
  | more hrow hrest _ ih =>
    rename_i r _
    obtain ⟨hne, hmore, hsource⟩ := ih
    have hread := hinner.row hrow
    have hshape := inner_alternative hread.shape
    refine ⟨List.cons_ne_nil _ _, List.forall_mem_cons.2 ⟨hshape, hmore⟩, ?_⟩
    obtain ⟨second, ms, rfl⟩ := List.exists_cons_of_ne_nil hne
    rw [hread.source, hrest, show r = _ from hsource, textAll, Node.text]
    simp

end ReadsAlternatives

theorem disjunction_source (depth : Nat) : ReadsAlternatives (disjunction setting depth) := by
  induction depth with
  | zero => exact fun h => nomatch h
  | succ depth ih => exact fun h => (ReadsAlternatives.bars ih (disjunction_iff.1 h)).2

theorem unquantified_source {repeats : Bool} (h : unquantified setting (disjunction setting depth)
    (Class.nested setting depth) s = .ok ((n, repeats), s')) : s.rest = n.text ++ s'.rest :=
  (ReadsAlternatives.unquantified (disjunction_source depth) h).source

theorem termAt_source (h : termAt setting depth s = .ok (n, s')) : s.rest = n.text ++ s'.rest :=
  (ReadsAlternatives.term (disjunction_source depth) h).source

theorem Row.source {ns : List Node} (h : Row (termAt setting depth) s ns s') :
    s.rest = textAll [] ns ++ s'.rest :=
  (ReadsAlternatives.row (disjunction_source depth) h).source

theorem Bars.source {ns : List Node} (h : Bars (termAt setting depth) s ns s') :
    s.rest = textAll ['|'] ns ++ s'.rest :=
  (ReadsAlternatives.bars (disjunction_source depth) h).2.2

/-- What is read without a quantifier is no alternative and no quantifier. -/
theorem unquantified_ne {repeats : Bool} (h : unquantified setting (disjunction setting depth)
    (Class.nested setting depth) s = .ok ((n, repeats), s')) :
    (∀ ns, n ≠ .alternative ns) ∧ ∀ bounds greedy lexeme element,
      n ≠ .quantifier bounds greedy lexeme element := by
  obtain ⟨rest, hleaf, -⟩ | ⟨o, r, ns, s1, -, rfl, -⟩ := unquantified_iff.1 h
  · obtain ⟨e, rfl⟩ | ⟨ref, rfl⟩ | ⟨-, hclass⟩ := hleaf.shape
    · exact ⟨nofun, nofun⟩
    · exact ⟨nofun, nofun⟩
    · have hlevel := (classPart_iff.1 hclass).1
      constructor
      · rintro ns rfl
        cases hlevel
      · rintro bounds greedy lexeme element rfl
        cases hlevel
  · cases o <;> exact ⟨nofun, nofun⟩

theorem termAt_ne (h : termAt setting depth s = .ok (n, s')) (ns : List Node) :
    n ≠ .alternative ns := by
  obtain ⟨element, repeats, s1, rest, hread, hends, -⟩ := term_iff.1 h
  cases hends with
  | repeatable _ | unrepeatable _ => exact (unquantified_ne hread).1 ns
  | repeated _ => exact nofun

theorem disjunction_ne_nil {ns : List Node} (h : disjunction setting depth s = .ok (ns, s')) :
    ns ≠ [] := by
  cases depth with
  | zero => cases h
  | succ depth => exact (ReadsAlternatives.bars (disjunction_source depth) (disjunction_iff.1 h)).1

/-- A pattern that was read is a choice of alternatives none of which holds a whole pattern, and its
text is the source. -/
theorem read_source {limit : Nat} {flags : Flags} {source : List Char} {root : Node}
    {names : List (List Char)} (h : read limit flags source = .ok (root, names)) :
    ∃ ns, root = .choice .whole ns ∧ (∀ n ∈ ns, n.Inner) ∧ root.text = source := by
  rw [read, bind_eq_ok] at h
  obtain ⟨⟨ns, s⟩, hns, h⟩ := h
  obtain ⟨hinner, hsource⟩ := disjunction_source limit hns
  simp only at h
  split at h
  · rename_i hrest
    cases h
    rw [hrest, List.append_nil] at hsource
    exact ⟨ns, rfl, hinner, by simp [Node.text, Frame.opening, Frame.closing, ← hsource]⟩
  · cases h
  · cases h

end Pattern

/-- The tree of a pattern: a choice of alternatives, and no whole pattern below it. -/
def Node.IsPattern (root : Node) : Prop := ∃ ns, root = choice .whole ns ∧ ∀ n ∈ ns, n.Inner

theorem Node.IsPattern.whole_on_top {root : Node} (h : root.IsPattern) {trail : List Step}
    {ns : List Node} (hleads : root.Leads trail (choice .whole ns)) : trail = [] := by
  obtain ⟨alternatives, rfl, hinner⟩ := h
  cases trail with
  | nil => rfl
  | cons s up =>
    obtain ⟨c, hc, hpart⟩ := hleads.below
    exact absurd rfl ((hinner c hc _ hpart).1 ns)

theorem Node.IsPattern.classLevel_child {root m c : Node} (h : root.IsPattern)
    (hm : root.HasPart m) (hlevel : m.isClassLevel = true) (hc : c ∈ m.children) :
    c.isClassLevel = true := by
  obtain ⟨ns, rfl, hinner⟩ := h
  rcases hasPart_iff.1 hm with rfl | ⟨n, hn, hnm⟩
  · cases hlevel
  · exact (hinner n hn m hnm).2 hlevel c hc

theorem Regex.parse_source {source : List Char} {flags : Flags} {r : Regex}
    (h : Regex.parse source flags = .ok r) :
    r.source = source ∧ r.flags = flags ∧ r.root.IsPattern ∧ r.root.text = source := by
  rw [Regex.parse, bind_eq_ok] at h
  obtain ⟨root, hroot, h⟩ := h
  cases h
  refine ⟨rfl, rfl, ?_⟩
  unfold Pattern.parse Pattern.parseWithin at hroot
  split at hroot
  · cases hroot
  · rename_i hread
    split at hroot
    · cases hroot
    · cases hroot
      obtain ⟨ns, hroot, hinner, htext⟩ := Pattern.read_source hread
      exact ⟨⟨ns, hroot, hinner⟩, htext⟩

end RegexAudit
