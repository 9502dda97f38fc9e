import RegexAudit.Analysis.Equality
import RegexAudit.Proofs.PatternsAlone

/-!
# Parts with equal texts

Parts of a parsed pattern that are of one kind and have equal texts match the same, if no reference
stands in them:

    Told n  ∧  Told m  ∧  sameText n m  →  n and m have the same spans

`Told` says that a part is what is read from its text. It holds of all parts of a parsed pattern
outside of its classes.
-/

namespace RegexAudit

namespace Node

theorem isClassLevel_of_isCharacter {n : Node} (h : n.isCharacter = true) :
    n.isClassLevel = true := by
  cases n <;> first | rfl | cases h

/-- Outside of classes the parts of a pattern are those that can be reached outside of classes. -/
theorem IsPattern.hasTerm {root n : Node} (h : root.IsPattern) (hn : root.HasPart n)
    (hclass : n.isClassLevel = false) : root.HasTerm n := by
  induction hn with
  | self => exact .self
  | child hm hc ih =>
    rename_i m c
    have hm' : m.isClassLevel = false := by
      cases hlevel : m.isClassLevel with
      | false => rfl
      | true =>
        rw [h.classLevel_child hm hlevel hc] at hclass
        cases hclass
    refine (ih hm').child ?_ hc
    cases hcharacter : m.isCharacter with
    | false => rfl
    | true =>
      rw [isClassLevel_of_isCharacter hcharacter] at hm'
      cases hm'

end Node

namespace Pattern

open Node

variable {setting : Setting} {n : Node}

/-! ## Reading again -/

/-- Read a node of a kind from its text alone. -/
def readAlone (setting : Setting) (limit : Nat) (kind : Kind) (text : List Char) :
    Except Fault (Node × Progress) :=
  let reader := term setting (disjunction setting limit) (Class.nested setting limit)
  if kind = .alternative then alternative reader ⟨text, 0, []⟩ else reader ⟨text, 0, []⟩

/-- A node without references is what is read from its text, up to the numbers of groups. -/
def Told (setting : Setting) (limit : Nat) (n : Node) : Prop :=
  n.hasBackreference = false → n = backslash ∨ ∃ n' s,
    readAlone setting.alone limit n.kind n.text = .ok (n', s) ∧ n'.unnumbered = n.unnumbered

/-- All parts outside of classes are told by their texts. -/
def AllTold (setting : Setting) (limit : Nat) (n : Node) : Prop :=
  ∀ m, n.HasTerm m → Told setting limit m

/-- A backslash is no pattern by itself. -/
theorem readAlone_backslash (setting : Setting) (limit : Nat) {read : Node × Progress} :
    readAlone setting limit .character ['\\'] ≠ .ok read := by
  intro h
  cases h

/-- Parts of one kind with equal texts match the same. -/
theorem spans_of_sameText [Properties] {limit : Nat} {n m : Node} (hn : Told setting limit n)
    (hm : Told setting limit m) (hnref : n.hasBackreference = false)
    (hmref : m.hasBackreference = false) (h : Comparison.sameText n m = true) (flags : Flags)
    (x : Input) : n.spans flags x = m.spans flags x := by
  simp only [Comparison.sameText, Bool.and_eq_true, beq_iff_eq] at h
  obtain ⟨⟨hkind, -⟩, htext⟩ := h
  rcases hn hnref with rfl | ⟨n', s, hn', hsame⟩
  · rcases hm hmref with rfl | ⟨m', t, hm', -⟩
    · rfl
    · rw [← hkind, ← htext] at hm'
      exact absurd hm' (readAlone_backslash _ _)
  · rcases hm hmref with rfl | ⟨m', t, hm', hsame'⟩
    · rw [hkind, htext] at hn'
      exact absurd hn' (readAlone_backslash _ _)
    · rw [hkind, htext, hm'] at hn'
      obtain ⟨rfl, rfl⟩ := Prod.mk.inj (Except.ok.inj hn')
      rw [← spans_unnumbered flags x n, ← hsame, hsame', spans_unnumbered]

section
variable {limit depth : Nat} {s s' : Progress}

/-- A text, cut off from what comes after it. -/
theorem cut_text {text : List Char} (h : s.rest = text ++ s'.rest) :
    s.Cut s'.rest ⟨text, 0, []⟩ :=
  ⟨h, List.nil_subset _⟩

theorem Progress.Cut.rest_nil {t : Progress} (h : s.Cut s.rest t) : t.rest = [] :=
  List.append_left_eq_self.1 h.rest.symm

/-- What is read as a term without a quantifier is told by its text. -/
theorem told_unquantified (hdepth : depth ≤ limit) {repeats : Bool}
    (h : unquantified setting (disjunction setting depth) (Class.nested setting depth) s =
      .ok ((n, repeats), s')) : Told setting limit n := by
  intro hreference
  have hsource := unquantified_source h
  by_cases hlone : n.text = ['\\']
  · rw [hlone] at hsource
    exact .inl (unquantified_lone h hsource).1
  · right
    obtain ⟨n', t, hn', hsame, hcut⟩ := unquantified_alone hdepth (reads_alone setting hdepth) h
      (cut_text hsource) (List.suffix_refl _) hlone hreference
    refine ⟨n', t.next [], ?_, hsame⟩
    have hkind : n.kind ≠ .alternative := by
      intro hkind
      obtain ⟨ns, rfl⟩ := kind_eq_alternative.1 hkind
      exact (unquantified_ne h).1 ns rfl
    have hends : Ends setting.alone n' repeats t.rest n' [] := by
      rw [hcut.rest_nil]
      exact .nil _ _ _
    rw [readAlone, if_neg hkind]
    exact term_iff.2 ⟨n', repeats, t, [], hn', hends, rfl⟩

theorem told_term (hdepth : depth ≤ limit) (h : termAt setting depth s = .ok (n, s')) :
    Told setting limit n := by
  intro hreference
  have hsource := termAt_source h
  by_cases hlone : n.text = ['\\']
  · rw [hlone] at hsource
    exact .inl (term_lone h hsource).1
  · right
    obtain ⟨n', t, hn', hsame, -⟩ := term_alone hdepth (reads_alone setting hdepth) h
      (cut_text hsource) (List.suffix_refl _) hlone hreference
    refine ⟨n', t, ?_, hsame⟩
    have hkind : n.kind ≠ .alternative := by
      intro hkind
      obtain ⟨ns, rfl⟩ := kind_eq_alternative.1 hkind
      exact termAt_ne h ns rfl
    rw [readAlone, if_neg hkind]
    exact hn'

/-- A node is told with its parts, if it is told and so are its children. -/
theorem allTold_of_children (hn : Told setting limit n)
    (hchildren : n.isCharacter = false → ∀ c ∈ n.children, AllTold setting limit c) :
    AllTold setting limit n := by
  intro m hm
  obtain rfl | ⟨hclass, c, hc, hcm⟩ := hasTerm_iff.1 hm
  · exact hn
  · exact hchildren hclass c hc m hcm

section
variable (hdepth : depth ≤ limit) (hinner : ∀ {s s' ns}, disjunction setting depth s = .ok (ns, s') →
  ∀ m ∈ ns, AllTold setting limit m)

include hdepth hinner

/-- The parts of a term are told, if those of the alternatives in it are. -/
theorem allTold_term (h : termAt setting depth s = .ok (n, s')) : AllTold setting limit n := by
  obtain ⟨element, repeats, s1, rest, hread, hends, rfl⟩ := term_iff.1 h
  have helement : AllTold setting limit element := by
    refine allTold_of_children (told_unquantified hdepth hread) fun hclass => ?_
    obtain ⟨_, hleaf, -⟩ | ⟨o, _, ns, _, hencloses, rfl, -⟩ := unquantified_iff.1 hread
    · obtain ⟨_, rfl⟩ | ⟨_, rfl⟩ | ⟨hn, -⟩ := hleaf.shape
      · exact List.forall_mem_nil _
      · exact List.forall_mem_nil _
      · rw [hclass] at hn
        cases hn
    · rw [o.children_node]
      exact hinner hencloses.inside
  have htold := told_term hdepth h
  cases hends with
  | repeatable _ | unrepeatable _ => exact helement
  | repeated _ =>
    exact allTold_of_children htold fun _ => by simpa [children] using helement

theorem allTold_alternative {ns : List Node} (h : Row (termAt setting depth) s ns s') :
    AllTold setting limit (Node.alternative ns) := by
  refine allTold_of_children (fun hreference => .inr ?_) fun _ => h.forall (allTold_term hdepth hinner)
  rw [hasBackreference] at hreference
  obtain ⟨ns', t, hrow, hsame, -⟩ := h.alone hdepth (reads_alone setting hdepth)
    (cut_text h.source) (List.suffix_refl _) hreference
  refine ⟨.alternative ns', t, ?_, by rw [unnumbered, unnumbered, hsame]⟩
  exact (alternative_iff termAt_tail).2 ⟨ns', hrow, rfl⟩

end

theorem allTold_disjunction (hdepth : depth ≤ limit) {ns : List Node}
    (h : disjunction setting depth s = .ok (ns, s')) : ∀ m ∈ ns, AllTold setting limit m := by
  induction depth generalizing s s' ns with
  | zero => cases h
  | succ depth ih =>
    have hdepth' : depth ≤ limit := Nat.le_of_succ_le hdepth
    exact (disjunction_iff.1 h).forall (allTold_alternative hdepth' (ih hdepth'))

end

end Pattern

theorem Pattern.AllTold.of_hasTerm {setting : Setting} {limit : Nat} {n m : Node}
    (h : AllTold setting limit n) (hm : n.HasTerm m) : AllTold setting limit m :=
  fun _ hpart => h _ (hm.trans hpart)

/-- The children of the root of a parsed pattern are told by their texts. -/
theorem Regex.allTold_children {source : List Char} {flags : Flags} {r : Regex}
    (h : Regex.parse source flags = .ok r) :
    ∃ setting limit, ∀ n ∈ r.root.children, Pattern.AllTold setting limit n := by
  rw [Regex.parse, bind_eq_ok] at h
  obtain ⟨root, hroot, h⟩ := h
  cases h
  unfold Pattern.parse Pattern.parseWithin at hroot
  split at hroot
  · cases hroot
  · rename_i hread
    split at hroot
    · cases hroot
    · cases hroot
      rw [Pattern.read, bind_eq_ok] at hread
      obtain ⟨⟨ns, s⟩, hns, hread⟩ := hread
      simp only at hread
      split at hread
      · cases hread
        exact ⟨_, _, Pattern.allTold_disjunction (Nat.le_refl _) hns⟩
      · cases hread
      · cases hread

/-- All parts of a parsed pattern below its root and outside of its classes are told by their
texts. -/
theorem Regex.allTold {source : List Char} {flags : Flags} {r : Regex}
    (h : Regex.parse source flags = .ok r) : ∃ setting limit, ∀ n c, r.root.HasTerm n →
      n.isCharacter = false → c ∈ n.children → Pattern.AllTold setting limit c := by
  obtain ⟨setting, limit, htold⟩ := Regex.allTold_children h
  refine ⟨setting, limit, fun n c hn hclass hc => ?_⟩
  rcases Node.hasTerm_iff.1 hn with rfl | ⟨-, d, hd, hdn⟩
  · exact htold c hc
  · exact (htold d hd).of_hasTerm (hdn.child hclass hc)

end RegexAudit
