import RegexAudit.Analysis.Form
import RegexAudit.Proofs.Matching
import RegexAudit.Proofs.Trees

/-!
# Canonical forms keep the matches

What a canonical form matches, and that the form of a node matches what the node does:

    (Form.ofNode flags n).spans flags x = n.spans flags x        (spans_ofNode)

Forms also keep to the nodes they are made of. `Fits p f` says that the nodes left in `f` have the
property `p`, and that no optional part of it is allowed zero times only.
-/

namespace RegexAudit

namespace Form

/-! ## Matches of a form -/

mutual

/-- What a form matches. -/
def spans [Properties] (flags : Flags) (x : Input) : Form → Span
  | other n => n.spans flags x
  | chars set => x.oneIn set
  | seq items => .row (spansAll flags x items)
  | choice alternatives => .oneOf (spansAll flags x alternatives)
  | look direction negate alternatives => (Node.look direction negate alternatives).spans flags x
  | optional element max => .repeated 0 max (spans flags x element)

def spansAll [Properties] (flags : Flags) (x : Input) : List Form → List Span
  | [] => []
  | f :: rest => spans flags x f :: spansAll flags x rest

end

section
variable [Properties] (flags : Flags) (x : Input)

@[simp] theorem spansAll_nil : spansAll flags x [] = [] := rfl

@[simp] theorem spansAll_cons (f : Form) (fs : List Form) :
    spansAll flags x (f :: fs) = f.spans flags x :: spansAll flags x fs := rfl

@[simp] theorem spansAll_append (fs gs : List Form) :
    spansAll flags x (fs ++ gs) = spansAll flags x fs ++ spansAll flags x gs := by
  induction fs with
  | nil => rfl
  | cons f fs ih => rw [List.cons_append, spansAll_cons, ih, spansAll_cons, List.cons_append]

theorem mem_oneOf {flags : Flags} {x : Input} {fs : List Form} {i j : Nat} :
    Span.oneOf (spansAll flags x fs) i j ↔ ∃ f ∈ fs, f.spans flags x i j := by
  induction fs with
  | nil => simp [Span.oneOf]
  | cons f fs ih =>
    rw [spansAll_cons, Span.oneOf_cons, ih]
    simp

theorem seen_oneOf {flags : Flags} {x : Input} {fs : List Form} {direction : Direction} {i : Nat} :
    (Span.oneOf (spansAll flags x fs)).seen direction i ↔
      ∃ f ∈ fs, (f.spans flags x).seen direction i := by
  cases direction with
  | forward =>
    simp only [Span.seen, mem_oneOf]
    exact ⟨fun ⟨j, f, hf, h⟩ => ⟨f, hf, j, h⟩, fun ⟨f, hf, j, h⟩ => ⟨j, f, hf, h⟩⟩
  | backward =>
    simp only [Span.seen, mem_oneOf]
    exact ⟨fun ⟨k, f, hf, h⟩ => ⟨f, hf, k, h⟩, fun ⟨f, hf, k, h⟩ => ⟨k, f, hf, h⟩⟩

/-- What forms in a row match. -/
def rowSpans (fs : List Form) : Span := .row (spansAll flags x fs)

@[simp] theorem rowSpans_nil : rowSpans flags x [] = Span.empty := rfl

@[simp] theorem rowSpans_cons (f : Form) (fs : List Form) :
    rowSpans flags x (f :: fs) = (f.spans flags x).andThen (rowSpans flags x fs) := rfl

@[simp] theorem rowSpans_append (fs gs : List Form) :
    rowSpans flags x (fs ++ gs) = (rowSpans flags x fs).andThen (rowSpans flags x gs) := by
  rw [rowSpans, spansAll_append, Span.row_append]
  rfl

/-- A form and the row of its items match the same. -/
theorem rowSpans_items (f : Form) : rowSpans flags x f.items = f.spans flags x := by
  cases f with
  | seq items => rfl
  | other _ | chars _ | choice _ | look _ _ _ | optional _ _ => exact Span.row_singleton _

/-- A row is matched part by part. -/
theorem spans_row (fs : List Form) : (row fs).spans flags x = rowSpans flags x fs := by
  match fs with
  | [] => rfl
  | [f] => exact (Span.row_singleton _).symm
  | _ :: _ :: _ => rfl

/-- One of some forms is matched where one of them is. -/
theorem spans_oneOf (fs : List Form) :
    (oneOf fs).spans flags x = Span.oneOf (spansAll flags x fs) := by
  match fs with
  | [] => rfl
  | [f] => exact (Span.oneOf_singleton _).symm
  | _ :: _ :: _ => rfl

theorem spans_repeated (count : Nat) (tail : List Form) (f : Form) :
    (repeated count tail f).spans flags x
      = ((f.spans flags x).power count).andThen (rowSpans flags x tail) := by
  have hcopies : rowSpans flags x (List.replicate count f.items).flatten
      = (f.spans flags x).power count := by
    induction count with
    | zero => rfl
    | succ k ih =>
      rw [List.replicate_succ, List.flatten_cons, rowSpans_append, ih, rowSpans_items, Span.power]
  rw [repeated, spans_row, rowSpans_append, hcopies]

/-- The forced repetitions and the rest after them are all repetitions. -/
theorem repeated_eq_rest (bounds : Bounds) (f : Form) :
    Span.repeated bounds.min bounds.max (f.spans flags x)
      = ((f.spans flags x).power bounds.min).andThen (rowSpans flags x (rest bounds f)) := by
  have hrest : Span.repeated 0 (bounds.max.map (· - bounds.min)) (f.spans flags x)
      = rowSpans flags x (rest bounds f) := by
    unfold rest
    split
    · rename_i hfixed
      rw [Bounds.isFixed, beq_iff_eq] at hfixed
      rw [hfixed, Option.map_some, Nat.sub_self, Span.repeated_zero]
      rfl
    · exact (Span.row_singleton _).symm
  rw [← hrest, ← Span.repeated_rest]

mutual

/-- The canonical form of a node matches what the node matches. -/
theorem spans_ofNode : (n : Node) → (ofNode flags n).spans flags x = n.spans flags x
  | .alternative elements => by
    rw [ofNode, spans_row, rowSpans_itemsOf elements, Node.spans]
  | .choice _ alternatives => by
    rw [ofNode, spans_oneOf, spansAll_ofNodes alternatives, Node.spans]
  | .look .. => by rw [ofNode, spans]
  | .quantifier bounds greedy lexeme element => by
    rw [ofNode]
    simp only
    split
    · rw [spans]
    · split
      · rw [spans]
      · rw [spans_repeated, ← repeated_eq_rest, spans_ofNode element, Node.spans]
  | .edge _ | .backreference _ | .strings _ | .string _ => by
    simp only [ofNode, Node.isCharacter, Node.category]
    rfl
  | .character _ | .range .. | .shorthand _ | .charClass .. | .classExpression ..
  | .classOperation .. => by
    simp only [ofNode, Node.isCharacter, Node.category, beq_self_eq_true, if_true]
    split
    · rename_i h
      rw [spans, Node.spans, Input.character, h]
    · rw [spans]

theorem spansAll_ofNodes :
    (ns : List Node) → spansAll flags x (ofNodes flags ns) = Node.spansAll flags x ns
  | [] => rfl
  | n :: ns => by
    rw [ofNodes, spansAll_cons, spans_ofNode n, spansAll_ofNodes ns, Node.spansAll]

theorem rowSpans_itemsOf :
    (ns : List Node) → rowSpans flags x (itemsOf flags ns) = Span.row (Node.spansAll flags x ns)
  | [] => rfl
  | n :: ns => by
    rw [itemsOf, rowSpans_append, rowSpans_items, spans_ofNode n, rowSpans_itemsOf ns,
      Node.spansAll, Span.row_cons]

end

/-- The canonical form of a node matches the stretches that the node matches. A lookaround keeps the
nodes it looks for, and it is as well the test that looks for their canonical forms. -/
theorem ofNode_keeps_matches :
    (∀ n i j, (ofNode flags n).spans flags x i j ↔ n.spans flags x i j) ∧
    ∀ direction negate alternatives i j,
      (ofNode flags (.look direction negate alternatives)).spans flags x i j ↔
        i = j ∧ ((∃ f ∈ ofNodes flags alternatives, (f.spans flags x).seen direction i) ↔
          negate = false) := by
  refine ⟨fun n i j => by rw [spans_ofNode], fun direction negate alternatives i j => ?_⟩
  rw [spans_ofNode, Node.spans, ← spansAll_ofNodes, Span.test, seen_oneOf]

mutual

/-- Forms match inside the text. -/
theorem within_spans : (f : Form) → Span.Within x.text.length (f.spans flags x)
  | other n => by
    rw [spans]
    exact n.within_spans flags x
  | chars set => by
    rw [spans]
    exact x.within_oneIn set
  | seq items => by
    rw [spans]
    exact Span.within_row (within_spansAll items)
  | choice alternatives => by
    rw [spans]
    exact Span.within_oneOf (within_spansAll alternatives)
  | look direction negate alternatives => by
    rw [spans]
    exact (Node.look direction negate alternatives).within_spans flags x
  | optional element max => by
    rw [spans]
    exact Span.within_repeated (within_spans element) 0 max

theorem within_spansAll :
    (fs : List Form) → ∀ P ∈ spansAll flags x fs, Span.Within x.text.length P
  | [] => by simp
  | f :: fs => by
    rw [spansAll_cons, List.forall_mem_cons]
    exact ⟨within_spans f, within_spansAll fs⟩

end

theorem within_rowSpans (fs : List Form) : Span.Within x.text.length (rowSpans flags x fs) :=
  Span.within_row (within_spansAll flags x fs)

end

/-! ## Rows -/

def isSeq : Form → Bool
  | seq _ => true
  | _ => false

theorem items_of_not_isSeq {f : Form} (h : f.isSeq = false) : f.items = [f] := by
  cases f with
  | seq _ => cases h
  | _ => rfl

/-- A row of parts that are no rows themselves has these parts. -/
theorem items_row {fs : List Form} (h : ∀ f ∈ fs, f.isSeq = false) : (row fs).items = fs := by
  match fs with
  | [f] => exact items_of_not_isSeq (h f (List.mem_singleton_self f))
  | [] | _ :: _ :: _ => rfl

/-- What a repetition is written out to are items of what is repeated, and perhaps an optional part
that may be taken at least once. -/
theorem mem_repeated {f g : Form} {bounds : Bounds}
    (h : g ∈ (List.replicate bounds.min f.items).flatten ++ rest bounds f) :
    g ∈ f.items ∨ ∃ max, max ≠ some 0 ∧ g = optional f max := by
  rcases List.mem_append.1 h with h | h
  · obtain ⟨copy, hcopy, hg⟩ := List.mem_flatten.1 h
    rw [List.eq_of_mem_replicate hcopy] at hg
    exact .inl hg
  · unfold rest at h
    split at h
    · cases h
    · rename_i hfixed
      refine .inr ⟨_, fun h0 => hfixed ?_, List.mem_singleton.1 h⟩
      obtain ⟨m, hm, h0⟩ := Option.map_eq_some_iff.1 h0
      have := bounds.ordered m hm
      rw [Bounds.isFixed, hm, beq_iff_eq, Option.some.injEq]
      omega

/-! ## Nodes of a form -/

mutual

/-- The nodes left in the form have the property, and optional parts may be taken at least once. -/
def Fits (p : Node → Prop) : Form → Prop
  | other n => p n
  | chars _ => True
  | seq items => AllFit p items
  | choice alternatives => AllFit p alternatives
  | look direction negate alternatives => p (.look direction negate alternatives)
  | optional element max => max ≠ some 0 ∧ Fits p element

def AllFit (p : Node → Prop) : List Form → Prop
  | [] => True
  | f :: rest => Fits p f ∧ AllFit p rest

end

section
variable {p : Node → Prop}

theorem allFit_iff (fs : List Form) : AllFit p fs ↔ ∀ f ∈ fs, Fits p f := by
  induction fs with
  | nil => simp [AllFit]
  | cons f fs ih => rw [AllFit, ih, List.forall_mem_cons]

theorem fits_seq (fs : List Form) : Fits p (seq fs) ↔ ∀ f ∈ fs, Fits p f := by
  rw [Fits, allFit_iff]

theorem fits_choice (fs : List Form) : Fits p (choice fs) ↔ ∀ f ∈ fs, Fits p f := by
  rw [Fits, allFit_iff]

theorem fits_optional (f : Form) (max : Option Nat) :
    Fits p (optional f max) ↔ max ≠ some 0 ∧ Fits p f := by rw [Fits]

theorem fits_items {f : Form} (h : Fits p f) : ∀ g ∈ f.items, Fits p g := by
  cases f with
  | seq items => exact (fits_seq items).1 h
  | other _ | chars _ | choice _ | look _ _ _ | optional _ _ =>
    intro g hg
    rw [items, List.mem_singleton] at hg
    · rwa [hg]
    · simp

/-- A row of forms that fit fits. -/
theorem fits_row {fs : List Form} (h : ∀ f ∈ fs, Fits p f) : Fits p (row fs) := by
  match fs with
  | [f] => exact h f (by simp)
  | [] => exact (fits_seq _).2 h
  | _ :: _ :: _ => exact (fits_seq _).2 h

theorem fits_oneOf {fs : List Form} (h : ∀ f ∈ fs, Fits p f) : Fits p (oneOf fs) := by
  match fs with
  | [f] => exact h f (by simp)
  | [] => exact (fits_choice _).2 h
  | _ :: _ :: _ => exact (fits_choice _).2 h

theorem fits_repeated {f : Form} (h : Fits p f) (bounds : Bounds) :
    Fits p (repeated bounds.min (rest bounds f) f) := by
  apply fits_row
  intro g hg
  rcases mem_repeated hg with hg | ⟨max, hmax, rfl⟩
  · exact fits_items h g hg
  · exact (fits_optional f max).2 ⟨hmax, h⟩

variable [Properties]

mutual

/-- What every part of a node inherits holds of the nodes in its form. -/
theorem fits_ofNode (hp : Node.Hereditary p) (flags : Flags) :
    (n : Node) → p n → Fits p (ofNode flags n)
  | .alternative elements, h => by
    rw [ofNode]
    exact fits_row (fits_itemsOf hp flags elements (hp _ h rfl))
  | .choice _ alternatives, h => by
    rw [ofNode]
    exact fits_oneOf (fits_ofNodes hp flags alternatives (hp _ h rfl))
  | .look .., h => by
    rw [ofNode]
    exact h
  | .quantifier bounds greedy lexeme element, h => by
    rw [ofNode]
    simp only
    split
    · exact h
    · split
      · exact h
      · have helement := hp _ h rfl element (by simp [Node.children])
        exact fits_repeated (fits_ofNode hp flags element helement) bounds
  | .edge _, h | .backreference _, h | .strings _, h | .string _, h => h
  | .character _, h | .range .., h | .shorthand _, h | .charClass .., h | .classExpression .., h
  | .classOperation .., h => by
    simp only [ofNode, Node.isCharacter, Node.category, beq_self_eq_true, if_true]
    split
    · trivial
    · exact h

theorem fits_ofNodes (hp : Node.Hereditary p) (flags : Flags) :
    (ns : List Node) → (∀ n ∈ ns, p n) → ∀ f ∈ ofNodes flags ns, Fits p f
  | [], _ => by simp [ofNodes]
  | n :: ns, h => by
    rw [ofNodes, List.forall_mem_cons]
    exact ⟨fits_ofNode hp flags n (h n (by simp)),
      fits_ofNodes hp flags ns fun m hm => h m (by simp [hm])⟩

theorem fits_itemsOf (hp : Node.Hereditary p) (flags : Flags) :
    (ns : List Node) → (∀ n ∈ ns, p n) → ∀ f ∈ itemsOf flags ns, Fits p f
  | [], _ => by simp [itemsOf]
  | n :: ns, h => by
    intro f hf
    rw [itemsOf] at hf
    rcases List.mem_append.1 hf with hf | hf
    · exact fits_items (fits_ofNode hp flags n (h n (by simp))) f hf
    · exact fits_itemsOf hp flags ns (fun m hm => h m (by simp [hm])) f hf

end

end

end Form

end RegexAudit
