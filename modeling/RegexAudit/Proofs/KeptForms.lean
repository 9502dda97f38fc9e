import RegexAudit.Analysis.Cover
import RegexAudit.Proofs.Walks
import RegexAudit.Syntax.Regex

/-!
# Kept forms

The canonical form of a node is made once, and kept by the number of the node. When a search for
coverage comes to two lookarounds, the forms of their alternatives are looked up as well; so a form
that is kept has the numbers of its lookarounds (`Kept`), and the search is put down here once more,
with this memory as a state:

    Agrees regex ((within equal regex.flags depth).node k l loose)
      ((Cover.within equal (Form.ofNodes regex.flags) depth).node f g loose)         (agrees_within)

where `k` and `l` are kept for `f` and `g`. Whatever was kept before, if it is right (`Memo.Sound`),
the search takes the same steps and comes to the same verdict as one that makes all forms anew, and
what it keeps is right again.
-/

namespace RegexAudit

/-- A canonical form with the numbers of its lookarounds. -/
inductive Kept where
  | other (node : Node)
  | chars (set : CharSet)
  | seq (items : List Kept)
  | choice (alternatives : List Kept)
  | look (direction : Direction) (negate : Bool) (position : Nat) (alternatives : List Node)
  | optional (element : Kept) (max : Option Nat)

namespace Kept

mutual

/-- The form without the numbers. -/
def form : Kept → Form
  | other node => .other node
  | chars set => .chars set
  | seq items => .seq (forms items)
  | choice alternatives => .choice (forms alternatives)
  | look direction negate _ alternatives => .look direction negate alternatives
  | optional element max => .optional (form element) max

def forms : List Kept → List Form
  | [] => []
  | k :: rest => form k :: forms rest

end

/-! ## Forms that are looked up -/

/-- Forms by the numbers of the nodes they are of. -/
abbrev Memo := List (Nat × Kept)

/-- The form that is kept under a number. If there is none it is made, and kept from then on. -/
def lookUp (position : Nat) (make : StateM Memo Kept) : StateM Memo Kept := do
  match (← get).lookup position with
  | some form => return form
  | none =>
    let form ← make
    modify fun memo => (position, form) :: memo
    return form

def items : Kept → List Kept
  | seq items => items
  | k => [k]

/-- The parts in a row; a single part is itself. -/
def row : List Kept → Kept
  | [k] => k
  | items => seq items

/-- One of the alternatives; a single alternative is itself. -/
def oneOf : List Kept → Kept
  | [k] => k
  | alternatives => choice alternatives

/-- `k` repeated as often as it must be, and an optional rest. -/
def repeated (bounds : Bounds) (k : Kept) : Kept :=
  row ((List.replicate bounds.min k.items).flatten ++
    if bounds.isFixed then [] else [optional k (bounds.max.map (· - bounds.min))])

section
variable [Properties]

mutual

/-- The canonical form of a node with its number in the walk. -/
def formAt (flags : Flags) (position : Nat) : Node → StateM Memo Kept
  | .alternative elements => lookUp position do
    return row ((← formsAt flags (position + 1) elements).flatMap items)
  | .choice _ alternatives => lookUp position do
    return oneOf (← formsAt flags (position + 1) alternatives)
  | .look direction negate alternatives => lookUp position do
    return look direction negate position alternatives
  | .quantifier bounds greedy lexeme element => lookUp position do
    let node := Node.quantifier bounds greedy lexeme element
    if bounds.max == some 0 || Form.unrollLimit < bounds.min then return other node
    let k ← formAt flags (position + 1) element
    if Form.unrollLimit < bounds.min * k.items.length then return other node
    return repeated bounds k
  | node => lookUp position do
    if node.isCharacter then
      match node.charSet? flags with
      | some set => return chars set
      | none => return other node
    else return other node

/-- The canonical forms of nodes in a row, the first one with this number. -/
def formsAt (flags : Flags) (position : Nat) : List Node → StateM Memo (List Kept)
  | [] => return []
  | n :: ns => do
    let k ← formAt flags position n
    return k :: (← formsAt flags (position + n.size) ns)

end

end

/-! ## Searches with a memory -/

/-- From the steps left to a verdict and the steps left after it, with forms that are kept. -/
abbrev Search := Nat → StateM Memo (Bool × Nat)

/-- Take a step, and go on if one is left after it. -/
def tick (next : Search) : Search := fun fuel =>
  if 1 < fuel then next (fuel - 1) else return (false, 0)

/-- A verdict that takes no step. -/
def done (verdict : Bool) : Search := fun fuel => return (verdict, fuel)

/-- The first search, and if it fails the second. -/
def orElse (first second : Search) : Search := fun fuel => do
  match ← first fuel with
  | (true, fuel) => return (true, fuel)
  | (false, fuel) => second fuel

/-- The first search, and if it succeeds the second. -/
def andThen (first second : Search) : Search := fun fuel => do
  match ← first fuel with
  | (true, fuel) => second fuel
  | (false, fuel) => return (false, fuel)

/-- Every member, in order, up to the first failure. -/
def everyOf (search : Kept → Search) : List Kept → Search
  | [] => done true
  | k :: ks => andThen (search k) (everyOf search ks)

/-- Some member, in order, up to the first success. -/
def someOf (search : Kept → Search) : List Kept → Search
  | [] => done false
  | k :: ks => orElse (search k) (someOf search ks)

mutual

/-- The form as a row whose first part is no row. -/
def exposed : Kept → List Kept
  | .seq items => exposedRow items
  | k => [k]

/-- The row with its first part taken apart until it is no row; empty rows go. -/
def exposedRow : List Kept → List Kept
  | [] => []
  | k :: rest =>
    match exposed k with
    | [] => exposedRow rest
    | ks => ks ++ rest

end

/-- The row without the optional parts at its end. -/
def withoutOptionalEnd (row : List Kept) : List Kept :=
  (row.reverse.dropWhile (·.form.isOptional)).reverse

/-- Up to `max` repetitions in front of a row; none at all if `max` is 0. -/
def consOptional (element : Kept) (max : Option Nat) (row : List Kept) : List Kept :=
  if max == some 0 then row else .optional element max :: row

/-- How forms and rows are compared one level further down. -/
structure Inner where
  node : Kept → Kept → Bool → Search
  rows : List Kept → List Kept → Bool → Search

/-- The optional head `element` of the right row, left out and taken once more. -/
def unrollRight (inner : Inner) (left right : List Kept) (element : Kept) (max : Option Nat)
    (loose : Bool) : Search :=
  andThen (inner.rows left right loose)
    (if element.form.canBeEmpty then done false
    else inner.rows left (element :: consOptional element (max.map (· - 1)) right) loose)

/-- Both heads are optional: they cover each other as far as the smaller number goes, or the right
one is unrolled. -/
def optionalHeads (inner : Inner) (l : Kept) (m : Option Nat) (left : List Kept) (r : Kept)
    (n : Option Nat) (right : List Kept) (loose : Bool) : Search :=
  orElse
    (andThen (inner.node l r false)
      (if Cover.atLeast m n then inner.rows (consOptional l (Cover.less m n) left) right loose
      else inner.rows left (consOptional r (Cover.less n m) right) loose))
    (unrollRight inner (.optional l m :: left) right r n loose)

/-- Compare two rows by their heads; `next` goes on with what is left. -/
def byHeads (inner : Inner) (next : List Kept → List Kept → Search) (loose : Bool)
    (left right : List Kept) : Search :=
  match left, right with
  | left, .choice alternatives :: right =>
    everyOf (fun r => inner.rows left (r :: right) loose) alternatives
  | .choice alternatives :: left, right =>
    someOf (fun l => inner.rows (l :: left) right loose) alternatives
  | left, [] => done (left.all (·.form.isOptional))
  | [], _ => done loose
  | .optional l m :: left, .optional r n :: right => optionalHeads inner l m left r n right loose
  | left, .optional r n :: right => unrollRight inner left right r n loose
  | .optional l m :: left, right =>
    orElse (inner.rows left right loose)
      (if l.form.canBeEmpty then done false
      else next (l :: consOptional l (m.map (· - 1)) left) right)
  | l :: left, r :: right => andThen (inner.node l r false) (next left right)

/-- Compare two rows for at most `rounds` rounds. -/
def loop (inner : Inner) (loose : Bool) : (rounds : Nat) → (left right : List Kept) → Search
  | 0, _, _ => done false
  | rounds + 1, left, right =>
    let left := exposedRow (if loose then withoutOptionalEnd left else left)
    tick (byHeads inner (loop inner loose rounds) loose left (exposedRow right))

section
variable [Properties] (equal : Node → Node → Bool) (flags : Flags)

/-- Compare two forms; `equal` compares nodes known by their form only. The forms of the
alternatives of lookarounds are looked up, first the left ones. -/
def byForm (inner : Inner) (left right : Kept) (loose : Bool) : Search :=
  match left, right with
  | left, .choice alternatives => everyOf (fun r => inner.node left r loose) alternatives
  | .choice alternatives, right => someOf (fun l => inner.node l right loose) alternatives
  | .seq _, _ | .optional .., _ | _, .seq _ | _, .optional .. =>
    inner.rows left.items right.items loose
  | .chars s, .chars t => done (t.isSubset s)
  | .other a, .other b => done (equal a b)
  | .look d m i xs, .look e n j ys =>
    if !m && !n && d == e then fun fuel => do
      let xs ← formsAt flags (i + 1) xs
      let ys ← formsAt flags (j + 1) ys
      everyOf (fun r => someOf (fun l => inner.node l r (d == .forward)) xs) ys fuel
    else done (equal (.look d m xs) (.look e n ys))
  | _, _ => done false

/-- The comparisons that may go `depth` levels down. -/
def within : (depth : Nat) → Inner
  | 0 => ⟨fun _ _ _ => done false, fun _ _ _ => done false⟩
  | depth + 1 =>
    let inner := within depth
    ⟨fun left right loose => tick (byForm equal flags inner left right loose),
     fun left right loose fuel => loop inner loose fuel left right fuel⟩

end

/-! ## What is kept -/

mutual

/-- This is kept for a form: its lookarounds have the numbers of places of the pattern. -/
inductive Keeps (regex : Regex) : Kept → Form → Prop
  | other (n : Node) : Keeps regex (.other n) (.other n)
  | chars (set : CharSet) : Keeps regex (.chars set) (.chars set)
  | seq {ks : List Kept} {fs : List Form} : KeepsAll regex ks fs → Keeps regex (.seq ks) (.seq fs)
  | choice {ks : List Kept} {fs : List Form} :
    KeepsAll regex ks fs → Keeps regex (.choice ks) (.choice fs)
  | look {p : Place} {direction : Direction} {negate : Bool} {alternatives : List Node} :
    p ∈ regex.walk → p.node = .look direction negate alternatives →
    Keeps regex (.look direction negate p.position alternatives)
      (.look direction negate alternatives)
  | optional {k : Kept} {f : Form} (max : Option Nat) :
    Keeps regex k f → Keeps regex (.optional k max) (.optional f max)

inductive KeepsAll (regex : Regex) : List Kept → List Form → Prop
  | nil : KeepsAll regex [] []
  | cons {k : Kept} {f : Form} {ks : List Kept} {fs : List Form} :
    Keeps regex k f → KeepsAll regex ks fs → KeepsAll regex (k :: ks) (f :: fs)

end

section
variable {regex : Regex} {k l : Kept} {f g : Form} {ks ls : List Kept} {fs gs : List Form}

mutual

/-- The numbers that are kept with a form do not change it. -/
theorem Keeps.form_eq {k : Kept} {f : Form} : Keeps regex k f → k.form = f
  | .other _ | .chars _ | .look _ _ => rfl
  | .seq h | .choice h => by rw [form, h.forms_eq]
  | .optional _ h => by rw [form, h.form_eq]

theorem KeepsAll.forms_eq {ks : List Kept} {fs : List Form} : KeepsAll regex ks fs → forms ks = fs
  | .nil => rfl
  | .cons h hs => by rw [forms, h.form_eq, hs.forms_eq]

end

theorem KeepsAll.length_eq (h : KeepsAll regex ks fs) : ks.length = fs.length := by
  induction ks generalizing fs with
  | nil =>
    cases h
    rfl
  | cons k ks ih =>
    obtain _ | ⟨-, hs⟩ := h
    rw [List.length_cons, List.length_cons, ih hs]

theorem KeepsAll.append (h : KeepsAll regex ks fs) (h' : KeepsAll regex ls gs) :
    KeepsAll regex (ks ++ ls) (fs ++ gs) := by
  induction ks generalizing fs with
  | nil =>
    cases h
    exact h'
  | cons k ks ih =>
    obtain _ | ⟨hk, hs⟩ := h
    exact .cons hk (ih hs)

theorem KeepsAll.reverse (h : KeepsAll regex ks fs) : KeepsAll regex ks.reverse fs.reverse := by
  induction ks generalizing fs with
  | nil =>
    cases h
    exact .nil
  | cons k ks ih =>
    obtain _ | ⟨hk, hs⟩ := h
    rw [List.reverse_cons, List.reverse_cons]
    exact (ih hs).append (.cons hk .nil)

/-- A test that looks at forms alone cuts both rows at one place. -/
theorem KeepsAll.dropWhile (h : KeepsAll regex ks fs) (p : Form → Bool) :
    KeepsAll regex (ks.dropWhile fun k => p k.form) (fs.dropWhile p) := by
  induction ks generalizing fs with
  | nil =>
    cases h
    exact .nil
  | cons k ks ih =>
    obtain _ | ⟨hk, hs⟩ := h
    rw [List.dropWhile_cons, List.dropWhile_cons, hk.form_eq]
    split
    · exact ih hs
    · exact .cons hk hs

theorem KeepsAll.all (h : KeepsAll regex ks fs) (p : Form → Bool) :
    (ks.all fun k => p k.form) = fs.all p := by
  induction ks generalizing fs with
  | nil =>
    cases h
    rfl
  | cons k ks ih =>
    obtain _ | ⟨hk, hs⟩ := h
    rw [List.all_cons, List.all_cons, hk.form_eq, ih hs]

theorem KeepsAll.repeated (h : KeepsAll regex ks fs) (count : Nat) :
    KeepsAll regex (List.replicate count ks).flatten (List.replicate count fs).flatten := by
  induction count with
  | zero => exact .nil
  | succ count ih =>
    rw [List.replicate_succ, List.replicate_succ, List.flatten_cons, List.flatten_cons]
    exact h.append ih

/-- The parts of a row that is kept are kept. -/
theorem Keeps.items (h : Keeps regex k f) : KeepsAll regex k.items f.items := by
  cases h with
  | seq h => exact h
  | other n => exact .cons (.other n) .nil
  | chars set => exact .cons (.chars set) .nil
  | choice h => exact .cons (.choice h) .nil
  | look hp hnode => exact .cons (.look hp hnode) .nil
  | optional max h => exact .cons (.optional max h) .nil

theorem KeepsAll.flatMap_items (h : KeepsAll regex ks fs) :
    KeepsAll regex (ks.flatMap Kept.items) (fs.flatMap Form.items) := by
  induction ks generalizing fs with
  | nil =>
    cases h
    exact .nil
  | cons k ks ih =>
    obtain _ | ⟨hk, hs⟩ := h
    rw [List.flatMap_cons, List.flatMap_cons]
    exact hk.items.append (ih hs)

theorem KeepsAll.row (h : KeepsAll regex ks fs) : Keeps regex (Kept.row ks) (Form.row fs) := by
  cases h with
  | nil => exact .seq .nil
  | cons hk hs =>
    cases hs with
    | nil => exact hk
    | cons hl hs => exact .seq (.cons hk (.cons hl hs))

theorem KeepsAll.oneOf (h : KeepsAll regex ks fs) : Keeps regex (Kept.oneOf ks) (Form.oneOf fs) := by
  cases h with
  | nil => exact .choice .nil
  | cons hk hs =>
    cases hs with
    | nil => exact hk
    | cons hl hs => exact .choice (.cons hk (.cons hl hs))

/-- Every round of a repetition keeps the same numbers: they are the places of one node. -/
theorem Keeps.repeated (h : Keeps regex k f) (bounds : Bounds) :
    Keeps regex (Kept.repeated bounds k) (Form.repeated bounds.min (Form.rest bounds f) f) := by
  refine ((h.items.repeated bounds.min).append ?_).row
  unfold Form.rest
  split
  · exact .nil
  · exact .cons (.optional _ h) .nil

mutual

/-- Taking rows apart leaves the numbers in them where they are. -/
theorem Keeps.exposed {k : Kept} {f : Form} :
    Keeps regex k f → KeepsAll regex (Kept.exposed k) (Cover.exposed f)
  | .seq h => h.exposedRow
  | .other n => .cons (.other n) .nil
  | .chars set => .cons (.chars set) .nil
  | .choice h => .cons (.choice h) .nil
  | .look hp hnode => .cons (.look hp hnode) .nil
  | .optional max h => .cons (.optional max h) .nil

theorem KeepsAll.exposedRow {ks : List Kept} {fs : List Form} :
    KeepsAll regex ks fs → KeepsAll regex (Kept.exposedRow ks) (Cover.exposedRow fs)
  | .nil => .nil
  | .cons (k := k) (f := f) h hs => by
    have hexposed := h.exposed
    rw [Kept.exposedRow, Cover.exposedRow]
    generalize Kept.exposed k = front at hexposed
    generalize Cover.exposed f = front' at hexposed
    cases hexposed with
    | nil => exact hs.exposedRow
    | cons hk hks => exact (KeepsAll.cons hk hks).append hs

end

theorem KeepsAll.withoutOptionalEnd (h : KeepsAll regex ks fs) :
    KeepsAll regex (Kept.withoutOptionalEnd ks) (Cover.withoutOptionalEnd fs) :=
  (h.reverse.dropWhile Form.isOptional).reverse

theorem Keeps.consOptional (h : Keeps regex k f) (max : Option Nat) (hs : KeepsAll regex ks fs) :
    KeepsAll regex (Kept.consOptional k max ks) (Cover.consOptional f max fs) := by
  unfold Kept.consOptional Cover.consOptional
  split
  · exact hs
  · exact .cons (.optional max h) hs

end

/-! ## Looking forms up -/

variable [Properties] {α β : Type} {regex : Regex}

/-- Every kept form is that of the node with its number. -/
def Memo.Sound (regex : Regex) (memo : Memo) : Prop :=
  ∀ entry ∈ memo, ∀ p ∈ regex.walk, p.position = entry.1 →
    Keeps regex entry.2 (.ofNode regex.flags p.node)

/-- With forms that are right the run gives a value like this, and the forms it leaves are right as
well. -/
def Gives (regex : Regex) (run : StateM Memo α) (R : α → Prop) : Prop :=
  ∀ memo : Memo, memo.Sound regex → R (run memo).1 ∧ Memo.Sound regex (run memo).2

/-- With forms that are right the run gives this value, and the forms it leaves are right as well. -/
def Recalls (regex : Regex) (run : StateM Memo α) (value : α) : Prop := Gives regex run (· = value)

section
variable {run : StateM Memo α} {next : α → StateM Memo β} {R : α → Prop} {S : β → Prop}
  {value : α} {result : β}

theorem Gives.pure {a : α} (h : R a) : Gives regex (Pure.pure a) R := fun _ hmemo => ⟨h, hmemo⟩

/-- One search after another leaves a sound memory, whatever the first one has found. -/
theorem Gives.bind (h : Gives regex run R) (hnext : ∀ a, R a → Gives regex (next a) S) :
    Gives regex (run >>= next) S := by
  intro memo hmemo
  obtain ⟨hvalue, hkept⟩ := h memo hmemo
  exact hnext _ hvalue _ hkept

theorem Recalls.pure (value : α) : Recalls regex (Pure.pure value) value := Gives.pure rfl

theorem Recalls.bind (h : Recalls regex run value) (hnext : Recalls regex (next value) result) :
    Recalls regex (run >>= next) result := by
  refine Gives.bind h fun a ha => ?_
  subst ha
  exact hnext

end

/-- A memory stays sound with the form of one more place. -/
theorem Memo.Sound.cons {memo : Memo} (h : memo.Sound regex) {p : Place} (hp : p ∈ regex.walk)
    {k : Kept} (hk : Keeps regex k (.ofNode regex.flags p.node)) :
    Memo.Sound regex ((p.position, k) :: memo) := by
  rw [Memo.Sound, List.forall_mem_cons]
  refine ⟨fun q hq hposition => ?_, h⟩
  rwa [Place.eq_of_position (p := ⟨regex.root, 0, 0, []⟩) hq hp hposition]

/-- What is looked up is the form of the place, whether it was kept or is made now. -/
theorem gives_lookUp {p : Place} (hp : p ∈ regex.walk) {make : StateM Memo Kept}
    (hmake : Gives regex make (Keeps regex · (.ofNode regex.flags p.node))) :
    Gives regex (lookUp p.position make) (Keeps regex · (.ofNode regex.flags p.node)) := by
  intro memo hmemo
  cases hlookup : memo.lookup p.position with
  | some k =>
    obtain ⟨front, back, hsplit, -⟩ := List.lookup_eq_some_iff.1 hlookup
    have hmem : (p.position, k) ∈ memo := hsplit ▸ List.mem_append_right front List.mem_cons_self
    have hrun : lookUp p.position make memo = (k, memo) := by
      simp only [lookUp, bind, StateT.bind, get, getThe, MonadStateOf.get, StateT.get, pure, hlookup]
      rfl
    rw [hrun]
    exact ⟨hmemo _ hmem p hp rfl, hmemo⟩
  | none =>
    obtain ⟨hvalue, hkept⟩ := hmake memo hmemo
    have hrun : lookUp p.position make memo =
        ((make memo).1, (p.position, (make memo).1) :: (make memo).2) := by
      simp only [lookUp, bind, StateT.bind, get, getThe, MonadStateOf.get, StateT.get, pure, hlookup]
      rfl
    rw [hrun]
    exact ⟨hvalue, hkept.cons hp hvalue⟩

theorem itemsOf_eq_flatMap (flags : Flags) (ns : List Node) :
    Form.itemsOf flags ns = (Form.ofNodes flags ns).flatMap Form.items := by
  induction ns with
  | nil => rfl
  | cons n ns ih => rw [Form.itemsOf, Form.ofNodes, List.flatMap_cons, ih]

/-- The forms of nodes in a row are made one after another. -/
theorem gives_formsAt {trail : Nat → List Step} {gap slot position start : Nat} {ns : List Node}
    (h : ∀ q ∈ Place.inRow trail gap slot position start ns,
      Gives regex (formAt regex.flags q.position q.node)
        (Keeps regex · (.ofNode regex.flags q.node))) :
    Gives regex (formsAt regex.flags position ns)
      (KeepsAll regex · (Form.ofNodes regex.flags ns)) := by
  induction ns generalizing slot position start with
  | nil => exact .pure .nil
  | cons n ns ih =>
    rw [Place.inRow, List.forall_mem_cons] at h
    exact h.1.bind fun k hk => (ih h.2).bind fun ks hks => .pure (.cons hk hks)

/-- A node that is not taken apart is a set or known by its form only. -/
theorem gives_plain (n : Node) : Gives regex
    (if n.isCharacter then
      match n.charSet? regex.flags with
      | some set => return chars set
      | none => return other n
    else return other n : StateM Memo Kept)
    (Keeps regex · (if n.isCharacter then
      match n.charSet? regex.flags with
      | some set => .chars set
      | none => .other n
    else .other n)) := by
  split
  · split
    · exact .pure (.chars _)
    · exact .pure (.other n)
  · exact .pure (.other n)

/-- The form of a place is its canonical form, kept or not. -/
theorem gives_formAt {p : Place} (hp : p ∈ regex.walk) :
    Gives regex (formAt regex.flags p.position p.node)
      (Keeps regex · (.ofNode regex.flags p.node)) := by
  induction p using Place.induction_on_children with
  | h p ih =>
    have hchildren : ∀ q ∈ p.children, Gives regex (formAt regex.flags q.position q.node)
        (Keeps regex · (.ofNode regex.flags q.node)) :=
      fun q hq => ih q hq (Place.mem_below_of_mem_children (p := ⟨regex.root, 0, 0, []⟩) hp hq)
    obtain ⟨n, position, start, trail⟩ := p
    cases n with
    | alternative elements =>
      refine gives_lookUp hp ((gives_formsAt hchildren).bind fun ks hks => .pure ?_)
      rw [Form.ofNode, itemsOf_eq_flatMap]
      exact hks.flatMap_items.row
    | choice frame alternatives =>
      refine gives_lookUp hp ((gives_formsAt hchildren).bind fun ks hks => .pure ?_)
      rw [Form.ofNode]
      exact hks.oneOf
    | look direction negate alternatives =>
      refine gives_lookUp hp (.pure ?_)
      rw [Form.ofNode]
      exact .look hp rfl
    | quantifier bounds greedy lexeme element =>
      refine gives_lookUp hp ?_
      rw [Form.ofNode]
      by_cases hunrolled : (bounds.max == some 0 || Form.unrollLimit < bounds.min) = true
      · rw [if_pos hunrolled, if_pos hunrolled]
        exact .pure (.other _)
      · rw [if_neg hunrolled, if_neg hunrolled]
        refine (hchildren _ List.mem_cons_self).bind fun k hk => ?_
        rw [hk.items.length_eq]
        dsimp only
        split
        · exact .pure (.other _)
        · exact .pure (hk.repeated bounds)
    | edge _ | backreference _ | strings _ | string _ | character _ | range _ _ | shorthand _
    | charClass _ _ _ | classExpression _ _ | classOperation _ _ _ =>
      refine gives_lookUp hp ?_
      rw [Form.ofNode.eq_def]
      exact gives_plain _

/-! ## Searching with kept forms -/

/-- A search with a memory takes the steps of one without, and comes to its verdict. -/
def Agrees (regex : Regex) (run : Search) (search : Cover.Search) : Prop :=
  ∀ fuel, Recalls regex (run fuel) (search fuel)

section
variable {run first second : Search} {search first' second' : Cover.Search}
  {k l : Kept} {f g : Form} {ks ls : List Kept} {fs gs : List Form}

theorem agrees_done (verdict : Bool) : Agrees regex (done verdict) (Cover.done verdict) :=
  fun _ => .pure _

theorem agrees_done_of_eq {a b : Bool} (h : a = b) : Agrees regex (done a) (Cover.done b) :=
  h ▸ agrees_done a

theorem Agrees.tick (h : Agrees regex run search) : Agrees regex (tick run) (Cover.tick search) := by
  intro fuel
  unfold Kept.tick Cover.tick
  split
  · exact h (fuel - 1)
  · exact .pure _

theorem Agrees.orElse (h : Agrees regex first first') (h' : Agrees regex second second') :
    Agrees regex (orElse first second) (Cover.orElse first' second') := by
  intro fuel
  refine (h fuel).bind ?_
  unfold Cover.orElse
  obtain ⟨verdict, fuel⟩ := first' fuel
  cases verdict with
  | true => exact .pure _
  | false => exact h' fuel

theorem Agrees.andThen (h : Agrees regex first first') (h' : Agrees regex second second') :
    Agrees regex (andThen first second) (Cover.andThen first' second') := by
  intro fuel
  refine (h fuel).bind ?_
  unfold Cover.andThen
  obtain ⟨verdict, fuel⟩ := first' fuel
  cases verdict with
  | true => exact h' fuel
  | false => exact .pure _

/-- Two searches through kept forms agree if they agree on every one. -/
theorem agrees_everyOf {run : Kept → Search} {search : Form → Cover.Search}
    (h : ∀ k f, Keeps regex k f → Agrees regex (run k) (search f)) (hs : KeepsAll regex ks fs) :
    Agrees regex (everyOf run ks) (Cover.everyOf search fs) := by
  induction ks generalizing fs with
  | nil =>
    cases hs
    exact agrees_done true
  | cons k ks ih =>
    obtain _ | ⟨hk, hs⟩ := hs
    exact (h k _ hk).andThen (ih hs)

theorem agrees_someOf {run : Kept → Search} {search : Form → Cover.Search}
    (h : ∀ k f, Keeps regex k f → Agrees regex (run k) (search f)) (hs : KeepsAll regex ks fs) :
    Agrees regex (someOf run ks) (Cover.someOf search fs) := by
  induction ks generalizing fs with
  | nil =>
    cases hs
    exact agrees_done false
  | cons k ks ih =>
    obtain _ | ⟨hk, hs⟩ := hs
    exact (h k _ hk).orElse (ih hs)

/-- Comparisons with a memory agree with comparisons without one. -/
structure Inner.Agrees (regex : Regex) (inner : Inner) (inner' : Cover.Inner) : Prop where
  node : ∀ {k l : Kept} {f g : Form} (loose : Bool), Keeps regex k f → Keeps regex l g →
    Kept.Agrees regex (inner.node k l loose) (inner'.node f g loose)
  rows : ∀ {ks ls : List Kept} {fs gs : List Form} (loose : Bool), KeepsAll regex ks fs →
    KeepsAll regex ls gs → Kept.Agrees regex (inner.rows ks ls loose) (inner'.rows fs gs loose)

variable {inner : Inner} {inner' : Cover.Inner} {next : List Kept → List Kept → Search}
  {next' : List Form → List Form → Cover.Search}

omit [Properties] in
theorem unrollRight_eq (left right : List Form) (element : Form) (max : Option Nat) (loose : Bool) :
    Cover.unrollRight inner' left right element max loose =
      Cover.andThen (inner'.rows left right loose)
        (if element.canBeEmpty then Cover.done false
        else inner'.rows left (element :: Cover.consOptional element (max.map (· - 1)) right)
          loose) := by
  funext fuel
  unfold Cover.unrollRight Cover.andThen
  obtain ⟨verdict, fuel⟩ := inner'.rows left right loose fuel
  cases verdict with
  | false => rfl
  | true => exact (apply_ite (fun search : Cover.Search => search fuel) _ _ _).symm

/-- Unrolling the optional part on the right asks the searches that the pure rule asks. -/
theorem agrees_unrollRight (hinner : inner.Agrees regex inner') (hks : KeepsAll regex ks fs)
    (hls : KeepsAll regex ls gs) (hk : Keeps regex k f) (max : Option Nat) (loose : Bool) :
    Agrees regex (unrollRight inner ks ls k max loose)
      (Cover.unrollRight inner' fs gs f max loose) := by
  rw [unrollRight_eq]
  refine (hinner.rows loose hks hls).andThen ?_
  rw [hk.form_eq]
  split
  · exact agrees_done false
  · exact hinner.rows loose hks (.cons hk (hk.consOptional _ hls))

theorem agrees_optionalHeads (hinner : inner.Agrees regex inner') (hk : Keeps regex k f)
    (hl : Keeps regex l g) (hks : KeepsAll regex ks fs) (hls : KeepsAll regex ls gs)
    (m n : Option Nat) (loose : Bool) :
    Agrees regex (optionalHeads inner k m ks l n ls loose)
      (Cover.optionalHeads inner' f m fs g n gs loose) := by
  refine Agrees.orElse ((hinner.node false hk hl).andThen ?_)
    (agrees_unrollRight hinner (.cons (.optional m hk) hks) hls hl n loose)
  split
  · exact hinner.rows loose (hk.consOptional _ hks) hls
  · exact hinner.rows loose hks (hl.consOptional _ hls)

/-- An optional head on the left, left out or taken once more. -/
theorem agrees_optionalLeft (hinner : inner.Agrees regex inner')
    (hnext : ∀ {ks ls : List Kept} {fs gs : List Form}, KeepsAll regex ks fs →
      KeepsAll regex ls gs → Agrees regex (next ks ls) (next' fs gs))
    (hk : Keeps regex k f) (hks : KeepsAll regex ks fs) (hls : KeepsAll regex ls gs)
    (m : Option Nat) (loose : Bool) :
    Agrees regex
      (orElse (inner.rows ks ls loose)
        (if k.form.canBeEmpty then done false
        else next (k :: consOptional k (m.map (· - 1)) ks) ls))
      fun fuel =>
        match inner'.rows fs gs loose fuel with
        | (true, fuel) => (true, fuel)
        | (false, fuel) =>
          if f.canBeEmpty then (false, fuel)
          else next' (f :: Cover.consOptional f (m.map (· - 1)) fs) gs fuel := by
  have heq : (fun fuel =>
        match inner'.rows fs gs loose fuel with
        | (true, fuel) => (true, fuel)
        | (false, fuel) =>
          if f.canBeEmpty then (false, fuel)
          else next' (f :: Cover.consOptional f (m.map (· - 1)) fs) gs fuel) =
      Cover.orElse (inner'.rows fs gs loose)
        (if f.canBeEmpty then Cover.done false
        else next' (f :: Cover.consOptional f (m.map (· - 1)) fs) gs) := by
    funext fuel
    unfold Cover.orElse
    obtain ⟨verdict, fuel⟩ := inner'.rows fs gs loose fuel
    cases verdict with
    | true => rfl
    | false => exact (apply_ite (fun search : Cover.Search => search fuel) _ _ _).symm
  rw [heq]
  refine (hinner.rows loose hks hls).orElse ?_
  rw [hk.form_eq]
  split
  · exact agrees_done false
  · exact hnext (.cons hk (hk.consOptional _ hks)) hls

/-- The rules for the first parts of two rows are tried in the same order. -/
theorem agrees_byHeads (hinner : inner.Agrees regex inner')
    (hnext : ∀ {ks ls : List Kept} {fs gs : List Form}, KeepsAll regex ks fs →
      KeepsAll regex ls gs → Agrees regex (next ks ls) (next' fs gs))
    (hks : KeepsAll regex ks fs) (hls : KeepsAll regex ls gs) (loose : Bool) :
    Agrees regex (byHeads inner next loose ks ls) (Cover.byHeads inner' next' loose fs gs) := by
  cases hls with
  | nil =>
    cases hks with
    | nil => exact agrees_done true
    | cons hk hks =>
      have hall := (KeepsAll.cons hk hks).all Form.isOptional
      cases hk with
      | choice hks' => exact agrees_someOf (fun k f hk => hinner.rows loose (.cons hk hks) .nil) hks'
      | _ => exact agrees_done_of_eq hall
  | cons hl hls =>
    have hright := KeepsAll.cons hl hls
    have hheads {k : Kept} {f : Form} (hk : Keeps regex k f) := hinner.node false hk hl
    cases hl with
    | choice hls' => exact agrees_everyOf (fun l g hl => hinner.rows loose hks (.cons hl hls)) hls'
    | optional n hl =>
      cases hks with
      | nil => exact agrees_done loose
      | cons hk hks =>
        have hleft := KeepsAll.cons hk hks
        cases hk with
        | choice hks' =>
          exact agrees_someOf (fun k f hk => hinner.rows loose (.cons hk hks) hright) hks'
        | optional m hk => exact agrees_optionalHeads hinner hk hl hks hls m n loose
        | _ => exact agrees_unrollRight hinner hleft hls hl n loose
    | _ =>
      cases hks with
      | nil => exact agrees_done loose
      | cons hk hks =>
        have hkeeps := hk
        cases hk with
        | choice hks' =>
          exact agrees_someOf (fun k f hk => hinner.rows loose (.cons hk hks) hright) hks'
        | optional m hk => exact agrees_optionalLeft hinner hnext hk hks hright m loose
        | _ => exact (hheads hkeeps).andThen (hnext hks hls)

/-- As many rounds, with the same answers, as in the search without a memory. -/
theorem agrees_loop (hinner : inner.Agrees regex inner') (loose : Bool) (rounds : Nat)
    (hks : KeepsAll regex ks fs) (hls : KeepsAll regex ls gs) :
    Agrees regex (loop inner loose rounds ks ls) (Cover.loop inner' loose rounds fs gs) := by
  induction rounds generalizing ks fs ls gs with
  | zero => exact agrees_done false
  | succ rounds ih =>
    refine (agrees_byHeads hinner ih ?_ hls.exposedRow loose).tick
    cases loose with
    | true => exact hks.withoutOptionalEnd.exposedRow
    | false => exact hks.exposedRow

end

/-- The forms of the alternatives of a lookaround. -/
theorem gives_alternatives {p : Place} (hp : p ∈ regex.walk) {direction : Direction} {negate : Bool}
    {alternatives : List Node} (hnode : p.node = .look direction negate alternatives) :
    Gives regex (formsAt regex.flags (p.position + 1) alternatives)
      (KeepsAll regex · (Form.ofNodes regex.flags alternatives)) := by
  have hchildren : ∀ q ∈ p.children, Gives regex (formAt regex.flags q.position q.node)
      (Keeps regex · (.ofNode regex.flags q.node)) := fun q hq =>
    gives_formAt (Place.mem_below_of_mem_children (p := ⟨regex.root, 0, 0, []⟩) hp hq)
  rw [Place.children, hnode] at hchildren
  exact gives_formsAt hchildren

variable {equal : Node → Node → Bool} {inner : Inner} {inner' : Cover.Inner}

/-- The alternatives of a lookaround are the only forms that are looked up during a search. -/
theorem agrees_byForm (hinner : inner.Agrees regex inner') {k l : Kept} {f g : Form}
    (hk : Keeps regex k f) (hl : Keeps regex l g) (loose : Bool) :
    Agrees regex (byForm equal regex.flags inner k l loose)
      (Cover.byForm equal (Form.ofNodes regex.flags) inner' f g loose) := by
  have hrows := hinner.rows loose hk.items hl.items
  have hkeeps := hl
  cases hl with
  | choice hls => exact agrees_everyOf (fun l g hl => hinner.node loose hk hl) hls
  | seq hls =>
    cases hk with
    | choice hks => exact agrees_someOf (fun k f hk => hinner.node loose hk hkeeps) hks
    | _ => exact hrows
  | optional n hl =>
    cases hk with
    | choice hks => exact agrees_someOf (fun k f hk => hinner.node loose hk hkeeps) hks
    | _ => exact hrows
  | chars t =>
    cases hk with
    | choice hks => exact agrees_someOf (fun k f hk => hinner.node loose hk hkeeps) hks
    | seq _ | optional _ _ => exact hrows
    | chars s => exact agrees_done (t.isSubset s)
    | other _ | look _ _ => exact agrees_done false
  | other b =>
    cases hk with
    | choice hks => exact agrees_someOf (fun k f hk => hinner.node loose hk hkeeps) hks
    | seq _ | optional _ _ => exact hrows
    | other a => exact agrees_done (equal a b)
    | chars _ | look _ _ => exact agrees_done false
  | look hq hright =>
    cases hk with
    | choice hks => exact agrees_someOf (fun k f hk => hinner.node loose hk hkeeps) hks
    | seq _ | optional _ _ => exact hrows
    | other _ | chars _ => exact agrees_done false
    | look hp hleft =>
      intro fuel
      simp only [byForm, Cover.byForm]
      split
      · refine (gives_alternatives hp hleft).bind fun xs hxs =>
          (gives_alternatives hq hright).bind fun ys hys => ?_
        exact agrees_everyOf
          (fun r g hr => agrees_someOf (fun l f hl => hinner.node _ hl hr) hxs) hys fuel
      · exact .pure _

/-- At every depth the search with a memory agrees with the one without. -/
theorem agrees_within (depth : Nat) : (within equal regex.flags depth).Agrees regex
    (Cover.within equal (Form.ofNodes regex.flags) depth) := by
  induction depth with
  | zero => exact ⟨fun _ _ _ => agrees_done false, fun _ _ _ => agrees_done false⟩
  | succ depth ih =>
    exact ⟨fun loose hk hl => (agrees_byForm ih hk hl loose).tick,
      fun loose hks hls fuel => agrees_loop ih loose fuel hks hls fuel⟩

end Kept

end RegexAudit
