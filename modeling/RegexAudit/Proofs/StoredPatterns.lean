import RegexAudit.Proofs.LexemesAlone
import RegexAudit.Proofs.Parsed
import RegexAudit.Proofs.StoredClasses

/-!
# Storing patterns

The alternatives of a pattern, with what stands in them, are stored as they are read:

    Refines source (Counting depth (AddedAll s.nodes source p 1 …))
      (Pattern.alternatives reader k q)
      ((alternatives source action p k).run (s.goTo source q.rest))

Readers and parser both count the groups that are opened (`Meets`), since a group is numbered when
it is opened, and refused when its name was used. Each reader has the readers of what is inside as
parameters, and so does each action; that those go together is a hypothesis (`ReadsAlternatives`,
`ReadsClass`, `ReadsNode`) until the knot is tied by induction on the depth that is left
(`readsAlternatives_disjunction`).
-/

namespace RegexAudit

open Arena (Content Entry Adds AddsAll)
open Pattern (Progress Opening NodeReader AlternativesReader)

namespace Parser

variable {source r rest text : List Char} {setting : Setting} {s mid done : Parser} {p : NodeId}

/-! ## Escapes -/

theorem refines_escaped (h : '\\' :: r <:+ source) :
    Refines source (Keeping s (Added s.nodes source (some p) (Text.position source ('\\' :: r))))
      (Pattern.escaped setting r)
      ((escaped source setting p (Text.position source ('\\' :: r))).run (s.goTo source r)) := by
  have hr := suffix_of_cons h
  refine .step (run_peek hr) ?_
  cases r with
  | nil => exact refines_error
  | cons c r =>
    refine Refines.read (run_setEscape hr) fun set after hset => ?_
    cases set with
    | some set => exact refines_leaf h (Lexeme.shorthand?_source hset) (.shorthand set) rfl
    | none =>
      obtain rfl := Lexeme.shorthand?_none hset
      dsimp only
      split
      · rename_i hk
        obtain rfl : c = 'k' := by simp_all
        refine .step (run_bump hr) ?_
        split
        · rename_i r'
          have hname := suffix_of_cons (suffix_of_cons hr)
          refine .step (run_eat (suffix_of_cons hr))
            (.read (run_groupName hname) fun name after hread => ?_)
          obtain ⟨-, rfl⟩ := Lexeme.groupName_iff.1 hread
          exact refines_leaf h (by simp [Node.text, GroupRef.text])
            (.backreference (.name name) none) rfl
        · rename_i hne
          refine .step (run_eat_of_ne (suffix_of_cons hr) hne) ?_
          exact refines_error
      split
      · rename_i hdigit
        rw [Bool.and_eq_true, decide_eq_true_eq, decide_eq_true_eq] at hdigit
        obtain ⟨h1, h9⟩ := hdigit
        obtain ⟨n, after, hdecimal⟩ := Lexeme.exists_decimal? (Lexeme.isDigit_of_le h1 h9) r
        have hrun := @run_decimal source (c :: r) s hr
        rw [hdecimal] at hrun ⊢
        refine .step run_position (.step hrun ?_)
        simp only [Option.getD_some]
        split
        · refine refines_leaf h ?_ (.backreference (.index n) none) rfl
          rw [Lexeme.decimal?_source h1 h9 hdecimal]
          rfl
        split
        · exact refines_error
        · have hsuffix := (Lexeme.suffix_octalOrSelf c r).trans (List.suffix_cons c r)
          refine .step run_seek (.step (run_octalOrSelf hr) ?_)
          exact refines_leaf h (Node.readFrom_escape _ hsuffix).source (.character _ _) rfl
      · refine .read (run_characterEscape hr false) fun value after hvalue => ?_
        exact refines_leaf h
          (Node.readFrom_escape value (Lexeme.suffix_characterEscape hvalue)).source
          (.character value _) rfl

/-! ## Counting groups -/

/-- The parser has counted the groups that a reader has, and is as deep as `depth`. -/
structure Meets (depth : Nat) (s : Parser) (q : Progress) : Prop where
  groups : s.groups = q.groups
  names : s.names.map Prod.fst = q.names
  depth : s.depth = depth

/-- A relation of results, where groups are counted alike. -/
def Counting {α β : Type} (depth : Nat) (R : β → List Char → α → Parser → Prop) (b : β)
    (q : Progress) (a : α) (done : Parser) : Prop :=
  Meets depth done q ∧ R b q.rest a done

section
variable {α β ρ : Type} {depth start gap closing : Nat} {q : Progress} {before : List Entry}
  {parent : Option NodeId}

theorem Meets.of_tally (hmeets : Meets depth s q) (h : mid.tally = s.tally) :
    Meets depth mid q := by
  obtain ⟨hgroups, hnames, hdepth⟩ := hmeets
  refine ⟨?_, ?_, ?_⟩
  · rw [← hgroups]
    exact congrArg (·.1) h
  · rw [← hnames]
    exact congrArg (·.2.1.map Prod.fst) h
  · rw [← hdepth]
    exact congrArg (·.2.2) h

theorem Meets.known (h : Meets depth s q) (name : List Char) :
    s.names.any (·.1 == name) = q.names.contains name := by
  rw [← h.names, List.contains_eq_any_beq, List.any_map]
  simp only [Function.comp_def, Bool.beq_comm]

theorem Meets.next (h : Meets depth s q) (r : List Char) : Meets depth s (q.next r) :=
  ⟨h.groups, h.names, h.depth⟩

/-- A step in which no group is opened. -/
theorem Refines.next {R : β → List Char → α → Parser → Prop} {action : Action α}
    {y : Except Fault (β × List Char)} (hmeets : Meets depth s q)
    (h : Refines source (Keeping s R) y (action.run done)) :
    Refines source (Counting depth R) (y >>= fun (b, r) => .ok (b, q.next r))
      (action.run done) := by
  cases y with
  | error fault => exact h
  | ok read =>
    obtain ⟨a, mid, hrun, htally, hR⟩ := h
    exact ⟨a, mid, hrun, (hmeets.of_tally htally).next read.2, hR⟩

/-- A step that adds a node, and may open groups. -/
theorem Refines.term {R : β → ρ → α → Parser → Prop} {action : Action NodeId}
    {x : Except Fault (Node × Progress)} {g : Node × Progress → Except Fault (β × ρ)}
    {f : NodeId → Action α}
    (h : Refines source (Counting depth (Added before source parent start)) x (action.run done))
    (hnext : ∀ n q id (mid : Parser), x = .ok (n, q) → Meets depth mid q →
      Added before source parent start n q.rest id mid →
      Refines source R (g (n, q)) ((f id).run (mid.goTo source q.rest))) :
    Refines source R (x >>= g) ((action >>= f).run done) := by
  refine h.bind fun n q id mid hread ⟨hmeets, hadded⟩ => ?_
  have hnext := hnext n q id mid hread hmeets hadded
  rwa [goTo_of_pos hadded.pos] at hnext

/-- A step that adds nodes in a row, and may open groups. -/
theorem Refines.terms {R : β → ρ → α → Parser → Prop} {action : Action (List NodeId)}
    {x : Except Fault (List Node × Progress)} {g : List Node × Progress → Except Fault (β × ρ)}
    {f : List NodeId → Action α}
    (h : Refines source (Counting depth (AddedAll before source p gap start closing)) x
      (action.run done))
    (hnext : ∀ ns q ids (mid : Parser), x = .ok (ns, q) → Meets depth mid q →
      AddedAll before source p gap start closing ns q.rest ids mid →
      Refines source R (g (ns, q)) ((f ids).run (mid.goTo source q.rest))) :
    Refines source R (x >>= g) ((action >>= f).run done) := by
  refine h.bind fun ns q ids mid hread ⟨hmeets, hadded⟩ => ?_
  have hnext := hnext ns q ids mid hread hmeets hadded
  rwa [goTo_of_pos hadded.pos] at hnext

end

/-! ## Groups and lookarounds -/

/-- An action that reads alternatives as a reader does, from states at a depth. -/
def ReadsAlternatives (source : List Char) (depth : Nat) (inner : NodeId → Action (List NodeId))
    (reader : AlternativesReader) : Prop :=
  ∀ ⦃s : Parser⦄ ⦃p : NodeId⦄ ⦃q : Progress⦄, Meets depth s q → q.rest <:+ source →
    Refines source (Counting depth (AddedAll s.nodes source p 1 (Text.position source q.rest) 0))
      (reader q) ((inner p).run (s.goTo source q.rest))

/-- What is stored for what is opened, if it is opened after `groups` groups. -/
def openContent (groups : Nat) : Opening → List NodeId → Content
  | .plain => .choice .plain
  | .capture name => .choice (.capture (groups + 1) name)
  | .look direction negate => .look direction negate

section
variable (o : Opening) (groups : Nat) (ns : List Node)

theorem opening_node : (o.node groups ns).opening = o.text := by
  cases o with
  | capture name => cases name <;> rfl
  | _ => rfl

theorem separator_node : (o.node groups ns).separator = ['|'] := by cases o <;> rfl

theorem closing_node : (o.node groups ns).closing = [')'] := by cases o <;> rfl

end

section
variable {depth : Nat} {q : Progress} {inner : NodeId → Action (List NodeId)}
  {reader : AlternativesReader} {innerClass : NodeId → Nat → Action NodeId}
  {readClass : List Char → Except Fault (Node × List Char)}

/-- Alternatives after an opening, and the closing parenthesis. -/
theorem refines_enclosed (hinner : ReadsAlternatives source depth inner reader)
    (o : Opening) (groups : Nat) {text : List Char} {first : Content} {parent : Option NodeId}
    (hmeets : Meets depth mid q) (htext : text <:+ source) (hopens : text = o.text ++ q.rest)
    (hnodes : mid.nodes
      = s.nodes ++ [⟨first, parent, Text.position source text, Text.position source text⟩]) :
    Refines source (Counting depth (Added s.nodes source parent (Text.position source text)))
      (Pattern.enclosed reader (o.node groups) q)
      ((enclosed source inner s.nodes.length (openContent groups o)).run
        (mid.goTo source q.rest)) := by
  subst hopens
  have hstart := Text.position_add htext
  refine .terms (hinner hmeets ((List.suffix_append _ _).trans htext))
    fun ns q ids done _ hdone hadded => ?_
  rw [hnodes, ← hstart] at hadded
  dsimp only
  split
  · rename_i r hrest
    rw [hrest] at hadded ⊢
    have hstores : (openContent groups o ids).Stores (o.node groups ns) ids := by
      cases o <;> constructor
    refine .step (run_eat hadded.suffix) ?_
    refine Refines.next hdone (y := .ok (o.node groups ns, r))
      (refines_finish (c := first) rfl hstores ?_)
    rw [opening_node, separator_node, closing_node, o.children_node]
    exact hadded.close
  · rename_i hne
    refine .step (run_eat_of_ne hadded.suffix hne) ?_
    exact refines_error

@[simp] theorem goTo_names : (s.goTo source r).names = s.names := rfl

theorem run_name {name : List Char} {id : NodeId} :
    (modify fun s : Parser => { s with names := (name, id) :: s.names } : Action Unit).run
        (s.goTo source r)
      = .ok ((), ({ s with names := (name, id) :: s.names } : Parser).goTo source r) := rfl

theorem run_openGroup : openGroup.run (s.goTo source r)
    = .ok (s.groups + 1, ({ s with groups := s.groups + 1 } : Parser).goTo source r) := rfl

/-- A capturing group is counted, and its name kept if it has one. -/
theorem Meets.openGroup {nodes : List Entry} (h : Meets depth s q) (name : Option (List Char))
    (names : List (List Char × NodeId))
    (hnames : names.map Prod.fst = name.toList ++ s.names.map Prod.fst) (r : List Char) :
    Meets depth ⟨s.pos, nodes, s.groups + 1, names, s.depth⟩ (q.openGroup name r) := by
  refine ⟨?_, ?_, h.depth⟩
  · rw [h.groups]
    rfl
  · rw [hnames, h.names]
    rfl

theorem refines_group (hinner : ReadsAlternatives source depth inner reader)
    (hmeets : Meets depth s q) (h : '(' :: q.rest <:+ source) :
    Refines source
      (Counting depth (Added s.nodes source (some p) (Text.position source ('(' :: q.rest))))
      (Pattern.group reader ('(' :: q.rest) q)
      ((group source inner p).run (s.goTo source ('(' :: q.rest))) := by
  obtain ⟨r, groups, names⟩ := q
  have hr : r <:+ source := suffix_of_cons h
  refine .step run_position (.step (run_bump h) (.step run_alloc ?_))
  generalize hopened : s.holding _ = opened
  replace hmeets : Meets depth opened ⟨r, groups, names⟩ :=
    hmeets.of_tally (by rw [← hopened]; rfl)
  obtain rfl : opened.groups = groups := hmeets.groups
  have hnodes : opened.nodes = s.nodes ++ _ := (congrArg Parser.nodes hopened).symm
  unfold Pattern.group
  dsimp only
  split
  · rename_i r
    refine .step (run_eatText_append ['?', ':'] hr) ?_
    exact refines_enclosed hinner .plain 0 (hmeets.next r) h rfl hnodes
  · rename_i r
    have hname := suffix_of_cons (suffix_of_cons hr)
    refine .step (run_eatText_of_ne hr nofun) (.step (run_eatText_append ['?', '<'] hr)
      (.read (run_groupName hname) fun name after hread => ?_))
    obtain ⟨-, rfl⟩ := Lexeme.groupName_iff.1 hread
    have hknown : opened.names.any (·.1 == name) = names.contains name := hmeets.known name
    refine .step (StateT.run_get _) ?_
    simp only [goTo_names, hknown]
    split
    · exact refines_error
    · refine .step run_name (.step run_openGroup ?_)
      refine refines_enclosed hinner (.capture (some name)) opened.groups
        (hmeets.openGroup (some name) ((name, s.nodes.length) :: opened.names) rfl after) h
        ?_ hnodes
      simp [Opening.text, Frame.opening, Progress.openGroup]
  · rename_i r hplain hnamed
    refine .step (run_eatText_of_ne hr fun r' hr' => hplain r' (List.cons.inj hr').2)
      (.step (run_eatText_of_ne hr fun r' hr' => hnamed r' (List.cons.inj hr').2)
        (.step (run_peek hr) ?_))
    exact refines_error
  · rename_i hplain hnamed hmark
    refine .step (run_eatText_of_ne hr hplain) (.step (run_eatText_of_ne hr hnamed)
      (.step (run_peek hr) ?_))
    rw [if_neg ?_]
    · refine .step run_openGroup ?_
      exact refines_enclosed hinner (.capture none) opened.groups
        (hmeets.openGroup none opened.names rfl r) h rfl hnodes
    · simpa [List.head?_eq_some_iff] using hmark

/-! ## Atoms -/

theorem refines_atom (hinner : ReadsAlternatives source depth inner reader)
    (hclass : ReadsClass source depth innerClass readClass) (hmeets : Meets depth s q)
    (h : q.rest <:+ source) :
    Refines source (Counting depth (Added s.nodes source (some p) (Text.position source q.rest)))
      (Pattern.atom setting reader readClass q)
      ((atom source setting inner innerClass p).run (s.goTo source q.rest)) := by
  obtain ⟨text, groups, names⟩ := q
  refine .step run_position (.step (run_peek h) ?_)
  unfold Pattern.atom
  dsimp only at h ⊢
  split
  · exact refines_error
  · rename_i r
    refine .step (run_bump h) (Refines.next hmeets (y := .ok (Node.shorthand .any, r)) ?_)
    exact refines_leaf h rfl (.shorthand .any) rfl
  · rename_i r
    exact refines_group hinner (hmeets.next r) h
  · rename_i r
    refine .step (run_bump h) ?_
    split
    · exact .next hmeets (hclass hmeets.depth h)
    · exact .next hmeets (refines_listedClass h)
  · exact .step (run_bump h) (.next hmeets (refines_escaped h))
  · rename_i c r hdot hgroup hopen hescape
    simp only [List.head?_cons]
    split
    · exact refines_error
    · exact .step (run_bump h) (Refines.next hmeets (y := .ok (_, r)) (refines_character h))

/-! ## Quantifiers -/

theorem make?_cases (least : Nat) (most : Option Nat) :
    (most.any (· < least) = true ∧ Bounds.make? least most = none) ∨
      (¬ most.any (· < least) = true ∧ ∃ bounds, Bounds.make? least most = some bounds ∧
        bounds.min = least ∧ bounds.max = most) := by
  cases most with
  | none => exact .inr ⟨nofun, _, rfl, rfl, rfl⟩
  | some m =>
    by_cases h : least ≤ m
    · refine .inr ⟨by simpa using h, ⟨least, some m, ?_⟩, dif_pos h, rfl, rfl⟩
      rintro _ ⟨⟩
      exact h
    · exact .inl ⟨by simpa using h, dif_neg h⟩

/-- An element with its quantifier. -/
theorem refines_quantifier {before : List Entry} {start : Nat} {element : Node} {id : NodeId}
    {bounds : Bounds} {greedy : Bool} (hmeets : Meets depth mid q)
    (h : Added before source (some p) start element q.rest id mid)
    (hread : Lexeme.Quantifies q.rest (bounds, greedy) rest) :
    Refines source (Counting depth (Added before source (some p) start))
      (.ok (.quantifier bounds greedy (textBefore q.rest rest) element, q.next rest))
      ((adopt (.quantifier bounds.min bounds.max greedy id) p start).run
        (mid.goTo source rest)) := by
  generalize htext : q.rest = text at h hread
  obtain ⟨lexeme, rfl⟩ := hread.suffix
  rw [textBefore_left]
  have hquantifies : Lexeme.Quantifies lexeme (bounds, greedy) [] := Lexeme.Quantifies.cut hread
  exact .next hmeets (y := .ok (_, rest))
    (refines_adopt rfl (.quantifier element id hquantifies) (List.cons_ne_nil _ _)
      (h.single.closeText lexeme))

theorem refines_quantified {before : List Entry} {start : Nat} {element : Node} {id : NodeId}
    (hmeets : Meets depth mid q) (h : Added before source (some p) start element q.rest id mid) :
    Refines source (Counting depth (Added before source (some p) start))
      (Pattern.quantified setting element q)
      ((quantified source setting id p start).run (mid.goTo source q.rest)) := by
  obtain ⟨text, groups, names⟩ := q
  unfold Pattern.quantified Lexeme.quantifier?
  rw [bind_assoc]
  refine .read (run_counts h.suffix) fun counts after hcounts => ?_
  cases counts with
  | none =>
    obtain ⟨rfl, -, -⟩ := Lexeme.counts?_eq_none.1 hcounts
    exact refines_ok ⟨hmeets.of_tally rfl, h.goTo⟩
  | some counts =>
    obtain ⟨least, most⟩ := counts
    have hcounts := Lexeme.counts?_eq_some.1 hcounts
    have hafter : after <:+ source := by
      obtain ⟨c, tail, rfl, hsuffix⟩ := hcounts.tail
      exact hsuffix.trans (suffix_of_cons h.suffix)
    dsimp only
    obtain ⟨hless, hbounds⟩ | ⟨hless, bounds, hbounds, rfl, rfl⟩ := make?_cases least most
    · rw [hbounds, if_pos hless]
      exact refines_error
    · rw [hbounds, if_neg hless]
      dsimp only
      split
      · rename_i r
        refine .step (run_eat hafter) ?_
        exact refines_quantifier hmeets h (.lazy hcounts hbounds)
      · rename_i hgreedy
        refine .step (run_eat_of_ne hafter hgreedy) ?_
        refine refines_quantifier hmeets h (.greedy hcounts hbounds ?_)
        simpa [List.head?_eq_some_iff] using hgreedy

/-- Nothing follows that could be a quantifier. -/
theorem refines_unrepeatable {before : List Entry} {start : Nat} {n : Node} {id : NodeId}
    (hmeets : Meets depth mid q) (h : Added before source (some p) start n q.rest id mid) :
    Refines source (Counting depth (Added before source (some p) start)) (Pattern.unrepeatable n q)
      ((unrepeatable source id).run (mid.goTo source q.rest)) := by
  refine .step (run_atQuantifier h.suffix) ?_
  unfold Pattern.unrepeatable
  split
  · exact refines_error
  · exact refines_ok ⟨hmeets.of_tally rfl, h.goTo⟩

/-! ## Terms -/

theorem refines_lookaround (hinner : ReadsAlternatives source depth inner reader)
    {direction : Direction} {negate : Bool} (hmeets : Meets depth s q) {text : List Char}
    (htext : text <:+ source) (hopens : text = (Opening.look direction negate).text ++ q.rest) :
    Refines source (Counting depth (Added s.nodes source (some p) (Text.position source text)))
      (Pattern.lookaround setting reader direction negate q)
      ((lookaround source setting inner p (Text.position source text) direction negate).run
        (s.goTo source q.rest)) := by
  refine .step run_alloc (.term (refines_enclosed hinner (.look direction negate) 0
    (hmeets.of_tally rfl) htext hopens rfl) fun n q id done _ hdone hadded => ?_)
  dsimp only
  split
  · exact refines_quantified hdone hadded
  · exact refines_unrepeatable hdone hadded

theorem run_edge (e : Edge) (h : e.text ++ r <:+ source) :
    (edge source).run (s.goTo source (e.text ++ r)) = .ok (some e, s.goTo source r) := by
  cases e with
  | lineStart => exact run_step (run_eat h) rfl
  | lineEnd => exact run_step (run_eat_of_ne h nofun) (run_step (run_eat h) rfl)
  | word negate =>
    cases negate with
    | false =>
      exact run_step (run_eat_of_ne h nofun) (run_step (run_eat_of_ne h nofun)
        (run_step (run_eatText_append ['\\', 'b'] h) rfl))
    | true =>
      exact run_step (run_eat_of_ne h nofun) (run_step (run_eat_of_ne h nofun)
        (run_step (run_eatText_of_ne h nofun) (run_step (run_eatText_append ['\\', 'B'] h) rfl)))

theorem run_edge_none (h : r <:+ source)
    (hne : ∀ (e : Edge) (r' : List Char), r = e.text ++ r' → False) :
    (edge source).run (s.goTo source r) = .ok (none, s.goTo source r) :=
  run_step (run_eatText_of_ne h (hne .lineStart)) (run_step (run_eatText_of_ne h (hne .lineEnd))
    (run_step (run_eatText_of_ne h (hne (.word false)))
      (run_step (run_eatText_of_ne h (hne (.word true))) rfl)))

theorem edge_ne_look (e : Edge) (direction : Direction) (negate : Bool) {r r' : List Char} :
    (Opening.look direction negate).text ++ r = e.text ++ r' → False := by
  cases direction <;> cases negate <;> cases e with
  | word negate => cases negate <;> nofun
  | _ => nofun

theorem opensAssertion_edge (e : Edge) (r : List Char) :
    Pattern.opensAssertion (e.text ++ r) = true := by
  cases e with
  | word negate => cases negate <;> rfl
  | _ => rfl

theorem opensAssertion_look (direction : Direction) (negate : Bool) (r : List Char) :
    Pattern.opensAssertion ((Opening.look direction negate).text ++ r) = true := by
  cases direction <;> cases negate <;> rfl

theorem run_lookOpening (direction : Direction) (negate : Bool)
    (h : (Opening.look direction negate).text ++ r <:+ source) :
    (lookOpening source).run (s.goTo source ((Opening.look direction negate).text ++ r))
      = .ok (some (direction, negate), s.goTo source r) := by
  have hthis := @run_eatText_append source r s (Opening.look direction negate).text h
  have hother (text : List Char) := @run_eatText_of_ne source _ s text h
  cases direction <;> cases negate
  · exact run_step hthis rfl
  · exact run_step (hother _ nofun) (run_step hthis rfl)
  · exact run_step (hother _ nofun) (run_step (hother _ nofun) (run_step hthis rfl))
  · exact run_step (hother _ nofun) (run_step (hother _ nofun)
      (run_step (hother _ nofun) (run_step hthis rfl)))

theorem run_lookOpening_none (h : r <:+ source) (hne : ∀ direction negate (r' : List Char),
      r = (Opening.look direction negate).text ++ r' → False) :
    (lookOpening source).run (s.goTo source r) = .ok (none, s.goTo source r) :=
  run_step (run_eatText_of_ne h (hne .forward false))
    (run_step (run_eatText_of_ne h (hne .forward true))
      (run_step (run_eatText_of_ne h (hne .backward false))
        (run_step (run_eatText_of_ne h (hne .backward true)) rfl)))

theorem run_refuseQuantifier (h : r <:+ source) :
    (refuseQuantifier source setting).run (s.goTo source r) = outcome s source
      (if r.head? == some '{' && setting.strict then .error ⟨.loneBracket, r⟩
      else if Lexeme.atQuantifier r then .error ⟨.nothingToRepeat, r⟩
      else .ok ((), r)) := by
  refine run_step (run_peek h) ?_
  cases r with
  | nil => rfl
  | cons c r =>
    rw [List.head?_cons]
    split
    iterate 3
      next heq =>
        cases heq
        rfl
    · rename_i heq
      cases heq
      cases setting.strict with
      | true => rfl
      | false =>
        refine run_step (run_atQuantifier h) ?_
        simp only [beq_self_eq_true, Bool.and_false, Bool.false_eq_true, if_false]
        split <;> rfl
    · rename_i hstar hplus hmark hbrace
      have hquantifier : Lexeme.atQuantifier (c :: r) = false := by
        have hbraces : Lexeme.braces? (c :: r) = none := by
          refine braces?_eq_none fun r' hr' => ?_
          cases hr'
          exact hbrace rfl
        unfold Lexeme.atQuantifier
        split <;> simp_all
      have hlone : (some c == some '{') = false := by simpa using hbrace
      simp only [hquantifier, hlone, Bool.false_and, Bool.false_eq_true, if_false]
      rfl

/-- What starts no assertion: an atom and its quantifier. -/
theorem term_of_atom (setting : Setting) (reader : AlternativesReader)
    (readClass : List Char → Except Fault (Node × List Char)) {q : Progress}
    (h : Pattern.opensAssertion q.rest = false) : Pattern.term setting reader readClass q =
      if q.rest.head? == some '{' && setting.strict then .error ⟨.loneBracket, q.rest⟩
      else if Lexeme.atQuantifier q.rest then .error ⟨.nothingToRepeat, q.rest⟩
      else Pattern.atom setting reader readClass q >>= fun (n, q) =>
        Pattern.quantified setting n q := by
  unfold Pattern.term
  split <;> first | rfl | (rename_i hrest; rw [hrest] at h; cases h)

theorem term_edge (setting : Setting) (reader : AlternativesReader)
    (readClass : List Char → Except Fault (Node × List Char)) (e : Edge) {q : Progress}
    (h : q.rest = e.text ++ r) :
    Pattern.term setting reader readClass q = Pattern.unrepeatable (.edge e) (q.next r) := by
  cases e with
  | word negate =>
    cases negate <;>
      simp only [Pattern.term, h, Edge.text, List.cons_append, List.nil_append]
  | lineStart | lineEnd => simp only [Pattern.term, h, Edge.text, List.cons_append, List.nil_append]

theorem term_look (setting : Setting) (reader : AlternativesReader)
    (readClass : List Char → Except Fault (Node × List Char)) (direction : Direction)
    (negate : Bool) {q : Progress} (h : q.rest = (Opening.look direction negate).text ++ r) :
    Pattern.term setting reader readClass q
      = Pattern.lookaround setting reader direction negate (q.next r) := by
  cases direction <;> cases negate <;>
    simp only [Pattern.term, h, Opening.text, RegexAudit.lookOpening, List.cons_append,
      List.nil_append]

theorem refines_term (hinner : ReadsAlternatives source depth inner reader)
    (hclass : ReadsClass source depth innerClass readClass) (hmeets : Meets depth s q)
    (h : q.rest <:+ source) :
    Refines source (Counting depth (Added s.nodes source (some p) (Text.position source q.rest)))
      (Pattern.term setting reader readClass q)
      ((term source setting inner innerClass p).run (s.goTo source q.rest)) := by
  refine .step run_position ?_
  cases hopens : Pattern.opensAssertion q.rest with
  | true =>
    obtain ⟨e, r, hrest⟩ | ⟨direction, negate, r, hrest⟩ := Pattern.opensAssertion_cases hopens
    · rw [term_edge setting reader readClass e hrest, hrest]
      rw [hrest] at h
      refine .step (run_edge e h)
        (.stored (refines_leaf h rfl (.edge e) rfl) fun id mid hmid hadded => ?_)
      exact refines_unrepeatable ((hmeets.of_tally hmid).next r) hadded
    · rw [term_look setting reader readClass direction negate hrest, hrest]
      rw [hrest] at h
      refine .step (run_edge_none h fun e _ => edge_ne_look e direction negate)
        (.step (run_lookOpening direction negate h) ?_)
      exact refines_lookaround hinner (hmeets.next r) h rfl
  | false =>
    rw [term_of_atom setting reader readClass hopens]
    refine .step (run_edge_none h fun e r' hr' => ?_)
      (.step (run_lookOpening_none h fun direction negate r' hr' => ?_) ?_)
    · rw [hr', opensAssertion_edge] at hopens
      cases hopens
    · rw [hr', opensAssertion_look] at hopens
      cases hopens
    have hrefuse := @run_refuseQuantifier source q.rest setting s h
    split
    · rename_i hlone
      rw [if_pos hlone] at hrefuse
      rw [StateT.run_bind, hrefuse]
      exact refines_error
    · rename_i hlone
      rw [if_neg hlone] at hrefuse
      split
      · rename_i hquantifier
        rw [if_pos hquantifier] at hrefuse
        rw [StateT.run_bind, hrefuse]
        exact refines_error
      · rename_i hquantifier
        rw [if_neg hquantifier] at hrefuse
        exact .step hrefuse (.term (refines_atom hinner hclass hmeets h)
          fun n q id mid _ hmid hadded => refines_quantified hmid hadded)

end

/-! ## Alternatives -/

/-- An action that reads nodes as a reader does, from states at a depth. -/
def ReadsNode (source : List Char) (depth : Nat) (action : NodeId → Action NodeId)
    (reader : NodeReader) : Prop :=
  ∀ ⦃s : Parser⦄ ⦃p : NodeId⦄ ⦃q : Progress⦄, Meets depth s q → q.rest <:+ source →
    Refines source (Counting depth (Added s.nodes source (some p) (Text.position source q.rest)))
      (reader q) ((action p).run (s.goTo source q.rest))

section
variable {depth k : Nat} {q : Progress} {action : NodeId → Action NodeId} {reader : NodeReader}
  (hterm : ReadsNode source depth action reader)
  (htail : ∀ {q q' : Progress} {n : Node}, reader q = .ok (n, q') →
    ∃ c tail, q.rest = c :: tail ∧ q'.rest <:+ tail)

include hterm htail

theorem refines_elements (hmeets : Meets depth s q) (h : q.rest <:+ source)
    (hk : q.rest.length ≤ k) :
    Refines source (Counting depth (AddedAll s.nodes source p 0 (Text.position source q.rest) 0))
      (Pattern.elements reader k q)
      ((elements source action p k).run (s.goTo source q.rest)) := by
  induction k generalizing q s with
  | zero =>
    obtain ⟨text, groups, names⟩ := q
    obtain rfl : text = [] := List.length_eq_zero_iff.1 (Nat.le_zero.1 hk)
    unfold elements
    refine .step (run_peek h) ?_
    exact refines_ok ⟨hmeets.of_tally rfl, addedAll_nil h s p 0⟩
  | succ k ih =>
    unfold elements
    refine .step (run_peek h) ?_
    by_cases hend : Pattern.AtEnd q.rest
    · rw [Pattern.elements_atEnd _ hend]
      obtain ⟨text, groups, names⟩ := q
      have hnil := addedAll_nil h s p 0
      obtain rfl | ⟨after, rfl | rfl⟩ : text = [] ∨ _ := hend <;>
        exact refines_ok ⟨hmeets.of_tally rfl, hnil⟩
    · rw [Pattern.elements_succ hend]
      have hother : q.rest.head? ≠ none ∧ q.rest.head? ≠ some '|' ∧ q.rest.head? ≠ some ')' := by
        refine ⟨fun hnone => hend (.inl (List.head?_eq_none_iff.1 hnone)), fun hbar => ?_,
          fun hclose => ?_⟩
        · obtain ⟨after, hafter⟩ := List.head?_eq_some_iff.1 hbar
          exact hend (.inr ⟨after, .inl hafter⟩)
        · obtain ⟨after, hafter⟩ := List.head?_eq_some_iff.1 hclose
          exact hend (.inr ⟨after, .inr hafter⟩)
      split
      · exact absurd ‹_› hother.1
      · exact absurd ‹_› hother.2.1
      · exact absurd ‹_› hother.2.2
      refine .term (hterm hmeets h) fun first q1 id mid hread hmid hfirst => ?_
      have hlength : q1.rest.length ≤ k := by
        obtain ⟨c, tail, hrest, hsuffix⟩ := htail hread
        rw [hrest] at hk
        exact Nat.le_trans hsuffix.length_le (Nat.le_of_succ_le_succ hk)
      refine .terms (ih hmid hfirst.suffix hlength) fun more q2 ids done _ hdone hmore => ?_
      exact refines_ok ⟨hdone.of_tally rfl, (hfirst.cons hmore).goTo⟩

theorem refines_alternative (hmeets : Meets depth s q) (h : q.rest <:+ source) :
    Refines source (Counting depth (Added s.nodes source (some p) (Text.position source q.rest)))
      (Pattern.alternative reader q)
      ((alternative source action p).run (s.goTo source q.rest)) := by
  refine .step run_position (.step run_alloc (.step (run_rest h) ?_))
  refine .terms (refines_elements hterm htail (hmeets.of_tally rfl) h (Nat.le_refl _))
    fun ns q1 ids mid _ hmid hns => ?_
  exact .next hmid (y := .ok (_, q1.rest)) (refines_finish rfl (.alternative ns ids) hns.goTo)

omit hterm htail in
theorem alternatives_ne_nil {ns : List Node} {q' : Progress}
    (h : Pattern.alternatives reader k q = .ok (ns, q')) : ns ≠ [] := by
  obtain ⟨first, q1, -, ⟨-, rfl, -⟩ | ⟨j, r, more, -, -, -, rfl⟩⟩ := Pattern.alternatives_iff.1 h
  · exact List.cons_ne_nil first []
  · exact List.cons_ne_nil first more

theorem refines_alternatives (hmeets : Meets depth s q) (h : q.rest <:+ source)
    (hk : q.rest.length ≤ k) :
    Refines source (Counting depth (AddedAll s.nodes source p 1 (Text.position source q.rest) 0))
      (Pattern.alternatives reader k q)
      ((alternatives source action p k).run (s.goTo source q.rest)) := by
  induction k generalizing q s with
  | zero =>
    unfold alternatives
    rw [Pattern.alternatives]
    refine .term (refines_alternative hterm htail hmeets h)
      fun first q1 id mid hread hmid hfirst => ?_
    have hrest : q1.rest = [] := by
      obtain ⟨ns, hrow, -⟩ := (Pattern.alternative_iff htail).1 hread
      exact List.length_eq_zero_iff.1
        (Nat.le_zero.1 (Nat.le_trans (hrow.suffix htail).length_le hk))
    refine .step (run_eat_of_ne hfirst.suffix fun r hr => ?_) ?_
    · rw [hrest] at hr
      cases hr
    · exact refines_ok ⟨hmid.of_tally rfl, hfirst.goTo.single⟩
  | succ k ih =>
    unfold alternatives
    rw [Pattern.alternatives]
    refine .term (refines_alternative hterm htail hmeets h)
      fun first q1 id mid hread hmid hfirst => ?_
    dsimp only
    split
    · rename_i r hrest
      rw [hrest] at hfirst ⊢
      have hlength : r.length ≤ k := by
        obtain ⟨ns, hrow, -⟩ := (Pattern.alternative_iff htail).1 hread
        have hle := Nat.le_trans (hrow.suffix htail).length_le hk
        rw [hrest] at hle
        exact Nat.le_of_succ_le_succ hle
      refine .step (run_eat hfirst.suffix)
        (.terms (ih (hmid.next r) (suffix_of_cons hfirst.suffix) hlength)
          fun more q2 ids done hmore hdone hadded => refines_ok ⟨hdone.of_tally rfl, ?_⟩)
      obtain ⟨second, more, rfl⟩ := List.exists_cons_of_ne_nil (alternatives_ne_nil hmore)
      rw [Progress.next, position_cons hfirst.suffix] at hadded
      exact (hfirst.cons_gap hadded).goTo
    · rename_i hbar
      refine .step (run_eat_of_ne hfirst.suffix hbar) ?_
      exact refines_ok ⟨hmid.of_tally rfl, hfirst.goTo.single⟩

end

/-! ## Nesting -/

theorem readsAlternatives_disjunction (source : List Char) (setting : Setting)
    {limit d room depth : Nat} (hroom : d < room) (hlimit : depth + d = limit) :
    ReadsAlternatives source depth (disjunction source setting limit room)
      (Pattern.disjunction setting d) := by
  induction d generalizing room depth with
  | zero =>
    obtain ⟨room, rfl⟩ : ∃ k, room = k + 1 := ⟨room - 1, by omega⟩
    intro s p q hs h
    have := hs.depth
    exact refines_nested_full (by omega)
  | succ d ih =>
    obtain ⟨room, rfl⟩ : ∃ k, room = k + 1 := ⟨room - 1, by omega⟩
    intro s p q hs h
    have hdepth := hs.depth
    have hinner : ReadsAlternatives source (depth + 1) _ _ :=
      ih (show d < room by omega) (by omega)
    have hclass : ReadsClass source (depth + 1) _ _ :=
      readsClass_nestedClass source setting (show d < room by omega)
        (show depth + 1 + d = limit by omega)
    have hterm : ReadsNode source (depth + 1) _ (Pattern.termAt setting d) :=
      fun s p q hs h => refines_term hinner hclass hs h
    have hinside : Meets (depth + 1) (s.atDepth (s.depth + 1)) q :=
      ⟨hs.groups, hs.names, by rw [← hdepth]; rfl⟩
    refine refines_nested (by omega)
      (.step (run_rest h)
        (refines_alternatives hterm Pattern.termAt_tail hinside h (Nat.le_refl _)))
      fun ns q ids done hdone => ?_
    obtain ⟨⟨hgroups, hnames, hdone⟩, hadded⟩ := hdone
    refine ⟨⟨hgroups, hnames, ?_⟩, hadded.suffix, hadded.pos, hadded.stop, hadded.adds⟩
    show done.depth - 1 = depth
    rw [hdone, Nat.add_sub_cancel]

theorem start_goTo (source : List Char) : start.goTo source source = start := by
  simp [start, goTo, Text.position]

/-- The whole pattern, as the one tree of the arena. -/
theorem refines_pattern (limit : Nat) (flags : Flags) (source : List Char) :
    Refines source
      (fun root names id done =>
        done.names.map Prod.fst = names ∧ Adds [] done.nodes none 0 root id)
      (Pattern.read limit flags source)
      ((pattern source (Pattern.settingOf flags source) limit).run start) := by
  have hzero : Text.position source source = 0 := Nat.sub_self _
  have hread := readsAlternatives_disjunction source (Pattern.settingOf flags source)
    (Nat.lt_succ_self limit) (Nat.zero_add limit)
  have hmeets : Meets 0 (start.holding [⟨.choice .whole [], none, 0, 0⟩]) ⟨source, 0, []⟩ :=
    ⟨rfl, rfl, rfl⟩
  rw [← start_goTo source]
  refine .step run_alloc (.terms (hread hmeets (List.suffix_refl source))
    fun ns q ids done _ hdone hadded => ?_)
  refine .step (run_peek hadded.suffix) ?_
  obtain ⟨text, groups, names⟩ := q
  rw [hzero] at hadded
  dsimp only at hadded ⊢
  split
  · have hfinish : Refines source (Keeping done (Added [] source none 0))
        (.ok (.choice .whole ns, []))
        ((finish 0 (.choice .whole ids)).run (done.goTo source [])) :=
      refines_finish rfl (.choice .whole ns ids) hadded.goTo
    obtain ⟨id, last, hrun, htally, hroot⟩ := hfinish
    exact ⟨id, last, hrun, (hdone.of_tally htally).names, hroot.adds⟩
  · exact refines_error
  · rename_i hend hclose
    obtain ⟨c, r, rfl⟩ := List.exists_cons_of_ne_nil hend
    simp only [List.head?_cons]
    split
    · rename_i heq
      cases heq
    · rename_i heq
      cases heq
      exact absurd rfl (hclose r)
    · exact refines_error

end Parser

end RegexAudit
