import RegexAudit.Proofs.Loops
import RegexAudit.Proofs.Storing

/-!
# Storing classes

Classes are stored as they are read, without `v` as a row of items, with `v` as elements, operands
of one operator, or strings. Two nodes are handed to a parent after they were read: the ends of a
range, and the operands of an operator, of which the left one holds all operands before
(`refines_operations`). A range reads a second end before it is known whether there is one, and then
leaves three nodes instead of one (`refines_item`).
-/

namespace RegexAudit

open Arena (Content Entry Adds AddsAll adopted)

namespace Parser

variable {source r rest text : List Char} {setting : Setting} {s : Parser} {p start : NodeId}

/-! ## Characters and shorthands -/

theorem refines_classEscape (h : '\\' :: r <:+ source) :
    Refines source (Keeping s (Added s.nodes source (some p) (Text.position source ('\\' :: r))))
      (Class.escaped setting r)
      ((classEscape source setting p (Text.position source ('\\' :: r))).run
        (s.goTo source r)) := by
  have hr := suffix_of_cons h
  refine Refines.read (run_setEscape hr) fun set after hset => ?_
  cases set with
  | some set =>
    exact refines_leaf h (Node.readFrom_shorthand (Lexeme.shorthand?_source hset)).source
      (.shorthand set) rfl
  | none =>
    obtain rfl := Lexeme.shorthand?_none hset
    refine Refines.read (run_characterEscape hr true) fun value after hvalue => ?_
    exact refines_leaf h (Node.readFrom_escape value (Lexeme.suffix_characterEscape hvalue)).source
      (.character value _) rfl

theorem refines_character {c : Char} (h : c :: r <:+ source) :
    Refines source (Keeping s (Added s.nodes source (some p) (Text.position source (c :: r))))
      (.ok (.character ⟨c.toNat, [c]⟩, r))
      ((leaf (.character c.toNat) p (Text.position source (c :: r))).run (s.goTo source r)) :=
  refines_leaf h rfl (.character c.toNat [c]) rfl

theorem refines_classAtom (h : r <:+ source) :
    Refines source (Keeping s (Added s.nodes source (some p) (Text.position source r)))
      (Class.atom setting r)
      ((classAtom source setting p).run (s.goTo source r)) := by
  cases r with
  | nil =>
    simp only [classAtom, StateT.run_bind, run_position, ok_bind, run_bump_nil]
    exact refines_error
  | cons c r =>
    simp only [classAtom, StateT.run_bind, run_position, ok_bind, run_bump h]
    split
    · contradiction
    · rename_i hc
      cases hc
      exact refines_classEscape h
    · rename_i hc hsome
      cases hsome
      rw [Class.atom]
      · exact refines_character h
      · rintro rfl
        exact hc rfl

/-! ## Ranges -/

section
variable {mid done : Parser} {a b : Node} {i j : NodeId} {start' : Nat}

theorem run_contents (ha : Adds s.nodes mid.nodes (some p) start a i)
    (hb : Adds mid.nodes done.nodes (some p) start' b j) : ∃ content content' children children',
    content.Stores a children ∧ content'.Stores b children' ∧
      (Parser.content i).run (done.goTo source r) = .ok (content, done.goTo source r) ∧
      (Parser.content j).run (done.goTo source r) = .ok (content', done.goTo source r) := by
  obtain ⟨content, children, hentry, hstores⟩ := ha.entry
  obtain ⟨content', children', hentry', hstores'⟩ := hb.entry
  rw [← hb.kept i ha.lt_length] at hentry
  exact ⟨content, content', children, children', hstores, hstores', run_content hentry,
    run_content hentry'⟩

/-- Two nodes that are no characters are left as they are. -/
theorem run_range?_apart (ha : Adds s.nodes mid.nodes (some p) start a i)
    (hb : Adds mid.nodes done.nodes (some p) start' b j) (hab : Class.NoRange a b) :
    (range? i j p start).run (done.goTo source r) = .ok (none, done.goTo source r) := by
  obtain ⟨content, content', children, children', hstores, hstores', hcontent, hcontent'⟩ :=
    @run_contents source r s p start mid done a b i j start' ha hb
  simp only [range?, StateT.run_bind, hcontent, hcontent', ok_bind]
  by_cases hletter : ∃ x, a = .character x
  · obtain ⟨x, rfl⟩ := hletter
    rw [hstores'.value?_eq_none (hab x · rfl)]
    cases content.value? <;> rfl
  · rw [hstores.value?_eq_none fun x hx => hletter ⟨x, hx⟩]
    rfl

/-- Two characters are handed to an entry of their own. -/
theorem refines_range {x y : Letter}
    (ha : Added s.nodes source (some p) (Text.position source text) (.character x) ('-' :: rest)
      i mid)
    (hb : Added mid.nodes source (some p) (Text.position source rest) (.character y) r j done) :
    Refines source (Keeping done fun n r id? done => ∃ id, id? = some id ∧
        Added s.nodes source (some p) (Text.position source text) n r id done)
      (if y.value < x.value then .error ⟨.rangeOrder, text⟩ else .ok (.range x y, r))
      ((range? i j p (Text.position source text)).run (done.goTo source r)) := by
  obtain ⟨content, content', children, children', hstores, hstores', hcontent, hcontent'⟩ :=
    @run_contents source r s p _ mid done _ _ i j _ ha.adds hb.adds
  rw [position_cons ha.suffix] at hb
  refine .step hcontent (.step hcontent' ?_)
  simp only [hstores.value?_character, hstores'.value?_character]
  split
  · exact refines_error
  · refine .stored (refines_adopt rfl (.range x y i j) (List.cons_ne_nil _ _)
      (ha.cons_gap hb.single).goTo) fun id last htally hrange => ?_
    exact refines_ok ⟨htally, id, rfl, hrange.goTo⟩

end

/-! ## Without `v` -/

theorem makeRange_apart {start : List Char} {otherwise : Except Fault (List Node)} {a b : Node}
    (h : Class.NoRange a b) : Class.makeRange start otherwise a b = otherwise := by
  unfold Class.makeRange
  split
  · exact absurd rfl (h _ _ rfl)
  · rfl

theorem makeRange_bind {α : Type} {start : List Char} {otherwise : Except Fault (List Node)}
    {x y : Letter} (g : List Node → α) :
    (Class.makeRange start otherwise (.character x) (.character y) >>= fun ns => .ok (g ns, r))
      = (if y.value < x.value then .error ⟨.rangeOrder, start⟩ else .ok (.range x y, r))
        >>= fun read => .ok (g [read.1], read.2) := by
  rw [Class.makeRange]
  split <;> rfl

/-- Two nodes and the hyphen between them, which is added last. -/
theorem refines_dash {a b : Node} {i j : NodeId} {mid done : Parser}
    (ha : Added s.nodes source (some p) start a ('-' :: rest) i mid)
    (hb : Added mid.nodes source (some p) (Text.position source rest) b r j done) :
    Refines source (Keeping done (AddedAll s.nodes source p 0 start 0))
      (.ok ([a, .character ⟨'-'.toNat, ['-']⟩, b], r))
      ((do
        let dash ← alloc (.character '-'.toNat) (some p) (Text.position source ('-' :: rest))
        update dash fun e => { e with stop := Text.position source ('-' :: rest) + 1 }
        return [i, dash, j] : Action (List NodeId)).run (done.goTo source r)) := by
  refine .step run_alloc (.step (run_update_last _) (refines_ok ?_))
  have hdash : (Node.character ⟨'-'.toNat, ['-']⟩).width = '-'.utf8Size := rfl
  have hmid := position_cons ha.suffix
  have hadds := hb.adds
  rw [ha.stop] at hmid ⊢
  rw [hmid] at hadds
  refine ⟨rfl, hb.suffix, rfl, ?_,
    ha.adds.between (.character '-'.toNat ['-']) rfl rfl hadds⟩
  simp only [hb.stop, hmid, Node.widthAll, hdash]
  omega

theorem refines_item (h : text <:+ source) :
    Refines source (Keeping s (AddedAll s.nodes source p 0 (Text.position source text) 0))
      (Class.item setting text)
      ((item source setting p).run (s.goTo source text)) := by
  refine .step run_position (.node (refines_classAtom h) fun a r i mid _ hmid ha => ?_)
  refine .step (run_peek ha.suffix) (.step (run_peekNth ha.suffix 1) ?_)
  by_cases hdash : ∃ c r', r = '-' :: c :: r' ∧ c ≠ ']'
  · obtain ⟨c, r', rfl, hc⟩ := hdash
    have hr' := suffix_of_cons ha.suffix
    have hrange : (('-' :: c :: r').head? == some '-' && ('-' :: c :: r')[1]? != none &&
        ('-' :: c :: r')[1]? != some ']') = true := by simpa using hc
    simp only [hrange, if_true, beq_iff_eq, hc, if_false]
    refine .step run_position (.step (run_bump ha.suffix)
      (.node (refines_classAtom hr') fun b rest j done _ hdone hb => ?_))
    have htally := hdone.trans hmid
    by_cases hab : ∃ x y, a = .character x ∧ b = .character y
    · obtain ⟨x, y, rfl, rfl⟩ := hab
      rw [makeRange_bind]
      refine Refines.bind (refines_range ha hb) ?_
      rintro n rest _ last - ⟨hlast, id, rfl, hadded⟩
      exact refines_ok ⟨hlast.trans htally, hadded.single⟩
    · have hab : Class.NoRange a b := fun x y hx hy => hab ⟨x, y, hx, hy⟩
      refine .step (run_range?_apart ha.adds hb.adds hab) ?_
      simp only [makeRange_apart hab]
      cases setting.strict with
      | true => exact refines_error
      | false => exact (refines_dash ha hb).mono fun _ _ _ _ _ h => ⟨h.1.trans htally, h.2⟩
  · have hend : (r.head? == some '-' && r[1]? != none && r[1]? != some ']') = false := by
      rcases r with _ | ⟨d, _ | ⟨c, r'⟩⟩
      · simp
      · simp
      · simp only [List.head?_cons, List.getElem?_cons_succ, List.getElem?_cons_zero]
        simpa using fun hd hc => hdash ⟨c, r', by rw [hd], hc⟩
    simp only [hend, Bool.false_eq_true, if_false]
    split
    · rename_i c r' _
      rw [if_pos (by simpa using fun hc => hdash ⟨c, r', rfl, hc⟩)]
      exact refines_ok ⟨hmid, ha.goTo.single⟩
    · exact refines_ok ⟨hmid, ha.goTo.single⟩

/-- Items, and the closing bracket. -/
theorem refines_items (h : text <:+ source) {k : Nat} (hk : text.length ≤ k) (bracket : List Char) :
    Refines source (Keeping s (AddedAll s.nodes source p 0 (Text.position source text) 1))
      (Class.items setting bracket k text)
      ((items source setting p (Text.position source bracket) k).run (s.goTo source text)) := by
  induction k generalizing text s with
  | zero =>
    obtain rfl := List.length_eq_zero_iff.1 (Nat.le_zero.1 hk)
    unfold items
    refine .step (run_peek h) ?_
    exact refines_error
  | succ k ih =>
    unfold items
    refine .step (run_peek h) ?_
    cases text with
    | nil => exact refines_error
    | cons c r =>
      by_cases hc : c = ']'
      · subst hc
        simp only [List.head?_cons, run_taking h]
        exact refines_ok ⟨rfl, (addedAll_nil h s p 0).close⟩
      · rw [Class.items_succ (by simpa using hc) (List.cons_ne_nil c r)]
        simp only [List.head?_cons]
        refine Refines.row (refines_item h) fun ns rest ids mid hread hmid hns => ?_
        have hlength : rest.length ≤ k :=
          Nat.le_of_lt_succ (Nat.lt_of_lt_of_le (Pattern.follows_item hread).length_lt hk)
        refine Refines.row (ih hns.suffix hlength) fun more r' ids' done _ hdone hmore => ?_
        exact refines_ok ⟨hdone.trans hmid, (hns.append hmore).goTo⟩

theorem run_negation (h : r <:+ source) : (eat source '^').run (s.goTo source r)
    = .ok ((Class.negation r).1, s.goTo source (Class.negation r).2) := by
  unfold Class.negation
  split
  · exact run_eat h
  · rename_i hne
    exact run_eat_of_ne h hne

theorem position_negation (h : '[' :: r <:+ source) : Text.position source (Class.negation r).2
    = Text.position source ('[' :: r) + Text.width (classOpening (Class.negation r).1) := by
  unfold Class.negation
  split
  · rw [position_cons (suffix_of_cons h), position_cons h, Nat.add_assoc]
    rfl
  · rw [position_cons h]
    rfl

theorem refines_listedClass (h : '[' :: r <:+ source) :
    Refines source (Keeping s (Added s.nodes source (some p) (Text.position source ('[' :: r))))
      (Class.listed setting r)
      ((listedClass source setting p (Text.position source ('[' :: r))).run (s.goTo source r)) := by
  have hr := suffix_of_cons h
  have hbody := (Class.suffix_negation r).trans hr
  refine .step run_alloc (.step (run_negation hr) (.step (run_rest hbody)
    (.row (refines_items hbody (Nat.le_refl _) ('[' :: r)) fun ns rest ids mid _ htally hns => ?_)))
  rw [position_negation h] at hns
  exact refines_finish htally (.charClass _ false ns ids) hns.goTo

/-! ## Strings -/

/-- The letters of a string, up to the bar or brace after it. -/
theorem refines_letters (h : text <:+ source) {k : Nat} (hk : text.length ≤ k)
    (opening : List Char) :
    Refines source
      (Keeping s fun ls =>
        AddedAll s.nodes source p 0 (Text.position source text) 0 (ls.map Node.character))
      (Class.letters setting opening k text)
      ((letters source setting p (Text.position source opening) k).run (s.goTo source text)) := by
  induction k generalizing text s with
  | zero =>
    obtain rfl := List.length_eq_zero_iff.1 (Nat.le_zero.1 hk)
    unfold letters
    refine .step run_position (.step (run_peek h) ?_)
    exact refines_error
  | succ k ih =>
    unfold letters
    refine .step run_position (.step (run_peek h) ?_)
    cases text with
    | nil => exact refines_error
    | cons c r =>
      have hr := suffix_of_cons h
      have hrest : r.length ≤ k := Nat.le_of_succ_le_succ hk
      by_cases hend : c ∈ ['|', '}']
      · simp only [List.mem_cons, List.not_mem_nil, or_false] at hend
        rcases hend with rfl | rfl <;> exact refines_ok ⟨rfl, addedAll_nil h s p 0⟩
      simp only [List.mem_cons, List.not_mem_nil, or_false, not_or] at hend
      obtain ⟨hbar, hbrace⟩ := hend
      simp only [List.head?_cons]
      by_cases hc : c = '\\'
      · subst hc
        rw [Class.letters_escape]
        simp only [beq_self_eq_true, if_true]
        refine .step (run_bump h) (.read (run_characterEscape hr true) fun value after hvalue => ?_)
        have hsuffix := Lexeme.suffix_characterEscape hvalue
        have hlength : after.length ≤ k := Nat.le_trans hsuffix.length_le hrest
        refine .stored (refines_leaf h (Node.readFrom_escape value hsuffix).source
          (.character value _) rfl) fun id mid hmid hfirst => ?_
        refine .bind (ih hfirst.suffix hlength) fun more rest ids done _ hmore => ?_
        exact refines_ok ⟨hmore.1.trans hmid, hfirst.cons hmore.2⟩
      · rw [Class.letters_cons (by simp [hbar, hbrace, hc])]
        simp only [beq_iff_eq, hc, if_false]
        refine .step (run_bump h) (.step rfl (.stored (refines_character h)
          fun id mid hmid hfirst => ?_))
        refine .bind (ih hfirst.suffix hrest) fun more rest ids done _ hmore => ?_
        exact refines_ok ⟨hmore.1.trans hmid, hfirst.cons hmore.2⟩

theorem refines_string (h : text <:+ source) (opening : List Char) :
    Refines source
      (Keeping s fun ls => Added s.nodes source (some p) (Text.position source text) (.string ls))
      (Class.letters setting opening text.length text)
      ((string source setting p (Text.position source opening)).run (s.goTo source text)) := by
  refine .step run_position (.step run_alloc (.step (run_rest h) ?_))
  rw [← bind_pure (Class.letters setting opening text.length text)]
  refine .bind (refines_letters h (Nat.le_refl _) opening)
    fun first r ids mid _ ⟨htally, hfirst⟩ => ?_
  exact refines_finish htally (.string first ids) hfirst

/-- Strings, and the closing brace. -/
theorem refines_strings (h : text <:+ source) {k : Nat} (hk : text.length ≤ k)
    (opening : List Char) :
    Refines source
      (Keeping s fun found =>
        AddedAll s.nodes source p 1 (Text.position source text) 1 (found.map Node.string))
      (Class.strings setting opening (k + 1) text)
      ((strings source setting p (Text.position source opening) k).run (s.goTo source text)) := by
  induction k generalizing text s with
  | zero =>
    obtain rfl := List.length_eq_zero_iff.1 (Nat.le_zero.1 hk)
    unfold strings
    rw [Class.strings]
    refine .bind (refines_string h opening) fun first r id mid hread _ => ?_
    cases hread
  | succ k ih =>
    unfold strings
    rw [Class.strings]
    refine .bind (refines_string h opening) fun first r id mid hread hmid => ?_
    obtain ⟨hmid, hfirst⟩ := hmid
    rw [← goTo_of_pos hfirst.pos]
    have hstop := (Class.Letters.of_ok hread).stop
    obtain ⟨r', rfl | rfl⟩ := hstop.2
    · have hr' := suffix_of_cons hfirst.suffix
      have hlength : r'.length ≤ k := Nat.le_of_succ_le_succ (Nat.le_trans hstop.1.length_le hk)
      have hbar (rest : List Char) (heq : '|' :: r' = '}' :: rest) : False := by cases heq
      refine .step (run_eat_of_ne hfirst.suffix hbar) (.step (run_bump hfirst.suffix)
        (.bind (ih hr' hlength) fun more rest ids done hmore hdone => ?_))
      obtain ⟨hdone, hadded⟩ := hdone
      refine refines_ok ⟨hdone.trans hmid, ?_⟩
      obtain ⟨second, more, rfl⟩ := List.exists_cons_of_ne_nil (Class.Strings.of_ok hmore).ne_nil
      rw [position_cons hfirst.suffix] at hadded
      exact hfirst.cons_gap hadded
    · exact .step (run_eat hfirst.suffix) (refines_ok ⟨hmid, hfirst.single.close⟩)

theorem refines_classStrings (h : '\\' :: 'q' :: '{' :: r <:+ source) :
    Refines source (Keeping s
        (Added s.nodes source (some p) (Text.position source ('\\' :: 'q' :: '{' :: r))))
      (Class.strings setting ('\\' :: 'q' :: '{' :: r) (r.length + 1) r
        >>= fun (alternatives, r') => .ok (.strings alternatives, r'))
      ((classStrings source setting p (Text.position source ('\\' :: 'q' :: '{' :: r))).run
        (s.goTo source r)) := by
  have hr : r <:+ source := (List.suffix_append ['\\', 'q', '{'] r).trans h
  have hstart := Text.position_add (show ['\\', 'q', '{'] ++ r <:+ source from h)
  refine .step run_alloc (.step (run_rest hr) ?_)
  refine .bind (refines_strings hr (Nat.le_refl _) _)
    fun found rest ids mid _ ⟨htally, hfound⟩ => ?_
  rw [← hstart] at hfound
  exact refines_finish htally (.strings found ids) hfound

/-! ## With `v` -/

/-- An action that reads classes after their opening bracket, as a reader does, from states at a
depth. -/
def ReadsClass (source : List Char) (depth : Nat) (inner : NodeId → Nat → Action NodeId)
    (reader : List Char → Except Fault (Node × List Char)) : Prop :=
  ∀ ⦃s : Parser⦄ ⦃p : NodeId⦄ ⦃r : List Char⦄, s.depth = depth → '[' :: r <:+ source →
    Refines source (Keeping s (Added s.nodes source (some p) (Text.position source ('[' :: r))))
      (reader r)
      ((inner p (Text.position source ('[' :: r))).run (s.goTo source r))

section
variable {depth : Nat} {inner : NodeId → Nat → Action NodeId}
  {reader : List Char → Except Fault (Node × List Char)}
  (hinner : ReadsClass source depth inner reader)

include hinner

theorem refines_operand (h : text <:+ source) (hs : s.depth = depth) :
    Refines source (Keeping s (Added s.nodes source (some p) (Text.position source text)))
      (Class.operand setting reader text)
      ((operand source setting inner p).run (s.goTo source text)) := by
  refine .step run_position (.step (run_peek h) ?_)
  cases text with
  | nil => exact refines_error
  | cons c r =>
    rw [List.head?_cons]
    by_cases hopen : c = '['
    · subst hopen
      exact .step (run_bump h) (hinner hs h)
    by_cases hescape : c = '\\'
    · subst hescape
      have heat := @run_eatText source r s (suffix_of_cons h) ['q', '{']
      refine .step (run_bump h) ?_
      cases hq : Text.strip? ['q', '{'] r with
      | some r' =>
        obtain rfl := Class.strip?_iff.1 hq
        rw [hq] at heat
        exact .step heat (refines_classStrings h)
      | none =>
        rw [hq] at heat
        refine .step heat ?_
        rw [Class.operand]
        · exact refines_classEscape h
        · rintro r' rfl
          cases hq
    · simp only
      rw [Class.operand]
      · split
        · exact refines_error
        · exact .step (run_bump h) (refines_character h)
      · exact hopen
      · exact fun _ hc _ => hescape hc
      · exact hescape

theorem refines_rangeOrOperand (h : text <:+ source) (hs : s.depth = depth) :
    Refines source (Keeping s (Added s.nodes source (some p) (Text.position source text)))
      (Class.rangeOrOperand (Class.operand setting reader) text)
      ((rangeOrOperand source setting inner p).run (s.goTo source text)) := by
  refine .step run_position (.node (refines_operand hinner h hs) fun a r i mid _ hmid ha => ?_)
  have hdepth : mid.depth = depth := (depth_of_tally hmid).trans hs
  refine .step (run_peek ha.suffix) (.step (run_peekNth ha.suffix 1) ?_)
  by_cases hdash : ∃ r', r = '-' :: r' ∧ r'.head? ≠ some '-'
  · obtain ⟨r', rfl, hhead⟩ := hdash
    have hrange : (('-' :: r').head? == some '-' && ('-' :: r')[1]? != some '-') = true := by
      simpa [← List.head?_eq_getElem?] using hhead
    simp only [hrange, if_true]
    split
    · rename_i heq
      cases heq
      exact absurd rfl hhead
    · rename_i heq
      cases heq
      refine .step (run_bump ha.suffix) (.node
        (refines_operand hinner (suffix_of_cons ha.suffix) hdepth)
          fun b rest j done _ hdone hb => ?_)
      by_cases hab : ∃ x y, a = .character x ∧ b = .character y
      · obtain ⟨x, y, rfl, rfl⟩ := hab
        rw [makeRange_bind fun ns => ns.headD _]
        refine .bind (refines_range ha hb) ?_
        rintro n rest _ last - ⟨hlast, id, rfl, hadded⟩
        exact refines_ok ⟨hlast.trans (hdone.trans hmid), hadded⟩
      · have hab : Class.NoRange a b := fun x y hx hy => hab ⟨x, y, hx, hy⟩
        refine .step (run_range?_apart ha.adds hb.adds hab) ?_
        rw [makeRange_apart hab]
        exact refines_error
    · rename_i hne
      exact absurd rfl (hne r')
  · have hend : (r.head? == some '-' && r[1]? != some '-') = false := by
      cases r with
      | nil => rfl
      | cons c r =>
        simp only [List.head?_cons, List.getElem?_cons_succ, ← List.head?_eq_getElem?]
        simpa using fun hc => by_contra fun hhead => hdash ⟨r, by rw [hc], hhead⟩
    simp only [hend, Bool.false_eq_true, if_false]
    split
    · exact refines_ok ⟨hmid, ha.goTo⟩
    · rename_i r2 hne _
      refine absurd ⟨r2, rfl, fun hhead => ?_⟩ hdash
      obtain ⟨r3, rfl⟩ := List.head?_eq_some_iff.1 hhead
      exact hne r3 rfl
    · exact refines_ok ⟨hmid, ha.goTo⟩

/-- The operands so far are under an entry of their own, which becomes the left operand of the
next. -/
theorem refines_operations {operator : SetOperator} {start k : Nat} {left : Node} {i : NodeId}
    {mid : Parser} (hshort : Class.Shortens (Class.operand setting reader))
    (hleft : Added s.nodes source (some p) start left r i mid) (hmid : mid.tally = s.tally)
    (hk : r.length ≤ k) (hs : s.depth = depth) :
    Refines source (Keeping s (Added s.nodes source (some p) start))
      (Class.operations (Class.operand setting reader) operator k left r)
      ((operations source setting inner operator p start k i).run (mid.goTo source r)) := by
  induction k generalizing r left i mid with
  | zero =>
    obtain rfl := List.length_eq_zero_iff.1 (Nat.le_zero.1 hk)
    have heat := @run_eatText source [] mid hleft.suffix operator.text
    rw [Class.strip?_operator_nil] at heat
    unfold operations
    refine .step heat ?_
    exact refines_ok ⟨hmid, hleft.goTo⟩
  | succ k ih =>
    have heat := @run_eatText source r mid hleft.suffix operator.text
    unfold operations
    rw [Class.operations]
    cases hstrip : Text.strip? operator.text r with
    | none =>
      rw [hstrip] at heat
      refine .step heat ?_
      exact refines_ok ⟨hmid, hleft.goTo⟩
    | some r1 =>
      rw [hstrip] at heat
      obtain rfl := Class.strip?_iff.1 hstrip
      have hr1 : r1 <:+ source := (List.suffix_append _ _).trans hleft.suffix
      refine .step heat (.node (refines_operand hinner hr1 ((depth_of_tally hmid).trans hs))
        fun right r2 j done hread hdone hright => ?_)
      rw [← Text.position_add hleft.suffix] at hright
      refine .stored (refines_adopt rfl (.classOperation operator left right i j)
        (List.cons_ne_nil _ _) (hleft.cons_gap hright.single).goTo) fun id last hlast hboth => ?_
      refine ih hboth (hlast.trans (hdone.trans hmid)) ?_
      obtain ⟨c, tail, rfl, hsuffix⟩ := hshort hread
      have hlength := hsuffix.length_le
      simp only [List.length_append, List.length_cons] at hk
      omega

/-- Elements, and the closing bracket. -/
theorem refines_classElements (hshort : Class.Shortens (Class.operand setting reader))
    (h : text <:+ source) {k : Nat} (hk : text.length ≤ k) (bracket : List Char)
    (hs : s.depth = depth) :
    Refines source (Keeping s (AddedAll s.nodes source p 0 (Text.position source text) 1))
      (Class.elements (Class.operand setting reader) bracket k text)
      ((classElements source setting inner p (Text.position source bracket) k).run
        (s.goTo source text)) := by
  induction k generalizing text s with
  | zero =>
    obtain rfl := List.length_eq_zero_iff.1 (Nat.le_zero.1 hk)
    unfold classElements
    refine .step (run_peek h) ?_
    exact refines_error
  | succ k ih =>
    unfold classElements
    refine .step (run_peek h) ?_
    cases text with
    | nil => exact refines_error
    | cons c r =>
      by_cases hc : c = ']'
      · subst hc
        simp only [List.head?_cons, run_taking h]
        exact refines_ok ⟨rfl, (addedAll_nil h s p 0).close⟩
      · have hopen : (c :: r).head? ≠ some ']' := by simpa using hc
        simp only [List.head?_cons]
        refine .step (run_rest h) ?_
        cases hoperator : Class.operator? (c :: r) with
        | some operator =>
          rw [Class.elements_operator hopen (List.cons_ne_nil c r) (by rw [hoperator]; rfl)]
          exact refines_error
        | none =>
          rw [Class.elements_succ hopen (List.cons_ne_nil c r) hoperator]
          refine .node (refines_rangeOrOperand hinner h hs) fun n rest id mid hread hmid hn => ?_
          obtain ⟨_, tail, htext, hsuffix⟩ := (Class.rangeOrOperand_iff.1 hread).tail hshort
          cases htext
          have hlength := Nat.le_trans hsuffix.length_le (Nat.le_of_succ_le_succ hk)
          refine .row (ih hn.suffix hlength ((depth_of_tally hmid).trans hs))
            fun more r' ids done _ hdone hmore => ?_
          exact refines_ok ⟨hdone.trans hmid, (hn.cons hmore).goTo⟩

theorem refines_classBody (hshort : Class.Shortens (Class.operand setting reader))
    (h : '[' :: r <:+ source) (hs : s.depth = depth) :
    Refines source (Keeping s (Added s.nodes source (some p) (Text.position source ('[' :: r))))
      (Class.body (Class.operand setting reader) r)
      ((classBody source setting inner p (Text.position source ('[' :: r))).run
        (s.goTo source r)) := by
  have hr := suffix_of_cons h
  have hbody := (Class.suffix_negation r).trans hr
  have hstart := position_negation h
  have hnegation := @run_negation source r
  rw [Class.body]
  generalize Class.negation r = pair at *
  obtain ⟨negate, text⟩ := pair
  simp only at hbody hstart hnegation ⊢
  refine .step run_alloc (.step (hnegation hr) ?_)
  split
  · rename_i rest
    have hnil (t : Parser) := (addedAll_nil hbody t s.nodes.length 0).close
    rw [hstart] at hnil
    exact .step (run_eat hbody)
      (refines_finish rfl (.charClass negate true [] []) (hnil (s.holding _)))
  · rename_i hopen
    refine .step (run_eat_of_ne hbody hopen) (.step run_position
      (.node (refines_rangeOrOperand hinner hbody hs) fun first after i mid _ hmid hfirst => ?_))
    have hdepth := (depth_of_tally hmid).trans hs
    refine .step (run_rest hfirst.suffix) ?_
    dsimp only
    cases hoperator : Class.operator? after with
    | some operator =>
      obtain ⟨content, children, hentry, hstores⟩ := hfirst.adds.entry
      refine .step (run_content hentry) ?_
      rw [hstores.isRange]
      dsimp only
      split
      · exact refines_error
      · refine .step (run_rest hfirst.suffix) (.node (refines_operations hinner hshort hfirst hmid
          (Nat.le_refl _) hs) fun n after j done _ hdone hn => ?_)
        dsimp only
        split
        · rw [hstart] at hn
          exact .step (run_eat hn.suffix)
            (refines_finish hdone (.classExpression negate n j) hn.single.close)
        · rename_i hne
          refine .step (run_eat_of_ne hn.suffix hne) ?_
          exact refines_error
    | none =>
      refine .step (run_rest hfirst.suffix) (.row (refines_classElements hinner hshort hfirst.suffix
        (Nat.le_refl _) ('[' :: r) hdepth) fun more rest ids done _ hdone hmore => ?_)
      have hall := hfirst.cons hmore
      rw [hstart] at hall
      exact refines_finish (hdone.trans hmid) (.charClass negate true (first :: more) (i :: ids))
        hall.goTo

end

/-! ## Nesting -/

section
variable {α β ρ : Type} {R R' : β → ρ → α → Parser → Prop} {inside : Action α}
  {y : Except Fault (β × ρ)} {limit : Nat}

/-- The state at another depth. -/
def atDepth (s : Parser) (depth : Nat) : Parser := { s with depth }

theorem refines_nested_full (h : limit ≤ s.depth) : Refines source R (.error ⟨.tooDeep, r⟩)
    ((nested limit inside).run (s.goTo source r)) := by
  have hfull : limit ≤ (s.goTo source r).depth := h
  refine .step (StateT.run_get _) ?_
  rw [if_pos hfull]
  exact refines_error

theorem refines_nested (h : s.depth < limit)
    (hinside : Refines source R y (inside.run ((s.atDepth (s.depth + 1)).goTo source r)))
    (hR : ∀ b r a done, R b r a done → R' b r a (done.atDepth (done.depth - 1))) :
    Refines source R' y ((nested limit inside).run (s.goTo source r)) := by
  have hroom : ¬ limit ≤ (s.goTo source r).depth := Nat.not_le.2 h
  refine .step (StateT.run_get _) ?_
  rw [if_neg hroom]
  refine .step (StateT.run_modify _ _) ?_
  rw [← bind_pure y]
  exact hinside.bind fun b r a done _ hdone =>
    .step (StateT.run_modify _ _) (refines_ok (hR b r a done hdone))

theorem Keeping.leave {R : β → ρ → α → Parser → Prop} {b : β} {r : ρ} {a : α} {done : Parser}
    (h : Keeping (s.atDepth (s.depth + 1)) R b r a done)
    (hR : R b r a done → R b r a (done.atDepth (done.depth - 1))) :
    Keeping s R b r a (done.atDepth (done.depth - 1)) := by
  obtain ⟨htally, hdone⟩ := h
  have hgroups : done.groups = s.groups := congrArg (·.1) htally
  have hnames : done.names = s.names := congrArg (·.2.1) htally
  have hdepth : done.depth = s.depth + 1 := congrArg (·.2.2) htally
  refine ⟨?_, hR hdone⟩
  show (done.groups, done.names, done.depth - 1) = (s.groups, s.names, s.depth)
  rw [hgroups, hnames, hdepth, Nat.add_sub_cancel]

end

/-- Classes are counted on the way in, and `room` is more than there is left to the limit. -/
theorem readsClass_nestedClass (source : List Char) (setting : Setting) {limit d room depth : Nat}
    (hroom : d < room) (hlimit : depth + d = limit) :
    ReadsClass source depth (nestedClass source setting limit room) (Class.nested setting d) := by
  induction d generalizing room depth with
  | zero =>
    obtain ⟨room, rfl⟩ : ∃ k, room = k + 1 := ⟨room - 1, by omega⟩
    intro s p r hs h
    exact refines_nested_full (by omega)
  | succ d ih =>
    obtain ⟨room, rfl⟩ : ∃ k, room = k + 1 := ⟨room - 1, by omega⟩
    intro s p r hs h
    have hinner : ReadsClass source (depth + 1) _ _ :=
      ih (show d < room by omega) (by omega)
    have hbody := @refines_classBody source r setting (s.atDepth (s.depth + 1)) p (depth + 1)
      _ _ hinner
      (Class.shortens_operand d) h (by rw [← hs]; rfl)
    exact refines_nested (by omega) hbody fun n r i done hadded =>
      hadded.leave fun h => ⟨h.suffix, h.pos, h.stop, h.adds⟩

end Parser

end RegexAudit
