import RegexAudit.Syntax.Regex

/-!
# Reading with a counter

How deep groups and classes stand in one another is bounded by a number that the readers are given and
that falls by one on the way into a group. One may as well count: add one on the way into a group, refuse
to enter it if the counter has reached the limit, and take one off on the way out.

Here the readers are taken over any monad with faults. Over `Except Fault` they are those of the
syntax; over `Counted` there is a counter, which a fault does not undo: whoever adds one has to take it
off again. What is entered leaves the counter as it found it, whether it was read or not, and the two
ways of bounding are one:

    (Counted.disjunction setting limit room s).run.run depth
      = (Pattern.disjunction setting (limit - depth) s, depth)               (runs_disjunction)
-/

namespace RegexAudit

/-! ## Readers over a monad -/

section
variable {m : Type → Type} [Monad m] [MonadExceptOf Fault m] [MonadLiftT (Except Fault) m]

namespace Class

def operandIn (setting : Setting) (inner : List Char → m (Node × List Char)) :
    List Char → m (Node × List Char)
  | [] => throw ⟨.unterminatedClass, []⟩
  | '[' :: r => inner r
  | '\\' :: 'q' :: '{' :: r => do
    let (alternatives, r') ← strings setting ('\\' :: 'q' :: '{' :: r) (r.length + 1) r
    return (.strings alternatives, r')
  | '\\' :: r => liftM (escaped setting r)
  | c :: r =>
    if reserved.contains c then throw ⟨.classCharacter, c :: r⟩
    else return (.character ⟨c.toNat, [c]⟩, r)

def rangeOrOperandIn (operand : List Char → m (Node × List Char)) (text : List Char) :
    m (Node × List Char) := do
  let (min, r) ← operand text
  match r with
  | '-' :: '-' :: _ => return (min, r)
  | '-' :: r => do
    let (max, r) ← operand r
    let nodes ← makeRange text (.error ⟨.invalidClass, text⟩) min max
    return (nodes.headD min, r)
  | _ => return (min, r)

def operationsIn (operand : List Char → m (Node × List Char)) (operator : SetOperator) :
    Nat → Node → List Char → m (Node × List Char)
  | 0, left, r => return (left, r)
  | n + 1, left, r =>
    match Text.strip? operator.text r with
    | none => return (left, r)
    | some r => do
      let (right, r) ← operand r
      operationsIn operand operator n (.classOperation operator left right) r

def elementsIn (operand : List Char → m (Node × List Char)) (start : List Char) :
    Nat → List Char → m (List Node × List Char)
  | _, ']' :: r => return ([], r)
  | 0, _ | _, [] => throw ⟨.unterminatedClass, start⟩
  | n + 1, text =>
    if (operator? text).isSome then throw ⟨.setOperation, text⟩
    else do
      let (element, r) ← rangeOrOperandIn operand text
      let (more, r) ← elementsIn operand start n r
      return (element :: more, r)

def bodyIn (operand : List Char → m (Node × List Char)) (text : List Char) :
    m (Node × List Char) := do
  let (negate, r) := negation text
  match r with
  | ']' :: r => return (.charClass negate true [], r)
  | _ =>
    let (first, after) ← rangeOrOperandIn operand r
    match operator? after with
    | some operator =>
      if isRange first then throw ⟨.setOperation, r⟩
      else
        let (expression, after) ← operationsIn operand operator after.length first after
        match after with
        | ']' :: after => return (.classExpression negate expression, after)
        | _ => throw ⟨.setOperation, after⟩
    | none =>
      let (more, after) ← elementsIn operand ('[' :: text) after.length after
      return (.charClass negate true (first :: more), after)

end Class

namespace Pattern

def enclosedIn (inner : Progress → m (List Node × Progress)) (make : List Node → Node)
    (s : Progress) : m (Node × Progress) := do
  let (alternatives, s) ← inner s
  match s.rest with
  | ')' :: r => return (make alternatives, s.next r)
  | r => throw ⟨.unterminatedGroup, r⟩

def groupIn (inner : Progress → m (List Node × Progress)) (start : List Char) (s : Progress) :
    m (Node × Progress) :=
  match s.rest with
  | '?' :: ':' :: r => enclosedIn inner (.choice .plain) (s.next r)
  | '?' :: '<' :: r => do
    let (name, r) ← Lexeme.groupName r
    if s.names.contains name then throw ⟨.repeatedGroupName, start⟩
    else
      enclosedIn inner (.choice (.capture (s.groups + 1) (some name))) (s.openGroup (some name) r)
  | '?' :: r => throw ⟨.invalidGroup, '?' :: r⟩
  | r => enclosedIn inner (.choice (.capture (s.groups + 1) none)) (s.openGroup none r)

def atomIn (setting : Setting) (inner : Progress → m (List Node × Progress))
    (innerClass : List Char → m (Node × List Char)) (s : Progress) : m (Node × Progress) :=
  match s.rest with
  | [] => throw ⟨.unexpectedEnd, []⟩
  | '.' :: r => return (.shorthand .any, s.next r)
  | '(' :: r => groupIn inner ('(' :: r) (s.next r)
  | '[' :: r => do
    let (node, r) ←
      if setting.flags.unicodeSets then innerClass r else liftM (Class.listed setting r)
    return (node, s.next r)
  | '\\' :: r => do
    let (node, r) ← escaped setting r
    return (node, s.next r)
  | c :: r =>
    if setting.strict && (c == ']' || c == '}') then throw ⟨.loneBracket, c :: r⟩
    else return (.character ⟨c.toNat, [c]⟩, s.next r)

def lookaroundIn (setting : Setting) (inner : Progress → m (List Node × Progress))
    (direction : Direction) (negate : Bool) (s : Progress) : m (Node × Progress) := do
  let (node, s) ← enclosedIn inner (.look direction negate) s
  if direction = .forward && !setting.strict then liftM (quantified setting node s)
  else liftM (unrepeatable node s)

def termIn (setting : Setting) (inner : Progress → m (List Node × Progress))
    (innerClass : List Char → m (Node × List Char)) (s : Progress) : m (Node × Progress) :=
  match s.rest with
  | '^' :: r => liftM (unrepeatable (.edge .lineStart) (s.next r))
  | '$' :: r => liftM (unrepeatable (.edge .lineEnd) (s.next r))
  | '\\' :: 'b' :: r => liftM (unrepeatable (.edge (.word false)) (s.next r))
  | '\\' :: 'B' :: r => liftM (unrepeatable (.edge (.word true)) (s.next r))
  | '(' :: '?' :: '=' :: r => lookaroundIn setting inner .forward false (s.next r)
  | '(' :: '?' :: '!' :: r => lookaroundIn setting inner .forward true (s.next r)
  | '(' :: '?' :: '<' :: '=' :: r => lookaroundIn setting inner .backward false (s.next r)
  | '(' :: '?' :: '<' :: '!' :: r => lookaroundIn setting inner .backward true (s.next r)
  | r =>
    if r.head? == some '{' && setting.strict then throw ⟨.loneBracket, r⟩
    else if Lexeme.atQuantifier r then throw ⟨.nothingToRepeat, r⟩
    else do
      let (node, s) ← atomIn setting inner innerClass s
      liftM (quantified setting node s)

def elementsIn (term : Progress → m (Node × Progress)) :
    Nat → Progress → m (List Node × Progress)
  | 0, s => return ([], s)
  | n + 1, s =>
    match s.rest with
    | [] | '|' :: _ | ')' :: _ => return ([], s)
    | _ => do
      let (first, s) ← term s
      let (more, s) ← elementsIn term n s
      return (first :: more, s)

def alternativeIn (term : Progress → m (Node × Progress)) (s : Progress) :
    m (Node × Progress) := do
  let (nodes, s) ← elementsIn term s.rest.length s
  return (.alternative nodes, s)

def alternativesIn (term : Progress → m (Node × Progress)) :
    Nat → Progress → m (List Node × Progress)
  | 0, s => do
    let (first, s) ← alternativeIn term s
    return ([first], s)
  | n + 1, s => do
    let (first, s) ← alternativeIn term s
    match s.rest with
    | '|' :: r =>
      let (more, s) ← alternativesIn term n (s.next r)
      return (first :: more, s)
    | _ => return ([first], s)

def readIn (inner : Progress → m (List Node × Progress)) (source : List Char) :
    m (Node × List (List Char)) := do
  let (alternatives, s) ← inner ⟨source, 0, []⟩
  match s.rest with
  | [] => return (.choice .whole alternatives, s.names)
  | ')' :: r => throw ⟨.unmatchedParenthesis, ')' :: r⟩
  | r => throw ⟨.unexpectedCharacter, r⟩

end Pattern

/-! ## Readers side by side -/

/-- A relation between runs over a monad and runs over faults alone that composition keeps. -/
structure Alongside (R : {α : Type} → m α → Except Fault α → Prop) : Prop where
  pure {α : Type} (a : α) : R (Pure.pure a) (Pure.pure a)
  throw {α : Type} (f : Fault) : R (throw f : m α) (throw f)
  lift {α : Type} (y : Except Fault α) : R (liftM y) (liftM y)
  bind {α β : Type} {x : m α} {y : Except Fault α} {f : α → m β} {g : α → Except Fault β} :
    R x y → (∀ a, R (f a) (g a)) → R (x >>= f) (y >>= g)

namespace Alongside

variable {R : {α : Type} → m α → Except Fault α → Prop} (hR : Alongside R)

include hR

section
open RegexAudit.Class
variable {setting : Setting} {x : List Char → m (Node × List Char)}
  {y : List Char → Except Fault (Node × List Char)} (h : ∀ r, R (x r) (y r))

include h

/-- Two readers of operands stand side by side if the readers of the classes in them do. -/
theorem operand (text : List Char) : R (operandIn setting x text) (operandIn setting y text) := by
  unfold operandIn
  split
  · exact hR.throw _
  · exact h _
  · exact hR.bind (hR.lift _) fun _ => hR.pure _
  · exact hR.lift _
  · split
    · exact hR.throw _
    · exact hR.pure _

theorem rangeOrOperand (text : List Char) : R (rangeOrOperandIn x text) (rangeOrOperandIn y text) := by
  refine hR.bind (h text) fun (min, r) => ?_
  simp only
  split
  · exact hR.pure _
  · refine hR.bind (h _) fun (max, r) => ?_
    exact hR.bind (hR.lift _) fun _ => hR.pure _
  · exact hR.pure _

theorem operations (operator : SetOperator) (k : Nat) (left : Node) (text : List Char) :
    R (operationsIn x operator k left text) (operationsIn y operator k left text) := by
  induction k generalizing left text with
  | zero => exact hR.pure _
  | succ k ih =>
    unfold operationsIn
    split
    · exact hR.pure _
    · exact hR.bind (h _) fun _ => ih _ _

theorem elements (start : List Char) (k : Nat) (text : List Char) :
    R (elementsIn x start k text) (elementsIn y start k text) := by
  induction k generalizing text with
  | zero =>
    unfold elementsIn
    split
    · exact hR.pure _
    · exact hR.throw _
    · exact hR.throw _
    · contradiction
  | succ k ih =>
    unfold elementsIn
    split
    · exact hR.pure _
    · contradiction
    · exact hR.throw _
    · rename_i hk _ _
      cases hk
      split
      · exact hR.throw _
      · refine hR.bind (hR.rangeOrOperand h _) fun _ => ?_
        exact hR.bind (ih _) fun _ => hR.pure _

/-- Two readers of classes stand side by side if their readers of operands do. -/
theorem body (text : List Char) : R (bodyIn x text) (bodyIn y text) := by
  unfold bodyIn
  simp only
  split
  · exact hR.pure _
  · refine hR.bind (hR.rangeOrOperand h _) fun (first, after) => ?_
    simp only
    split
    · split
      · exact hR.throw _
      · refine hR.bind (hR.operations h _ _ _ _) fun (expression, after) => ?_
        simp only
        split
        · exact hR.pure _
        · exact hR.throw _
    · exact hR.bind (hR.elements h _ _ _) fun _ => hR.pure _

end

section
open Pattern
variable {setting : Setting} {x : Progress → m (List Node × Progress)} {y : AlternativesReader}
  {xClass : List Char → m (Node × List Char)} {yClass : List Char → Except Fault (Node × List Char)}
  (h : ∀ s, R (x s) (y s)) (hclass : ∀ r, R (xClass r) (yClass r))

include h

theorem enclosed (make : List Node → Node) (s : Progress) :
    R (enclosedIn x make s) (enclosedIn y make s) := by
  refine hR.bind (h s) fun (alternatives, s) => ?_
  simp only
  split
  · exact hR.pure _
  · exact hR.throw _

theorem read (source : List Char) : R (readIn x source) (readIn y source) := by
  refine hR.bind (h _) fun (alternatives, s) => ?_
  simp only
  split
  · exact hR.pure _
  · exact hR.throw _
  · exact hR.throw _

/-- Two readers of groups stand side by side if the readers of their insides do. -/
theorem group (start : List Char) (s : Progress) :
    R (groupIn x start s) (groupIn y start s) := by
  unfold groupIn
  split
  · exact hR.enclosed h _ _
  · refine hR.bind (hR.lift _) fun (name, r) => ?_
    simp only
    split
    · exact hR.throw _
    · exact hR.enclosed h _ _
  · exact hR.throw _
  · exact hR.enclosed h _ _

theorem lookaround (direction : Direction) (negate : Bool) (s : Progress) :
    R (lookaroundIn setting x direction negate s) (lookaroundIn setting y direction negate s) := by
  refine hR.bind (hR.enclosed h _ s) fun (node, s) => ?_
  simp only
  split
  · exact hR.lift _
  · exact hR.lift _

include hclass

theorem atom (s : Progress) : R (atomIn setting x xClass s) (atomIn setting y yClass s) := by
  unfold atomIn
  split
  · exact hR.throw _
  · exact hR.pure _
  · exact hR.group h _ _
  · simp only
    split
    · exact hR.bind (hclass _) fun _ => hR.pure _
    · exact hR.bind (hR.lift _) fun _ => hR.pure _
  · exact hR.bind (hR.lift _) fun _ => hR.pure _
  · split
    · exact hR.throw _
    · exact hR.pure _

/-- Two readers of terms stand side by side if those of groups and of classes do. -/
theorem term (s : Progress) : R (termIn setting x xClass s) (termIn setting y yClass s) := by
  unfold termIn
  split
  · exact hR.lift _
  · exact hR.lift _
  · exact hR.lift _
  · exact hR.lift _
  · exact hR.lookaround h _ _ _
  · exact hR.lookaround h _ _ _
  · exact hR.lookaround h _ _ _
  · exact hR.lookaround h _ _ _
  · split
    · exact hR.throw _
    · split
      · exact hR.throw _
      · exact hR.bind (hR.atom h hclass s) fun _ => hR.lift _

end

section
open Pattern
variable {x : Progress → m (Node × Progress)} {y : NodeReader} (h : ∀ s, R (x s) (y s))

include h

theorem row (k : Nat) (s : Progress) :
    R (Pattern.elementsIn x k s) (Pattern.elementsIn y k s) := by
  induction k generalizing s with
  | zero => exact hR.pure _
  | succ k ih =>
    unfold Pattern.elementsIn
    split
    · exact hR.pure _
    · exact hR.pure _
    · exact hR.pure _
    · refine hR.bind (h s) fun _ => ?_
      exact hR.bind (ih _) fun _ => hR.pure _

theorem alternative (s : Progress) : R (alternativeIn x s) (alternativeIn y s) :=
  hR.bind (hR.row h _ s) fun _ => hR.pure _

/-- Loops with one bound stand side by side, round by round. -/
theorem alternatives (k : Nat) (s : Progress) :
    R (alternativesIn x k s) (alternativesIn y k s) := by
  induction k generalizing s with
  | zero => exact hR.bind (hR.alternative h s) fun _ => hR.pure _
  | succ k ih =>
    refine hR.bind (hR.alternative h s) fun (first, s) => ?_
    simp only
    split
    · exact hR.bind (ih _) fun _ => hR.pure _
    · exact hR.pure _

end

end Alongside

end

/-! ## Readers over faults alone -/

section
variable {setting : Setting}

theorem Class.operandIn_eq (inner : List Char → Except Fault (Node × List Char)) :
    operandIn setting inner = operand setting inner := rfl

theorem Class.rangeOrOperandIn_eq (operand : List Char → Except Fault (Node × List Char)) :
    rangeOrOperandIn operand = rangeOrOperand operand := rfl

theorem Class.operationsIn_eq (operand : List Char → Except Fault (Node × List Char))
    (operator : SetOperator) (k : Nat) (left : Node) (text : List Char) :
    operationsIn operand operator k left text = operations operand operator k left text := by
  induction k generalizing left text with
  | zero => rfl
  | succ k ih =>
    unfold operationsIn operations
    simp only [ih]
    rfl

theorem Class.elementsIn_eq (operand : List Char → Except Fault (Node × List Char))
    (start : List Char) (k : Nat) (text : List Char) :
    elementsIn operand start k text = elements operand start k text := by
  fun_induction elements operand start k text with
  | case1 k r => cases k <;> rfl
  | case2 text h =>
    rw [elementsIn]
    · rfl
    · exact h
  | case3 k => cases k <;> rfl
  | case4 k text hclose hnil hoperator =>
    rw [elementsIn]
    · exact if_pos hoperator
    · exact hclose
    · exact hnil
  | case5 k text hclose hnil hoperator ih =>
    rw [elementsIn]
    · simp only [rangeOrOperandIn_eq, ih, hoperator]
      rfl
    · exact hclose
    · exact hnil

theorem Class.bodyIn_eq (operand : List Char → Except Fault (Node × List Char))
    (text : List Char) : bodyIn operand text = body operand text := by
  unfold bodyIn body
  simp only [rangeOrOperandIn_eq, operationsIn_eq, elementsIn_eq]
  rfl

/-- Over faults alone the reader of terms is the one of patterns. -/
theorem Pattern.termIn_eq (inner : AlternativesReader)
    (innerClass : List Char → Except Fault (Node × List Char)) :
    termIn setting inner innerClass = term setting inner innerClass := rfl

theorem Pattern.elementsIn_eq (reader : NodeReader) (k : Nat) (s : Progress) :
    elementsIn reader k s = elements reader k s := by
  induction k generalizing s with
  | zero => rfl
  | succ k ih =>
    unfold elementsIn elements
    simp only [ih]
    rfl

theorem Pattern.alternativeIn_eq (reader : NodeReader) :
    alternativeIn reader = alternative reader := by
  funext s
  unfold alternativeIn alternative
  rw [elementsIn_eq]
  rfl

theorem Pattern.alternativesIn_eq (reader : NodeReader) (k : Nat) (s : Progress) :
    alternativesIn reader k s = alternatives reader k s := by
  induction k generalizing s with
  | zero =>
    unfold alternativesIn alternatives
    rw [alternativeIn_eq]
    rfl
  | succ k ih =>
    unfold alternativesIn alternatives
    simp only [alternativeIn_eq, ih]
    rfl

theorem Pattern.readIn_eq (limit : Nat) (flags : Flags) (source : List Char) :
    readIn (disjunction (settingOf flags source) limit) source = read limit flags source := rfl

end

/-! ## Counters -/

/-- Runs with a counter, which a fault does not undo. -/
abbrev Counted := ExceptT Fault (StateM Nat)

namespace Counted

/-- Go one level deeper, unless the counter has reached the limit. -/
def deeper {α : Type} (limit : Nat) (rest : List Char) (x : Counted α) : Counted α := ExceptT.mk do
  if limit ≤ (← get) then return .error ⟨.tooDeep, rest⟩
  modify (· + 1)
  let result ← x.run
  modify (· - 1)
  return result

/-- A class with `v`. The recursion follows `room`, which is never used up before the counter has
reached the limit. -/
def nested (setting : Setting) (limit : Nat) : (room : Nat) → List Char → Counted (Node × List Char)
  | 0, text => throw ⟨.tooDeep, text⟩
  | room + 1, text =>
    deeper limit text (Class.bodyIn (Class.operandIn setting (nested setting limit room)) text)

def disjunction (setting : Setting) (limit : Nat) :
    (room : Nat) → Pattern.Progress → Counted (List Node × Pattern.Progress)
  | 0, s => throw ⟨.tooDeep, s.rest⟩
  | room + 1, s =>
    deeper limit s.rest
      (Pattern.alternativesIn
        (Pattern.termIn setting (disjunction setting limit room) (nested setting limit room))
        s.rest.length s)

/-- A whole pattern, with the counter at zero. -/
def read (limit : Nat) (flags : Flags) (source : List Char) : Counted (Node × List (List Char)) :=
  Pattern.readIn (disjunction (Pattern.settingOf flags source) limit limit) source

/-- The run gives this value, or stops with this fault, and leaves the counter as it was. -/
def Runs {α : Type} (depth : Nat) (x : Counted α) (y : Except Fault α) : Prop :=
  x.run.run depth = (y, depth)

theorem alongside_runs (depth : Nat) : Alongside (Runs depth) where
  pure _ := rfl
  throw _ := rfl
  lift _ := rfl
  bind {α β x y f g} hx hf := by
    have hrun : (x >>= f).run.run depth =
        (ExceptT.bindCont f (x.run.run depth).1).run (x.run.run depth).2 := rfl
    rw [Runs, hrun, hx]
    cases y with
    | error fault => rfl
    | ok a => exact hf a

section
variable {α : Type} {limit depth : Nat} {rest : List Char} {x : Counted α} {y : Except Fault α}

/-- Going deeper counts up, and down again whatever the reader has found. -/
theorem run_deeper : (deeper limit rest x).run.run depth =
    if limit ≤ depth then (.error ⟨.tooDeep, rest⟩, depth)
    else ((x.run.run (depth + 1)).1, (x.run.run (depth + 1)).2 - 1) := by
  show StateT.run (if limit ≤ depth then _ else _) depth = _
  split <;> rfl

theorem runs_deeper_full (h : limit ≤ depth) :
    Runs depth (deeper limit rest x) (.error ⟨.tooDeep, rest⟩) := by
  rw [Runs, run_deeper, if_pos h]

/-- What is entered one level deeper leaves the counter as it was before. -/
theorem runs_deeper (h : ¬ limit ≤ depth) (hx : Runs (depth + 1) x y) :
    Runs depth (deeper limit rest x) y := by
  rw [Runs, run_deeper, if_neg h, hx]
  rfl

end

variable {setting : Setting} {limit room depth : Nat}

/-- A class is read with a counter as it is read with the number of levels that are left. -/
theorem runs_nested (h : limit ≤ depth + room) (text : List Char) :
    Runs depth (nested setting limit room text) (Class.nested setting (limit - depth) text) := by
  induction room generalizing depth text with
  | zero =>
    have hnone : limit - depth = 0 := Nat.sub_eq_zero_of_le h
    rw [hnone]
    rfl
  | succ room ih =>
    by_cases hfull : limit ≤ depth
    · rw [Nat.sub_eq_zero_of_le hfull]
      exact runs_deeper_full hfull
    · obtain ⟨left, hleft⟩ : ∃ left, limit - depth = left + 1 :=
        Nat.exists_eq_succ_of_ne_zero (by omega)
      have hnext : left = limit - (depth + 1) := by omega
      have hruns := alongside_runs (depth + 1)
      rw [hleft, Class.nested, ← Class.bodyIn_eq, ← Class.operandIn_eq, hnext]
      exact runs_deeper hfull
        (hruns.body (hruns.operand fun r => ih (by omega) r) text)

/-- Alternatives are read with a counter as they are read with the number of levels that are left. -/
theorem runs_disjunction (h : limit ≤ depth + room) (s : Pattern.Progress) :
    Runs depth (disjunction setting limit room s)
      (Pattern.disjunction setting (limit - depth) s) := by
  induction room generalizing depth s with
  | zero =>
    have hnone : limit - depth = 0 := Nat.sub_eq_zero_of_le h
    rw [hnone]
    rfl
  | succ room ih =>
    by_cases hfull : limit ≤ depth
    · rw [Nat.sub_eq_zero_of_le hfull]
      exact runs_deeper_full hfull
    · obtain ⟨left, hleft⟩ : ∃ left, limit - depth = left + 1 :=
        Nat.exists_eq_succ_of_ne_zero (by omega)
      have hnext : left = limit - (depth + 1) := by omega
      have hruns := alongside_runs (depth + 1)
      rw [hleft, Pattern.disjunction, ← Pattern.alternativesIn_eq, ← Pattern.termIn_eq, hnext]
      refine runs_deeper hfull (hruns.alternatives (hruns.term ?_ ?_) _ s)
      · exact fun s => ih (by omega) s
      · exact fun r => runs_nested (by omega) r

/-- The counter is at zero again after a whole pattern. -/
theorem runs_read (limit : Nat) (flags : Flags) (source : List Char) :
    Runs 0 (read limit flags source) (Pattern.read limit flags source) := by
  rw [← Pattern.readIn_eq]
  exact (alongside_runs 0).read
    (runs_disjunction (Nat.le_of_eq (Nat.zero_add limit).symm)) source

end Counted

/-! ## Limits -/

namespace Pattern

/-- The first run stops because parts stand too deep in one another, or both runs are the same. -/
def Agrees {α : Type} (x y : Except Fault α) : Prop :=
  (∃ rest, x = .error ⟨.tooDeep, rest⟩) ∨ x = y

theorem alongside_agrees : Alongside (m := Except Fault) Agrees where
  pure _ := .inr rfl
  throw _ := .inr rfl
  lift _ := .inr rfl
  bind {_ _ x _ _ _} hx hf := by
    obtain ⟨rest, rfl⟩ | rfl := hx
    · exact .inl ⟨rest, rfl⟩
    · cases x with
      | error fault => exact .inr rfl
      | ok a => exact hf a

variable {setting : Setting} {limit limit' : Nat}

/-- A larger limit gives the same class, unless the smaller one was reached. -/
theorem agrees_nested (h : limit ≤ limit') (text : List Char) :
    Agrees (Class.nested setting limit text) (Class.nested setting limit' text) := by
  induction limit generalizing limit' text with
  | zero => exact .inl ⟨text, rfl⟩
  | succ limit ih =>
    obtain ⟨more, rfl⟩ : ∃ more, limit' = more + 1 := Nat.exists_eq_succ_of_ne_zero (by omega)
    rw [Class.nested, Class.nested, ← Class.bodyIn_eq, ← Class.bodyIn_eq, ← Class.operandIn_eq,
      ← Class.operandIn_eq]
    exact alongside_agrees.body (alongside_agrees.operand (ih (Nat.le_of_succ_le_succ h))) text

theorem agrees_disjunction (h : limit ≤ limit') (s : Progress) :
    Agrees (disjunction setting limit s) (disjunction setting limit' s) := by
  induction limit generalizing limit' s with
  | zero => exact .inl ⟨s.rest, rfl⟩
  | succ limit ih =>
    obtain ⟨more, rfl⟩ : ∃ more, limit' = more + 1 := Nat.exists_eq_succ_of_ne_zero (by omega)
    have h := Nat.le_of_succ_le_succ h
    rw [disjunction, disjunction, ← alternativesIn_eq, ← alternativesIn_eq, ← termIn_eq,
      ← termIn_eq]
    exact alongside_agrees.alternatives (alongside_agrees.term (ih h) (agrees_nested h)) _ s

theorem agrees_read (h : limit ≤ limit') (flags : Flags) (source : List Char) :
    Agrees (read limit flags source) (read limit' flags source) :=
  alongside_agrees.bind (agrees_disjunction h _) fun _ => .inr rfl

/-- With more room for nesting a source is read as before, or it was nested too deep before. -/
theorem parseWithin_agrees (h : limit ≤ limit') (flags : Flags) (source : List Char) :
    (∃ offset, parseWithin limit flags source = .error ⟨.tooDeep, offset⟩) ∨
      parseWithin limit flags source = parseWithin limit' flags source := by
  obtain ⟨rest, hread⟩ | hread := agrees_read h flags source
  · refine .inl ⟨Text.width source - Text.width rest, ?_⟩
    rw [parseWithin, hread]
  · refine .inr ?_
    rw [parseWithin, hread]
    rfl

end Pattern

end RegexAudit
