import RegexAudit.Proofs.Abreast
import RegexAudit.Proofs.Removal

/-!
# Exchanging nodes of a source

When a node of a pattern is exchanged for another one, and its text in the source with it, the rest of
the pattern is read as before. `Role` says how a node is read: as a term, as what a quantifier follows,
as an alternative or as the whole.

    role.Reads setting depth n s s' → t.rest = m.text ++ s'.rest →
      ∃ t', role.Reads setting' depth m t t'                                        (Exchange n m)

From a child this goes up to its parent (`Exchange.withChild`), and along the trail to the root
(`Exchange.rebuild`). What stands before the child is read abreast of its old reading, because the text
of the child begins with a parenthesis, or something in it does, and nothing before it is touched
(`Forks`).
-/

namespace RegexAudit

open Node

/-! ## Texts that fork at a parenthesis -/

/-- The texts are the same up to an opening parenthesis. -/
def Forks (x x' : List Char) : Prop := ∃ w z z', x = w ++ '(' :: z ∧ x' = w ++ '(' :: z'

namespace Forks

variable {x x' v v' : List Char}

theorem prepend (h : Forks x x') (w : List Char) : Forks (w ++ x) (w ++ x') := by
  obtain ⟨y, z, z', rfl, rfl⟩ := h
  exact ⟨w ++ y, z, z', (List.append_assoc _ _ _).symm, (List.append_assoc _ _ _).symm⟩

theorem append (h : Forks x x') (v v' : List Char) : Forks (x ++ v) (x' ++ v') := by
  obtain ⟨y, z, z', rfl, rfl⟩ := h
  exact ⟨y, z ++ v, z' ++ v', by rw [List.append_assoc, List.cons_append],
    by rw [List.append_assoc, List.cons_append]⟩

theorem not_atEnd (h : Forks x x') (hend : ¬ Pattern.AtEnd x) : ¬ Pattern.AtEnd x' := by
  obtain ⟨y, z, z', rfl, rfl⟩ := h
  by_cases hy : y = []
  · subst hy
    rintro (hnil | ⟨_, hbar | hclose⟩)
    · cases hnil
    · cases hbar
    · cases hclose
  · exact fun hend' => hend (hend'.of_append.append hy)

end Forks

namespace Node

theorem textAll_cons (separator : List Char) (n : Node) {ns : List Node} (hns : ns ≠ []) :
    textAll separator (n :: ns) = n.text ++ (separator ++ textAll separator ns) := by
  obtain ⟨m, ns, rfl⟩ := List.exists_cons_of_ne_nil hns
  rw [textAll, List.append_assoc]

/-- A text among others has the separator on both sides. -/
theorem textAll_append_cons (separator : List Char) (ns : List Node) (m : Node) (ms : List Node) :
    textAll separator (ns ++ m :: ms) = ns.flatMap (fun n => n.text ++ separator) ++ m.text ++
      ms.flatMap fun n => separator ++ n.text := by
  induction ns with
  | nil =>
    induction ms generalizing m with
    | nil => simp [textAll]
    | cons e ms ih =>
      have hrest : textAll separator (e :: ms) = e.text ++ ms.flatMap fun n => separator ++ n.text :=
        ih e
      simp [textAll_cons, hrest]
  | cons n ns ih =>
    rw [List.cons_append, textAll_cons _ _ (by simp), ih]
    simp

theorem textAll_set {ns : List Node} {slot : Nat} {n : Node} (hslot : ns[slot]? = some n)
    (separator : List Char) (m : Node) : textAll separator (ns.set slot m) =
      (ns.take slot).flatMap (fun n => n.text ++ separator) ++ m.text ++
        (ns.drop (slot + 1)).flatMap fun n => separator ++ n.text := by
  rw [set_eq_append hslot, textAll_append_cons]

theorem set_self {ns : List Node} {slot : Nat} {n : Node} (hslot : ns[slot]? = some n) :
    ns.set slot n = ns := by
  obtain ⟨hlt, rfl⟩ := List.getElem?_eq_some_iff.1 hslot
  exact List.set_getElem_self hlt

theorem forks_textAll_set {separator : List Char} {ns : List Node} {slot : Nat} {n m : Node}
    (hslot : ns[slot]? = some n) (h : Forks n.text m.text) :
    Forks (textAll separator ns) (textAll separator (ns.set slot m)) := by
  rw [textAll_set hslot]
  nth_rewrite 1 [← set_self hslot]
  rw [textAll_set hslot]
  exact (h.prepend _).append _ _

/-- What stands in a parent that stands in a class, does so too. -/
theorem Layered.parent {root parent c : Node} (h : root.Layered) (hparent : root.HasPart parent)
    (hc : c ∈ parent.children) (hlevel : c.isClassLevel = false) : parent.isClassLevel = false := by
  refine Bool.eq_false_iff.2 fun hclass => ?_
  rw [h parent hparent hclass c hc] at hlevel
  cases hlevel

/-- The node with other alternatives, if it has any. -/
def withAlternatives : Node → List Node → Node
  | choice frame _, ns => choice frame ns
  | look direction negate _, ns => look direction negate ns
  | n, _ => n

theorem withChild_of_alternatives {n : Node} {ns : List Node} (hn : n.alternatives? = some ns)
    (slot : Nat) (c : Node) : n.withChild slot c = n.withAlternatives (ns.set slot c) := by
  cases n with
  | choice _ _ | look _ _ _ =>
    cases hn
    rfl
  | _ => cases hn

end Node

theorem Forks.withChild {parent c m : Node} {slot : Nat} (hslot : parent.children[slot]? = some c)
    (hlevel : parent.isClassLevel = false) (h : Forks c.text m.text) :
    Forks parent.text (parent.withChild slot m).text := by
  cases parent with
  | choice frame ns =>
    rw [Node.withChild, text, text]
    exact ((forks_textAll_set hslot h).prepend _).append _ _
  | look direction negate ns =>
    rw [Node.withChild, text, text]
    exact ((forks_textAll_set hslot h).prepend _).append _ _
  | alternative ns =>
    rw [Node.withChild, text, text]
    exact forks_textAll_set hslot h
  | quantifier bounds greedy lexeme element =>
    obtain rfl : c = element := List.mem_singleton.1 (List.mem_of_getElem? hslot)
    rw [Node.withChild, text, text]
    exact h.append _ _
  | edge _ | backreference _ => cases hslot
  | _ => cases hlevel

namespace Pattern

open Lexeme

variable {setting : Setting} {flags : Flags} {labels : List (Option (List Char))} {total : Nat}

/-! ## Roles -/

/-- How a node is read. -/
inductive Role where
  /-- As what a quantifier may follow, if it `repeats`. -/
  | element (repeats : Bool)
  | term
  | alternative
  | whole

/-- The node is read in the role. -/
def Role.Reads (setting : Setting) (depth : Nat) : Role → Node → Progress → Progress → Prop
  | element repeats, n, s, s' => unquantified setting (disjunction setting depth)
    (Class.nested setting depth) s = .ok ((n, repeats), s')
  | term, n, s, s' => termAt setting depth s = .ok (n, s')
  | alternative, n, s, s' => ∃ ns, n = .alternative ns ∧ Row (termAt setting depth) s ns s'
  | whole, n, s, s' => ∃ ns, n = .choice .whole ns ∧ Bars (termAt setting depth) s ns s'

/-- When `n` is read in the role, `m` is read in its place with other groups in the setting. -/
def ExchangeAs (total : Nat) (setting setting' : Setting) (role : Role) (n m : Node) : Prop :=
  ∀ {depth : Nat} {s s' t : Progress}, role.Reads setting depth n s s' → s'.groups ≤ total →
    t.rest = m.text ++ s'.rest → Level total s t →
      ∃ t', role.Reads setting' depth m t t' ∧ Abreast total [] [] s' t'

/-- However `n` is read, `m` is read in its place. -/
def Exchange (total : Nat) (setting setting' : Setting) (n m : Node) : Prop :=
  ∀ role, ExchangeAs total setting setting' role n m

/-- When `ns` are read as alternatives, `ms` are read in their place. -/
def ExchangeAll (total : Nat) (setting setting' : Setting) (ns ms : List Node) : Prop :=
  ∀ {depth : Nat} {s s' t : Progress}, Bars (termAt setting depth) s ns s' → s'.groups ≤ total →
    t.rest = textAll ['|'] ms ++ s'.rest → Level total s t →
      ∃ t', Bars (termAt setting' depth) t ms t' ∧ Abreast total [] [] s' t'

section
variable (hwithin : (settingFor flags labels).Within setting) {n m : Node} {ns ms : List Node}
  {slot : Nat}

include hwithin

/-! ## Terms -/

/-- What comes after an element comes after another one in its place. -/
theorem Ends.exchange {repeats : Bool} {text rest : List Char} {e : Node}
    (h : Ends setting e repeats text n rest) (m : Node) :
    (n = e ∧ Ends (settingFor flags labels) m repeats text m rest) ∨
      ∃ bounds greedy lexeme, n = .quantifier bounds greedy lexeme e ∧
        Ends (settingFor flags labels) m repeats text (.quantifier bounds greedy lexeme m) rest := by
  have hread {r after : List Char} {read : Option (Bounds × Bool)}
      (h : quantifier? setting r = .ok (read, after)) :
      quantifier? (settingFor flags labels) r = .ok (read, after) := by
    rw [← List.append_nil r, ← List.append_nil after] at h ⊢
    exact quantifier?_fence .nil hwithin.strict h
  cases h with
  | repeatable h => exact .inl ⟨rfl, .repeatable (hread h)⟩
  | unrepeatable h => exact .inl ⟨rfl, .unrepeatable h⟩
  | repeated h => exact .inr ⟨_, _, _, rfl, .repeated (hread h)⟩

/-- A node that is read as an element is a term without a quantifier. -/
theorem exchangeAs_term
    (hn : ∀ bounds greedy lexeme e, n ≠ .quantifier bounds greedy lexeme e)
    (h : ∀ repeats, ExchangeAs total setting (settingFor flags labels) (.element repeats) n m) :
    ExchangeAs total setting (settingFor flags labels) .term n m := by
  intro depth s s' t hterm hroom ht hlevel
  obtain ⟨e, repeats, s1, rest, hread, hends, rfl⟩ := term_iff.1 hterm
  obtain ⟨rfl, hends'⟩ | ⟨_, _, _, hquantifier, -⟩ := hends.exchange hwithin m
  · have hrest : rest = s1.rest := by
      generalize s1.rest = text at hends
      cases hends with
      | repeatable _ | unrepeatable _ => rfl
    subst hrest
    obtain ⟨t1, hread', habreast⟩ := h repeats hread hroom ht hlevel
    rw [← habreast.rest_eq] at hends'
    exact ⟨t1, term_iff.2 ⟨m, repeats, t1, _, hread', hends', rfl⟩, habreast⟩
  · exact absurd hquantifier (hn _ _ _ _)

/-- A quantifier follows whatever stands in the place of its element. -/
theorem exchange_quantifier {bounds : Bounds} {greedy : Bool} {lexeme : List Char} {e : Node}
    (h : ∀ repeats, ExchangeAs total setting (settingFor flags labels) (.element repeats) e m) :
    Exchange total setting (settingFor flags labels) (.quantifier bounds greedy lexeme e)
      (.quantifier bounds greedy lexeme m) := by
  intro role depth s s' t hreads hroom ht hlevel
  cases role with
  | element repeats => exact absurd rfl ((unquantified_ne hreads).2 _ _ _ _)
  | alternative =>
    obtain ⟨_, hn, -⟩ := hreads
    cases hn
  | whole =>
    obtain ⟨_, hn, -⟩ := hreads
    cases hn
  | term =>
    obtain ⟨f, repeats, s1, rest, hread, hends, rfl⟩ := term_iff.1 hreads
    obtain ⟨rfl, -⟩ | ⟨_, _, _, hquantifier, hends'⟩ := hends.exchange hwithin m
    · exact absurd rfl ((unquantified_ne hread).2 _ _ _ _)
    · obtain ⟨rfl, rfl, rfl, rfl⟩ := Node.quantifier.inj hquantifier
      have hs1 : s1.rest = lexeme ++ rest := by
        have hsource := termAt_source hreads
        rw [unquantified_source hread, text, List.append_assoc] at hsource
        exact List.append_cancel_left hsource
      have ht1 : t.rest = m.text ++ s1.rest := by
        rw [ht, text, List.append_assoc, hs1]
        rfl
      obtain ⟨t1, hread', habreast⟩ := h repeats hread hroom ht1 hlevel
      rw [← habreast.rest_eq] at hends'
      exact ⟨t1.next rest, term_iff.2 ⟨m, repeats, t1, rest, hread', hends', rfl⟩,
        .of_rest_eq rfl habreast.level⟩

/-! ## Rows -/

/-- Before the exchanged element the row is read abreast, and after it the texts are the same. -/
theorem Row.exchange {depth : Nat} {s s' t : Progress} (hslot : ns[slot]? = some n)
    (hforks : Forks n.text m.text) (hns : ∀ n ∈ ns, n.Throughout (Sound labels))
    (hterm : ExchangeAs total setting (settingFor flags labels) .term n m)
    (h : Row (termAt setting depth) s ns s') (hroom : s'.groups ≤ total)
    (ht : t.rest = textAll [] (ns.set slot m) ++ s'.rest) (hlevel : Level total s t) :
    ∃ t', Row (termAt (settingFor flags labels) depth) t (ns.set slot m) t' ∧
      Abreast total [] [] s' t' := by
  induction h generalizing slot t with
  | stop _ => cases hslot
  | step hend hfirst hrow ih =>
    rename_i s s1 s' e ns
    rw [List.forall_mem_cons] at hns
    have hroom1 : s1.groups ≤ total := (groups_le_of_row hrow).trans hroom
    cases slot with
    | zero =>
      cases hslot
      rw [List.set_cons_zero, textAll_nil_cons, List.append_assoc, ← hrow.source] at ht
      obtain ⟨t1, hfirst', habreast⟩ := hterm hfirst hroom1 ht hlevel
      obtain ⟨t', hrow', hdone⟩ := hrow.keepsUp .nil (keepsUp_termAt hwithin .nil depth) hns.2 hroom
        List.nil_suffix habreast
      refine ⟨t', .step ?_ hfirst' hrow', hdone⟩
      rw [termAt_source hfirst] at hend
      rw [ht]
      exact (hforks.append _ _).not_atEnd hend
    | succ slot =>
      have hslot : ns[slot]? = some n := hslot
      rw [List.set_cons_succ, textAll_nil_cons, List.append_assoc] at ht
      obtain ⟨w, z, z', hw, hw'⟩ := (forks_textAll_set hslot hforks).append s'.rest s'.rest
      have hs1 : s1.rest = w ++ '(' :: z := hrow.source.trans hw
      have habreast : Abreast total ('(' :: z) ('(' :: z') s t :=
        ⟨⟨e.text ++ w, by rw [termAt_source hfirst, hs1, List.append_assoc],
          by rw [ht, hw', List.append_assoc]⟩, hlevel⟩
      have hfence : '(' :: z <:+ s1.rest := ⟨w, hs1.symm⟩
      obtain ⟨t1, hfirst', habreast'⟩ := keepsUp_termAt hwithin (.opening z z') depth hfirst hns.1
        hroom1 hfence habreast
      have ht1 : t1.rest = textAll [] (ns.set slot m) ++ s'.rest :=
        (habreast'.rest_of_append hs1).trans hw'.symm
      obtain ⟨t', hrow', hdone⟩ := ih hslot hns.2 hroom ht1 habreast'.level
      exact ⟨t', .step (habreast.not_atEnd (lt_of_term hfirst hfence) hend) hfirst' hrow', hdone⟩

/-- One alternative is exchanged for another one. -/
theorem exchangeAll_set (hslot : ns[slot]? = some n) (hforks : Forks n.text m.text)
    (hns : ∀ n ∈ ns, n.Throughout (Sound labels))
    (halternative : ExchangeAs total setting (settingFor flags labels) .alternative n m) :
    ExchangeAll total setting (settingFor flags labels) ns (ns.set slot m) := by
  intro depth s s' t h hroom ht hlevel
  induction h generalizing slot t with
  | last hrow hbar =>
    cases slot with
    | succ slot => cases hslot
    | zero =>
      cases hslot
      obtain ⟨t', ⟨es, rfl, hrow'⟩, habreast⟩ := halternative ⟨_, rfl, hrow⟩ hroom ht hlevel
      refine ⟨t', .last hrow' fun r => ?_, habreast⟩
      rw [habreast.rest_eq]
      exact hbar r
  | more hrow hrest hmore ih =>
    rename_i s s1 s' es ns r
    rw [List.forall_mem_cons] at hns
    have hroom1 : s1.groups ≤ total := (groups_le_of_bars hmore).trans hroom
    have hr : r = textAll ['|'] ns ++ s'.rest := hmore.source
    have hne : ns ≠ [] := by cases hmore <;> simp
    have hafter : ['|'] ++ textAll ['|'] ns ++ s'.rest = s1.rest := by
      rw [List.append_assoc, ← hmore.source]
      exact hrest.symm
    have hne : ns ≠ [] := by cases hmore <;> simp
    cases slot with
    | zero =>
      cases hslot
      rw [List.set_cons_zero, textAll_cons _ _ hne, List.append_assoc, hafter] at ht
      obtain ⟨t1, ⟨es', rfl, hrow'⟩, habreast⟩ := halternative ⟨_, rfl, hrow⟩ hroom1 ht hlevel
      have hnext : Abreast total [] [] (s1.next r) (t1.next r) := .of_rest_eq rfl habreast.level
      obtain ⟨t', hmore', hdone⟩ := hmore.keepsUp .nil (keepsUp_termAt hwithin .nil depth) hns.2 hroom
        List.nil_suffix hnext
      exact ⟨t', .more hrow' (habreast.rest_eq.trans hrest) hmore', hdone⟩
    | succ slot =>
      have hslot : ns[slot]? = some n := hslot
      have hset : ns.set slot m ≠ [] := by simpa using hne
      rw [List.set_cons_succ, textAll_cons _ _ hset, List.append_assoc] at ht
      obtain ⟨w, z, z', hw, hw'⟩ := (forks_textAll_set hslot hforks).append s'.rest s'.rest
      have hr : r = w ++ '(' :: z := hmore.source.trans hw
      have habreast : Abreast total ('(' :: z) ('(' :: z') s t := by
        refine ⟨⟨textAll [] es ++ '|' :: w, ?_, ?_⟩, hlevel⟩
        · rw [hrow.source, hrest, hr]
          simp
        · rw [ht, List.append_assoc, hw', text]
          simp
      have hs1 : s1.rest = '|' :: w ++ '(' :: z := by rw [hrest, hr]; rfl
      obtain ⟨t1, hrow', habreast'⟩ := hrow.keepsUp (.opening z z')
        (keepsUp_termAt hwithin (.opening z z') depth) (throughout_iff.1 hns.1).2 hroom1 ⟨_, hs1.symm⟩
        habreast
      have ht1 : t1.rest = '|' :: (w ++ '(' :: z') := habreast'.rest_of_append hs1
      have hnext : (t1.next (w ++ '(' :: z')).rest = textAll ['|'] (ns.set slot m) ++ s'.rest :=
        hw'.symm
      obtain ⟨t', hmore', hdone⟩ := ih hslot hns.2 hroom hnext habreast'.level
      exact ⟨t', .more hrow' ht1 hmore', hdone⟩

/-! ## Alternatives -/

/-- What holds alternatives is read with others in their place. -/
theorem exchange_withAlternatives (hn : n.alternatives? = some ns)
    (h : ExchangeAll total setting (settingFor flags labels) ns ms) :
    Exchange total setting (settingFor flags labels) n (n.withAlternatives ms) := by
  have helement (repeats : Bool) : ExchangeAs total setting (settingFor flags labels)
      (.element repeats) n (n.withAlternatives ms) := by
    intro depth s s' t hread hroom ht hlevel
    obtain ⟨rest, hleaf, -⟩ | ⟨o, r, es, s1, hencloses, rfl, rfl⟩ := unquantified_iff.1 hread
    · obtain ⟨_, rfl⟩ | ⟨_, rfl⟩ | ⟨-, hclass⟩ := hleaf.shape
      · cases hn
      · cases hn
      · have hlevel := (classPart_iff.1 hclass).1
        cases n with
        | choice _ _ | look _ _ _ => cases hlevel
        | _ => cases hn
    · obtain rfl : es = ns := by
        cases o <;> exact Option.some.inj hn
      have hnode : (o.node s.groups es).withAlternatives ms = o.node s.groups ms := by
        cases o <;> rfl
      have hinside := hencloses.inside
      have hgroups : s'.groups = s1.groups := by rw [hencloses.progress]; rfl
      have hroom' : (o.enter s r).groups ≤ total :=
        (groups_le_of_disjunction hinside).trans (hgroups ▸ hroom)
      obtain ⟨hsame, hlevel'⟩ : o.node t.groups = o.node s.groups ∧ Level total (o.enter s r)
        (o.enter t (textAll ['|'] ms ++ s1.rest)) := hlevel.enter hroom'
      cases depth with
      | zero => cases hinside
      | succ depth =>
        obtain ⟨t1, hbars, habreast⟩ := h (disjunction_iff.1 hinside) (hgroups ▸ hroom)
          (o.rest_enter t _) hlevel'
        have hmark := head?_ne_of_bars hbars
        rw [o.rest_enter] at hmark
        have hopens : t.rest = o.text ++ (textAll ['|'] ms ++ s1.rest) := by
          rw [ht, hnode, o.text_node, hencloses.closes]
          simp
        refine ⟨t1.next s'.rest, unquantified_iff.2 (.inr ⟨o, _, ms, t1, ⟨hopens,
          hlevel.allowed hroom' hencloses.allowed hmark, disjunction_iff.2 hbars,
          habreast.rest_eq.trans hencloses.closes, rfl⟩, ?_, ?_⟩), .of_rest_eq rfl ?_⟩
        · rw [hnode, hsame]
        · cases o with
          | look _ _ => simp only [Opening.repeats, hwithin.strict]
          | _ => rfl
        · rw [hencloses.progress]
          exact habreast.level
  intro role
  cases role with
  | element repeats => exact helement repeats
  | term =>
    refine exchangeAs_term hwithin ?_ helement
    rintro _ _ _ _ rfl
    cases hn
  | alternative =>
    rintro depth s s' t ⟨_, rfl, -⟩
    cases hn
  | whole =>
    rintro depth s s' t ⟨_, rfl, hbars⟩ hroom ht hlevel
    cases hn
    rw [withAlternatives, text, Frame.opening, Frame.closing, List.nil_append, List.append_nil] at ht
    obtain ⟨t', hbars', habreast⟩ := h hbars hroom ht hlevel
    exact ⟨t', ⟨ms, rfl, hbars'⟩, habreast⟩

/-! ## From a node to the root -/

/-- A child is exchanged together with its parent. -/
theorem Exchange.withChild {parent : Node} (hparent : parent.Throughout (Sound labels))
    (hlevel : parent.isClassLevel = false) (hslot : parent.children[slot]? = some n)
    (hforks : Forks n.text m.text) (h : Exchange total setting (settingFor flags labels) n m) :
    Exchange total setting (settingFor flags labels) parent (parent.withChild slot m) := by
  have hchildren := (throughout_iff.1 hparent).2
  cases parent with
  | choice _ ns | look _ _ ns =>
    rw [withChild_of_alternatives rfl]
    exact exchange_withAlternatives hwithin rfl
      (exchangeAll_set hwithin hslot hforks hchildren (h .alternative))
  | quantifier _ _ _ e =>
    obtain rfl : n = e := List.mem_singleton.1 (List.mem_of_getElem? hslot)
    exact exchange_quantifier hwithin fun repeats => h (.element repeats)
  | alternative ns =>
    intro role depth s s' t hreads hroom ht hlevel
    cases role with
    | element _ => exact absurd rfl ((unquantified_ne hreads).1 _)
    | term => exact absurd rfl (termAt_ne hreads _)
    | whole =>
      obtain ⟨_, hn, -⟩ := hreads
      cases hn
    | alternative =>
      obtain ⟨es, hes, hrow⟩ := hreads
      cases hes
      rw [Node.withChild, text] at ht
      obtain ⟨t', hrow', habreast⟩ :=
        hrow.exchange hwithin hslot hforks hchildren (h .term) hroom ht hlevel
      exact ⟨t', ⟨_, rfl, hrow'⟩, habreast⟩
  | edge _ | backreference _ => cases hslot
  | _ => cases hlevel

/-- A node is exchanged together with all that it stands in. -/
theorem Exchange.rebuild {root : Node} {trail : List RegexAudit.Step}
    (hroot : root.Throughout (Sound labels)) (hlayered : root.Layered) (hleads : root.Leads trail n)
    (hlevel : n.isClassLevel = false) (hforks : trail ≠ [] → Forks n.text m.text)
    (h : Exchange total setting (settingFor flags labels) n m) :
    Exchange total setting (settingFor flags labels) root (Node.rebuild trail m) := by
  induction trail generalizing n m with
  | nil =>
    rw [Leads] at hleads
    subst hleads
    exact h
  | cons s up ih =>
    obtain ⟨hslot, hup⟩ := hleads
    have hforks := hforks (List.cons_ne_nil s up)
    have hparent := hlayered.parent hup.hasPart (List.mem_of_getElem? hslot) hlevel
    exact ih hup hparent (fun _ => Forks.withChild hslot hparent hforks)
      (h.withChild hwithin (throughout_of_hasPart hroot hup.hasPart) hparent hslot hforks)

end

end Pattern

end RegexAudit
