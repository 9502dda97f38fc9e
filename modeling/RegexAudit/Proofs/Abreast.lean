import RegexAudit.Proofs.Passages
import RegexAudit.Proofs.Seams

/-!
# Readings abreast

Two sources that differ behind a fence are read alike up to the fence, and from there on it takes a
look at the fences only. So does a reading with fewer groups in the setting, if the references that
are read are to groups that there still are.

    reader s = .ok (a, s') → s and t abreast →
      reader' t = .ok (a, t')  with  s' and t' abreast                              (KeepsUp)

Behind the last group the two readings may have counted different groups, for no group is opened there.
-/

namespace RegexAudit

open Node

namespace Pattern

open Lexeme

variable {setting : Setting} {flags : Flags} {labels : List (Option (List Char))} {total : Nat}
  {u u' : List Char}

/-! ## Texts before fences -/

theorem fence_of_atEnd {r : List Char} (h : AtEnd r) : Fence r := by
  obtain rfl | ⟨after, rfl | rfl⟩ := h
  · exact .nil
  · exact .cons (by decide) after
  · exact .cons (by decide) after

/-- The fence `u'` may come in the place of `u`: where elements end or alternatives end before `u`,
they end before `u'`. -/
structure Swap (u u' : List Char) : Prop where
  fence : Fence u
  fence' : Fence u'
  atEnd : AtEnd u → AtEnd u'
  bar : (∀ r, u ≠ '|' :: r) → ∀ r, u' ≠ '|' :: r

namespace Swap

theorem nil : Swap [] [] := ⟨.nil, .nil, id, fun _ => nofun⟩

theorem opening (r r' : List Char) : Swap ('(' :: r) ('(' :: r') where
  fence := .cons (by decide) r
  fence' := .cons (by decide) r'
  atEnd := by rintro (h | ⟨_, h | h⟩) <;> cases h
  bar _ := nofun

theorem atBar (r : List Char) {v : List Char} (hv : AtEnd v) : Swap ('|' :: r) v where
  fence := .cons (by decide) r
  fence' := fence_of_atEnd hv
  atEnd _ := hv
  bar h := absurd rfl (h r)

end Swap

/-- What stands before the end of a text stands before another end. -/
theorem append_swap {x w r : List Char} (h : x ++ u = w ++ (r ++ u)) (u' : List Char) :
    x ++ u' = w ++ (r ++ u') := by
  rw [← List.append_assoc, List.append_cancel_right_eq] at h
  rw [h, List.append_assoc]

/-! ## Leaves -/

section
variable (hwithin : (settingFor flags labels).Within setting) {x r : List Char} {n : Node}

include hwithin

theorem Escape.fence (hu : Fence u) (hu' : Fence u') (hn : Sound labels n)
    (h : Escape setting (x ++ u) n (r ++ u)) :
    Escape (settingFor flags labels) (x ++ u') n (r ++ u') := by
  have hdigits {c : Char} {t : List Char} (h1 : '1' ≤ c) (h9 : c ≤ '9') (htext : x ++ u = c :: t) :
      ∃ y, x = c :: y ∧ t = y ++ u := by
    refine hu.exists_cons (fun hmark => ?_) htext
    have hnone : [']', '|', '(', ')'].any Char.isDigit = false := by decide
    exact List.any_eq_false.1 hnone c hmark (isDigit_of_le h1 h9)
  have hsame {c : Char} {y : List Char} :
      textBefore (c :: (y ++ u)) (r ++ u) = textBefore (c :: (y ++ u')) (r ++ u') :=
    (textBefore_alone (c :: y) r u).trans (textBefore_alone (c :: y) r u').symm
  generalize htext : x ++ u = text at h
  generalize hrest : r ++ u = rest at h
  cases h with
  | shorthand hset =>
    subst htext hrest
    exact .shorthand (shorthand?_joined hwithin.narrows u' hset)
  | name hk hname =>
    rename_i name
    subst hrest
    have htext' : x ++ u = 'k' :: '<' :: (name ++ ['>']) ++ (r ++ u) := by simp [htext]
    have hnamed : (settingFor flags labels).named = true :=
      List.any_eq_true.2 ⟨some name, hn.name name rfl, rfl⟩
    have h : Escape (settingFor flags labels) ('k' :: '<' :: (name ++ '>' :: (r ++ u')))
        (.backreference (.name name)) (r ++ u') := .name (by rw [hnamed, Bool.or_true]) hname
    rw [append_swap htext' u']
    simpa using h
  | index h1 h9 hdecimal _ =>
    obtain ⟨y, rfl, rfl⟩ := hdigits h1 h9 htext
    rw [← List.cons_append, decimal?_fence hu] at hdecimal
    obtain ⟨⟨m, r1⟩, hm, heq⟩ := Option.map_eq_some_iff.1 hdecimal
    obtain ⟨rfl, hr1⟩ := Prod.mk.inj heq
    obtain rfl : r1 = r := List.append_cancel_right (hr1.trans hrest.symm)
    refine .index h1 h9 ?_ (hn.index _ rfl)
    show decimal? (_ :: y ++ u') = _
    rw [decimal?_fence hu', hm]
    rfl
  | octal h1 h9 hdecimal hlt hlenient hoctal =>
    rename_i c t after k value
    obtain ⟨y, rfl, rfl⟩ := hdigits h1 h9 htext
    subst hrest
    rw [← List.cons_append, decimal?_fence hu] at hdecimal
    obtain ⟨⟨m, r1⟩, hm, heq⟩ := Option.map_eq_some_iff.1 hdecimal
    obtain ⟨rfl, -⟩ := Prod.mk.inj heq
    rw [octalOrSelf_fence hu] at hoctal
    obtain ⟨hvalue, hrest⟩ := Prod.mk.inj hoctal
    have hoctal' : octalOrSelf (c :: (y ++ u')) = (value, r ++ u') := by
      rw [octalOrSelf_fence hu', hvalue, List.append_cancel_right hrest]
    have hdecimal' : decimal? (c :: y ++ u') = some (m, r1 ++ u') := by
      rw [decimal?_fence hu', hm]
      rfl
    have hgroups : (settingFor flags labels).groups < m := Nat.lt_of_le_of_lt hwithin.groups hlt
    rw [hsame]
    exact .octal h1 h9 hdecimal' hgroups (by rw [hwithin.strict, hlenient]) hoctal'
  | character hdigit hk hset hvalue =>
    subst hrest
    rename_i c t value
    obtain ⟨y, rfl, rfl⟩ : ∃ y, x = c :: y ∧ t = y ++ u := by
      rw [← htext] at hvalue
      have hx := ne_nil_of_characterEscape (.inr (.inr hu)) hvalue
      obtain ⟨d, y, rfl⟩ := List.exists_cons_of_ne_nil hx
      obtain ⟨rfl, htail⟩ := List.cons.inj htext
      exact ⟨y, rfl, htail.symm⟩
    have hvalue' : characterEscape (settingFor flags labels) false (c :: y ++ u') =
        .ok (value, r ++ u') :=
      characterEscape_fence hu' hwithin.narrows (List.cons_ne_nil _ _) hvalue
    rw [hsame]
    have hset' := shorthand?_none_joined hwithin.narrows (y ++ u') hset
    refine .character hdigit (fun hc => ?_) hset' hvalue'
    obtain ⟨hstrict, hnamed⟩ := Bool.or_eq_false_iff.1 (hk hc)
    rw [hwithin.strict, hstrict, hwithin.unnamed hnamed]
    rfl

theorem Leaf.fence {repeats : Bool} {depth : Nat} (hu : Fence u) (hu' : Fence u')
    (hn : Sound labels n)
    (h : Leaf setting (Class.nested setting depth) (x ++ u) n repeats (r ++ u)) :
    Leaf (settingFor flags labels) (Class.nested (settingFor flags labels) depth) (x ++ u') n repeats
      (r ++ u') := by
  generalize htext : x ++ u = text at h
  generalize hrest : r ++ u = rest at h
  cases h with
  | edge e =>
    subst hrest
    rw [append_swap htext u']
    exact .edge e _
  | any =>
    subst hrest
    rw [append_swap (w := ['.']) htext u']
    exact .any _
  | charClass hread =>
    subst hrest
    have hread' : ∃ w, x ++ u = '[' :: w ++ (r ++ u) ∧
        (if (settingFor flags labels).flags.unicodeSets then
            Class.nested (settingFor flags labels) depth (w ++ (r ++ u'))
          else Class.listed (settingFor flags labels) (w ++ (r ++ u'))) = .ok (n, r ++ u') := by
      rw [hwithin.flags]
      split at hread
      · rename_i hsets
        obtain ⟨w, rfl, hnew⟩ := Class.nested_agrees hwithin.narrows (Nat.le_refl depth) hread
        exact ⟨w, htext, by rw [if_pos hsets, hnew]⟩
      · rename_i hsets
        obtain ⟨w, rfl, hnew⟩ := Class.listed_agrees hwithin.narrows hread
        exact ⟨w, htext, by rw [if_neg hsets, hnew]⟩
    obtain ⟨w, htext', hread'⟩ := hread'
    rw [append_swap htext' u']
    exact .charClass hread'
  | escape hb hB hread =>
    subst hrest
    obtain ⟨y, rfl, rfl⟩ := hu.exists_cons (by decide) htext
    have hhead {c : Char} (hc : c ∉ [']', '|', '(', ')']) (h : (y ++ u).head? ≠ some c) :
        (y ++ u').head? ≠ some c := by
      cases y with
      | nil => exact fun hhead => hc (hu' c hhead)
      | cons d y => exact h
    exact .escape (hhead (by decide) hb) (hhead (by decide) hB)
      (escaped_iff.2 (Escape.fence hwithin hu hu' hn (escaped_iff.1 hread)))
  | plain hplain =>
    subst hrest
    rename_i c
    rw [append_swap (w := [c]) htext u']
    refine .plain ⟨hplain.unmarked, ?_, fun hstrict => hplain.bracket ?_⟩
    · have hrepeated := hplain.unrepeated
      rw [← List.cons_append, atQuantifier_fence hu] at hrepeated
      show atQuantifier (c :: r ++ u') = false
      rw [atQuantifier_fence hu', hrepeated]
    · rw [← hwithin.strict, hstrict]

theorem Ends.fence {element : Node} {repeats : Bool} (hu : Fence u) (hu' : Fence u')
    (h : Ends setting element repeats (x ++ u) n (r ++ u)) :
    Ends (settingFor flags labels) element repeats (x ++ u') n (r ++ u') := by
  generalize htext : x ++ u = text at h
  generalize hrest : r ++ u = rest at h
  cases h with
  | repeatable hread =>
    subst htext
    obtain rfl := List.append_cancel_right hrest
    exact .repeatable (quantifier?_fence hu' hwithin.strict hread)
  | unrepeatable hquantifier =>
    subst htext
    obtain rfl := List.append_cancel_right hrest
    rw [atQuantifier_fence hu] at hquantifier
    exact .unrepeatable (by rw [atQuantifier_fence hu', hquantifier])
  | repeated hread =>
    subst htext hrest
    rw [textBefore_alone, ← textBefore_alone x r u']
    exact .repeated (quantifier?_fence hu' hwithin.strict hread)

end

/-! ## Progress -/

/-- Two readings have counted the same groups, unless all the `total` groups of the first one are
behind it. -/
def Level (total : Nat) (s t : Progress) : Prop :=
  total ≤ s.groups ∨ t.groups = s.groups ∧ t.names = s.names

namespace Level

variable {s s' t : Progress} {o : Opening} {r r' : List Char}

/-- Both readings enter a group, unless the first one has no group left to open. -/
theorem enter (h : Level total s t) (hroom : (o.enter s r).groups ≤ total) :
    o.node t.groups = o.node s.groups ∧ Level total (o.enter s r) (o.enter t r') := by
  cases o with
  | plain => exact ⟨rfl, h⟩
  | look direction negate => exact ⟨rfl, h⟩
  | capture name =>
    have hroom : s.groups + 1 ≤ total := hroom
    obtain ⟨hgroups, hnames⟩ := h.resolve_left (by omega)
    refine ⟨by simp only [Opening.node, hgroups], .inr ⟨?_, ?_⟩⟩
    · simp only [Opening.enter, Progress.openGroup, hgroups]
    · simp only [Opening.enter, Progress.openGroup, hnames]

theorem allowed (h : Level total s t) (hroom : (o.enter s r).groups ≤ total)
    (hallowed : o.Allowed s r) (hmark : r'.head? ≠ some '?') : o.Allowed t r' := by
  cases o with
  | plain | look _ _ => trivial
  | capture name =>
    cases name with
    | none => exact hmark
    | some name =>
      have hroom : s.groups + 1 ≤ total := hroom
      obtain ⟨-, hnames⟩ := h.resolve_left (by omega)
      exact ⟨hallowed.1, by rw [hnames]; exact hallowed.2⟩

/-- Where no group is opened, the readings stay level. -/
theorem of_opens (h : Level total s t) (hopens : s.Opens [] s') : Level total s' t := by
  have hgroups : s'.groups = s.groups := hopens.count
  have hnames : s'.names = s.names := hopens.names
  rwa [Level, hgroups, hnames]

end Level

/-- Two readings stand before the same text up to the fences `u` and `u'`. -/
structure Abreast (total : Nat) (u u' : List Char) (s t : Progress) : Prop where
  text : ∃ x, s.rest = x ++ u ∧ t.rest = x ++ u'
  level : Level total s t

namespace Abreast

variable {s t : Progress} {x : List Char}

theorem next (h : Abreast total u u' s t) (x : List Char) :
    Abreast total u u' (s.next (x ++ u)) (t.next (x ++ u')) :=
  ⟨⟨x, rfl, rfl⟩, h.level⟩

/-- Before the same text everything is a fence. -/
theorem of_rest_eq (hrest : t.rest = s.rest) (hlevel : Level total s t) :
    Abreast total [] [] s t :=
  ⟨⟨s.rest, (List.append_nil _).symm, by rw [hrest, List.append_nil]⟩, hlevel⟩

theorem rest_eq (h : Abreast total [] [] s t) : t.rest = s.rest := by
  obtain ⟨x, hs, ht⟩ := h.text
  rw [hs, ht]

/-- What the first reading has before its fence, the other one has before its own. -/
theorem rest_of_append (h : Abreast total u u' s t) (hs : s.rest = x ++ u) : t.rest = x ++ u' := by
  obtain ⟨y, hs', ht⟩ := h.text
  rw [ht, List.append_cancel_right (hs'.symm.trans hs)]

theorem atEnd (h : Abreast total u u' s t) (hswap : Swap u u') (hend : AtEnd s.rest) :
    AtEnd t.rest := by
  obtain ⟨x, hs, ht⟩ := h.text
  rw [hs] at hend
  rw [ht]
  by_cases hx : x = []
  · subst hx
    exact hswap.atEnd hend
  · exact hend.of_append.append hx

/-- Before the fence nothing ends for one reading alone. -/
theorem not_atEnd (h : Abreast total u u' s t) (hlt : u.length < s.rest.length)
    (hend : ¬ AtEnd s.rest) : ¬ AtEnd t.rest := by
  obtain ⟨x, hs, ht⟩ := h.text
  rw [ht]
  intro hend'
  refine hend ?_
  rw [hs]
  refine hend'.of_append.append ?_
  rintro rfl
  rw [hs] at hlt
  exact absurd hlt (Nat.lt_irrefl _)

theorem not_bar (h : Abreast total u u' s t) (hswap : Swap u u') (hbar : ∀ r, s.rest ≠ '|' :: r)
    (r : List Char) : t.rest ≠ '|' :: r := by
  obtain ⟨x, hs, ht⟩ := h.text
  rw [hs] at hbar
  rw [ht]
  cases x with
  | nil => exact hswap.bar hbar r
  | cons c x =>
    intro htext
    obtain ⟨rfl, -⟩ := List.cons.inj htext
    exact hbar (x ++ u) rfl

end Abreast

/-! ## Readers -/

/-- No question mark starts a term. -/
theorem head?_ne_of_term {depth : Nat} {s s' : Progress} {n : Node}
    (h : termAt setting depth s = .ok (n, s')) : s.rest.head? ≠ some '?' := by
  obtain ⟨element, repeats, s1, rest, hread, -, -⟩ := term_iff.1 h
  obtain ⟨rest, hleaf, -⟩ | ⟨o, r, ns, s2, hencloses, -, -⟩ := unquantified_iff.1 hread
  · exact hleaf.unrepeated.head_ne
  · obtain ⟨tail, htail⟩ := o.exists_text_cons
    rw [hencloses.opens, htail]
    simp

theorem head?_ne_of_bars {depth : Nat} {s s' : Progress} {ns : List Node}
    (h : Bars (termAt setting depth) s ns s') : s.rest.head? ≠ some '?' := by
  obtain ⟨es, s1, hrow⟩ : ∃ es s1, Row (termAt setting depth) s es s1 := by
    cases h with
    | last hrow _ | more hrow _ _ => exact ⟨_, _, hrow⟩
  cases hrow with
  | stop hend => exact (fence_of_atEnd hend).head?_ne (by decide)
  | step _ hfirst _ => exact head?_ne_of_term hfirst

theorem head?_ne_of_disjunction {depth : Nat} {s s' : Progress} {ns : List Node}
    (h : disjunction setting depth s = .ok (ns, s')) : s.rest.head? ≠ some '?' := by
  cases depth with
  | zero => cases h
  | succ depth => exact head?_ne_of_bars (disjunction_iff.1 h)

/-- What `reader` reads up to a fence, `reader'` reads abreast of it. -/
def KeepsUp {α : Type} (total : Nat) (u u' : List Char) (q : α → Prop)
    (reader reader' : Progress → Except Fault (α × Progress)) : Prop :=
  ∀ {s s' t : Progress} {a : α}, reader s = .ok (a, s') → q a → s'.groups ≤ total → u <:+ s'.rest →
    Abreast total u u' s t → ∃ t', reader' t = .ok (a, t') ∧ Abreast total u u' s' t'

/-- A term takes something of the text. -/
theorem lt_of_term {depth : Nat} {s s' : Progress} {n : Node}
    (h : termAt setting depth s = .ok (n, s')) (hfence : u <:+ s'.rest) :
    u.length < s.rest.length := by
  obtain ⟨c, tail, hrest, htail⟩ := termAt_tail h
  have hle := (hfence.trans htail).length_le
  rw [hrest, List.length_cons]
  omega

theorem groups_le_of_disjunction {depth : Nat} {s s' : Progress} {ns : List Node}
    (h : disjunction setting depth s = .ok (ns, s')) : s.groups ≤ s'.groups := by
  rw [((kept_opens setting).disjunction h).count]
  exact Nat.le_add_right _ _

theorem groups_le_of_row {depth : Nat} {s s' : Progress} {ns : List Node}
    (h : Row (termAt setting depth) s ns s') : s.groups ≤ s'.groups := by
  have hopens := (kept_opens setting).row
    (fun hread => (kept_opens setting).term (kept_opens setting).disjunction hread) h
  rw [hopens.count]
  exact Nat.le_add_right _ _


theorem groups_le_of_bars {depth : Nat} {s s' : Progress} {ns : List Node}
    (h : Bars (termAt setting depth) s ns s') : s.groups ≤ s'.groups :=
  groups_le_of_disjunction (disjunction_iff.2 h)

section
variable (hwithin : (settingFor flags labels).Within setting) (hswap : Swap u u') {depth : Nat}
  {s s' t : Progress} {n : Node} {ns : List Node}

include hwithin hswap

theorem keepsUp_unquantified
    (hinner : KeepsUp total u u' (fun ns => ∀ n ∈ ns, n.Throughout (Sound labels))
      (disjunction setting depth) (disjunction (settingFor flags labels) depth)) :
    KeepsUp total u u' (fun a : Node × Bool => a.1.Throughout (Sound labels))
      (unquantified setting (disjunction setting depth) (Class.nested setting depth))
      (unquantified (settingFor flags labels) (disjunction (settingFor flags labels) depth)
        (Class.nested (settingFor flags labels) depth)) := by
  rintro s s' t ⟨n, repeats⟩ h hn hroom hfence habreast
  obtain ⟨rest, hleaf, rfl⟩ | ⟨o, r, ns, s1, hencloses, rfl, rfl⟩ := unquantified_iff.1 h
  · obtain ⟨r, rfl⟩ : ∃ r, rest = r ++ u := ⟨_, hfence.choose_spec.symm⟩
    obtain ⟨x, hs, ht⟩ := habreast.text
    rw [hs] at hleaf
    have hleaf' := hleaf.fence hwithin hswap.fence hswap.fence' (hn n .self)
    rw [← ht] at hleaf'
    exact ⟨_, unquantified_leaf hleaf', habreast.next r⟩
  · have hinside := hencloses.inside
    have hprogress := hencloses.progress
    obtain ⟨r', hrest⟩ : ∃ r', s'.rest = r' ++ u := ⟨_, hfence.choose_spec.symm⟩
    have hcloses := hencloses.closes
    rw [hrest] at hcloses hprogress
    obtain ⟨x, rfl⟩ : ∃ x, r = x ++ u := by
      have hsource := (disjunction_source depth hinside).2
      rw [o.rest_enter, hcloses] at hsource
      exact ⟨_, by rw [hsource, ← List.cons_append, List.append_assoc]⟩
    have hgroups : s'.groups = s1.groups := by rw [hprogress]; rfl
    have hroom' : (o.enter s (x ++ u)).groups ≤ total :=
      (groups_le_of_disjunction hinside).trans (hgroups ▸ hroom)
    obtain ⟨hnode, hlevel⟩ : o.node t.groups = o.node s.groups ∧
        Level total (o.enter s (x ++ u)) (o.enter t (x ++ u')) := habreast.level.enter hroom'
    have hopens' : t.rest = o.text ++ (x ++ u') := by
      rw [← List.append_assoc]
      exact habreast.rest_of_append (by rw [hencloses.opens, List.append_assoc])
    have hns : ∀ n ∈ ns, n.Throughout (Sound labels) := by
      have hthroughout := (throughout_iff.1 hn).2
      rwa [o.children_node] at hthroughout
    have hfence' : u <:+ s1.rest := by
      rw [hcloses]
      exact ⟨')' :: r', rfl⟩
    obtain ⟨t1, hinside', habreast'⟩ := hinner hinside hns (hgroups ▸ hroom) hfence'
      ⟨⟨x, o.rest_enter s _, o.rest_enter t _⟩, hlevel⟩
    have hmark := head?_ne_of_disjunction hinside'
    rw [o.rest_enter] at hmark
    have hallowed' := habreast.level.allowed hroom' hencloses.allowed hmark
    have hcloses' : t1.rest = ')' :: (r' ++ u') := habreast'.rest_of_append (x := ')' :: r') hcloses
    have hrepeats : o.repeats (settingFor flags labels) = o.repeats setting := by
      cases o with
      | look direction negate => simp only [Opening.repeats, hwithin.strict]
      | _ => rfl
    refine ⟨t1.next (r' ++ u'), unquantified_iff.2 (.inr ⟨o, x ++ u', ns, t1,
      ⟨hopens', hallowed', hinside', hcloses', rfl⟩, ?_, hrepeats.symm⟩), ?_⟩
    · rw [hnode]
    · rw [hprogress]
      exact habreast'.next r'

theorem keepsUp_term
    (hinner : KeepsUp total u u' (fun ns => ∀ n ∈ ns, n.Throughout (Sound labels))
      (disjunction setting depth) (disjunction (settingFor flags labels) depth)) :
    KeepsUp total u u' (Throughout (Sound labels)) (termAt setting depth)
      (termAt (settingFor flags labels) depth) := by
  intro s s' t n h hn hroom hfence habreast
  obtain ⟨element, repeats, s1, rest, hread, hends, rfl⟩ := term_iff.1 h
  have helement : element.Throughout (Sound labels) := by
    generalize htext : s1.rest = text at hends
    cases hends with
    | repeatable _ | unrepeatable _ => exact hn
    | repeated _ => exact (throughout_iff.1 hn).2 element (List.mem_singleton_self _)
  obtain ⟨r, rfl⟩ : ∃ r, rest = r ++ u := ⟨_, hfence.choose_spec.symm⟩
  have hfence' : u <:+ s1.rest := hfence.trans hends.passes.suffix
  obtain ⟨t1, hread', habreast'⟩ :=
    keepsUp_unquantified hwithin hswap hinner hread helement hroom hfence' habreast
  obtain ⟨x, hs, ht⟩ := habreast'.text
  rw [hs] at hends
  have hends' := hends.fence hwithin hswap.fence hswap.fence'
  rw [← ht] at hends'
  exact ⟨_, term_iff.2 ⟨element, repeats, t1, _, hread', hends', rfl⟩, habreast'.next r⟩

end

section
variable (hswap : Swap u u') {setting' : Setting} {depth : Nat} {s s' t : Progress} {ns : List Node}
  (hterm : KeepsUp total u u' (Throughout (Sound labels)) (termAt setting depth)
    (termAt setting' depth))

include hswap hterm

/-- Elements in a row are read abreast. -/
theorem Row.keepsUp (h : Row (termAt setting depth) s ns s')
    (hns : ∀ n ∈ ns, n.Throughout (Sound labels)) (hroom : s'.groups ≤ total)
    (hfence : u <:+ s'.rest) (habreast : Abreast total u u' s t) :
    ∃ t', Row (termAt setting' depth) t ns t' ∧ Abreast total u u' s' t' := by
  induction h generalizing t with
  | stop hend => exact ⟨t, .stop (habreast.atEnd hswap hend), habreast⟩
  | step hend hfirst hrow ih =>
    rename_i s s1 s' n ns
    rw [List.forall_mem_cons] at hns
    have hsuffix := hfence.trans (hrow.suffix termAt_tail)
    obtain ⟨t1, hfirst', habreast'⟩ := hterm hfirst hns.1
      ((groups_le_of_row hrow).trans hroom) hsuffix habreast
    obtain ⟨t', hrow', hdone⟩ := ih hns.2 hroom hfence habreast'
    exact ⟨t', .step (habreast.not_atEnd (lt_of_term hfirst hsuffix) hend) hfirst' hrow', hdone⟩

/-- Alternatives are read abreast. -/
theorem Bars.keepsUp (h : Bars (termAt setting depth) s ns s')
    (hns : ∀ n ∈ ns, n.Throughout (Sound labels)) (hroom : s'.groups ≤ total)
    (hfence : u <:+ s'.rest) (habreast : Abreast total u u' s t) :
    ∃ t', Bars (termAt setting' depth) t ns t' ∧ Abreast total u u' s' t' := by
  induction h generalizing t with
  | last hrow hbar =>
    rw [List.forall_mem_singleton] at hns
    obtain ⟨t', hrow', hdone⟩ :=
      hrow.keepsUp hswap hterm (throughout_iff.1 hns).2 hroom hfence habreast
    exact ⟨t', .last hrow' (hdone.not_bar hswap hbar), hdone⟩
  | more hrow hrest hmore ih =>
    rename_i s s1 s' ns ms r
    rw [List.forall_mem_cons] at hns
    obtain ⟨y, rfl⟩ := exists_of_suffix (r := []) (hfence.trans (hmore.suffix termAt_tail))
    have hfence' : u <:+ s1.rest := by
      rw [hrest]
      exact ⟨'|' :: y, rfl⟩
    obtain ⟨t1, hrow', habreast'⟩ := hrow.keepsUp hswap hterm (throughout_iff.1 hns.1).2
      ((groups_le_of_bars hmore).trans hroom) hfence' habreast
    have hrest' : t1.rest = '|' :: (y ++ u') := habreast'.rest_of_append (x := '|' :: y) hrest
    obtain ⟨t', hmore', hdone⟩ := ih hns.2 hroom hfence (habreast'.next y)
    exact ⟨t', .more hrow' hrest' hmore', hdone⟩

end

section
variable (hwithin : (settingFor flags labels).Within setting) (hswap : Swap u u')

include hwithin hswap

/-- Two readings of alternatives keep up with each other up to a fence. -/
theorem keepsUp_disjunction (depth : Nat) :
    KeepsUp total u u' (fun ns => ∀ n ∈ ns, n.Throughout (Sound labels))
      (disjunction setting depth) (disjunction (settingFor flags labels) depth) := by
  induction depth with
  | zero =>
    intro s s' t ns h
    cases h
  | succ depth ih =>
    intro s s' t ns h hns hroom hfence habreast
    obtain ⟨t', hbars, hdone⟩ := (disjunction_iff.1 h).keepsUp hswap
      (keepsUp_term hwithin hswap ih) hns hroom hfence habreast
    exact ⟨t', disjunction_iff.2 hbars, hdone⟩

theorem keepsUp_termAt (depth : Nat) :
    KeepsUp total u u' (Throughout (Sound labels)) (termAt setting depth)
      (termAt (settingFor flags labels) depth) :=
  keepsUp_term hwithin hswap (keepsUp_disjunction hwithin hswap depth)

end

end Pattern

end RegexAudit
