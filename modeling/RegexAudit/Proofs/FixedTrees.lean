import RegexAudit.Proofs.Fixes
import RegexAudit.Proofs.Rebuilt

/-!
# Trees of fixed sources

Two fixes leave everything as it is but for one node. Without `v`, what they make of a source is read as
the tree with that node changed:

    r.root = rebuild up parent
    Regex.parse fixed flags = .ok r'  with  r'.root = rebuild up (parent without the alternative)

for a duplicate alternative that is taken out (`parse_withoutAlternative`), and

    r.root = rebuild trail (a capturing group)
    Regex.parse fixed flags = .ok r'  with  r'.root = rebuild trail (the same as a plain group)

for the last group, if no reference is to it (`parse_uncaptured`). References lead to the groups that
they led to.
-/

namespace RegexAudit

open Node

namespace Pattern

variable {setting : Setting} {flags : Flags} {labels : List (Option (List Char))} {total : Nat}
  {n c : Node} {ns : List Node}

/-! ## Alternatives that are taken out -/

section
variable (hwithin : (settingFor flags labels).Within setting) {depth : Nat} {s s1 s2 t : Progress}

include hwithin

/-- What comes after a row may come after the row before it, if the row opens no group. -/
theorem Row.skip {es fs : List Node} {r : List Char} (hrow : Row (termAt setting depth) s es s1)
    (hrest : s1.rest = '|' :: r) (hnext : Row (termAt setting depth) (s1.next r) fs s2)
    (hnone : fs.flatMap captures = []) (hes : ∀ n ∈ es, n.Throughout (Sound labels))
    (hroom : s1.groups ≤ total) (ht : t.rest = textAll [] es ++ s2.rest) (hlevel : Level total s t) :
    ∃ t1, Row (termAt (settingFor flags labels) depth) t es t1 ∧ Abreast total [] [] s2 t1 := by
  have hswap : Swap ('|' :: r) s2.rest := .atBar r hnext.atEnd
  have habreast : Abreast total ('|' :: r) s2.rest s t :=
    ⟨⟨textAll [] es, by rw [hrow.source, hrest], ht⟩, hlevel⟩
  have hfence : '|' :: r <:+ s1.rest := hrest ▸ List.suffix_rfl
  obtain ⟨t1, hrow', hdone⟩ := hrow.keepsUp hswap (keepsUp_termAt hwithin hswap depth) hes hroom
    hfence habreast
  have hopens := (kept_opens setting).row
    (fun hread => (kept_opens setting).term (kept_opens setting).disjunction hread) hnext
  rw [hnone] at hopens
  have hlevel : Level total (s1.next r) t1 := hdone.level
  exact ⟨t1, hrow', .of_rest_eq (hdone.rest_of_append (x := []) hrest) (hlevel.of_opens hopens)⟩

/-- Up to the alternative that is taken out the readings are abreast before bars, and after it they
are before the same text. -/
theorem exchangeAll_eraseIdx {slot : Nat} (hslot : ns[slot + 1]? = some c) (hnone : c.captures = [])
    (hns : ∀ n ∈ ns, n.Throughout (Sound labels)) :
    ExchangeAll total setting (settingFor flags labels) ns (ns.eraseIdx (slot + 1)) := by
  intro depth s s' t h hroom ht hlevel
  induction h generalizing slot t with
  | last _ _ => cases hslot
  | more hrow hrest hmore ih =>
    rename_i s s1 s' es ms r
    rw [List.forall_mem_cons] at hns
    have hes := (throughout_iff.1 hns.1).2
    have hroom1 : s1.groups ≤ total := (groups_le_of_bars hmore).trans hroom
    replace hslot : ms[slot]? = some c := hslot
    cases slot with
    | zero =>
      cases hmore with
      | last hnext hbar =>
        cases hslot
        rw [captures_of_capture?_eq_none rfl] at hnone
        obtain ⟨t1, hrow', hdone⟩ := hrow.skip hwithin hrest hnext hnone hes hroom1 ht hlevel
        exact ⟨t1, .last hrow' (hdone.not_bar .nil hbar), hdone⟩
      | @more _ s2 _ fs ms r' hnext hrest' hmore =>
        cases hslot
        rw [captures_of_capture?_eq_none rfl] at hnone
        rw [List.forall_mem_cons] at hns
        have hms : ms ≠ [] := by cases hmore <;> simp
        have ht : t.rest = textAll [] es ++ s2.rest := by
          rw [hrest', show r' = textAll ['|'] ms ++ s'.rest from hmore.source]
          rw [List.eraseIdx_cons_succ, List.eraseIdx_cons_zero, textAll_cons _ _ hms, text] at ht
          simpa using ht
        obtain ⟨t1, hrow', hdone⟩ := hrow.skip hwithin hrest hnext hnone hes hroom1 ht hlevel
        have habreast : Abreast total [] [] (s2.next r') (t1.next r') := .of_rest_eq rfl hdone.level
        obtain ⟨t', hmore', hdone'⟩ := hmore.keepsUp .nil (keepsUp_termAt hwithin .nil depth)
          hns.2.2 hroom List.nil_suffix habreast
        exact ⟨t', .more hrow' (hdone.rest_eq.trans hrest') hmore', hdone'⟩
    | succ slot =>
      have hms : ms.eraseIdx (slot + 1) ≠ [] := by
        obtain ⟨e, ms, rfl⟩ := List.exists_cons_of_ne_nil
          (List.ne_nil_of_mem (List.mem_of_getElem? hslot))
        exact List.cons_ne_nil _ _
      rw [List.eraseIdx_cons_succ, textAll_cons _ _ hms, List.append_assoc, List.append_assoc] at ht
      have hswap : Swap ('|' :: r) ('|' :: (textAll ['|'] (ms.eraseIdx (slot + 1)) ++ s'.rest)) :=
        .atBar r (.inr ⟨_, .inl rfl⟩)
      have habreast : Abreast total _ _ s t := ⟨⟨textAll [] es, by rw [hrow.source, hrest], ht⟩, hlevel⟩
      have hfence : '|' :: r <:+ s1.rest := hrest ▸ List.suffix_rfl
      obtain ⟨t1, hrow', hdone⟩ := hrow.keepsUp hswap (keepsUp_termAt hwithin hswap depth) hes hroom1
        hfence habreast
      have ht1 := hdone.rest_of_append (x := []) hrest
      obtain ⟨t', hmore', hdone'⟩ := ih hslot hns.2 hroom (t := t1.next _) rfl hdone.level
      exact ⟨t', .more hrow' ht1 hmore', hdone'⟩

/-! ## Groups that are made plain -/

/-- In the place of the last group a plain one is read: no other group is opened inside or after it. -/
theorem exchange_plain {name : Option (List Char)}
    (hns : ∀ n ∈ ns, n.Throughout (Sound labels)) :
    Exchange total setting (settingFor flags labels) (choice (.capture total name) ns)
      (choice .plain ns) := by
  have helement (repeats : Bool) : ExchangeAs total setting (settingFor flags labels)
      (.element repeats) (choice (.capture total name) ns) (choice .plain ns) := by
    intro depth s s' t hread hroom ht hlevel
    obtain ⟨hnode, rfl, rest, s1, hencloses⟩ := encloses_of_capture hread
    have hinside := hencloses.inside
    have htotal : total ≤ ((Opening.capture name).enter s rest).groups := by
      obtain ⟨rfl, -⟩ := Frame.capture.inj (Node.choice.inj hnode).1
      exact Nat.le_refl _
    have hrest : rest = textAll ['|'] ns ++ s1.rest := by
      rw [← (disjunction_source depth hinside).2, Opening.rest_enter]
    have hopens : t.rest = Opening.text .plain ++ rest := by
      rw [ht, hrest, hencloses.closes, text]
      simp [Opening.text, Frame.closing]
    have habreast : Abreast total [] [] ((Opening.capture name).enter s rest) (t.next rest) :=
      .of_rest_eq (Opening.rest_enter ..).symm (.inl htotal)
    have hprogress := hencloses.progress
    have hgroups : s'.groups = s1.groups := by
      rw [hprogress]
      rfl
    obtain ⟨t1, hinside', hdone⟩ := keepsUp_disjunction hwithin .nil depth hinside hns
      (hgroups ▸ hroom) List.nil_suffix habreast
    refine ⟨t1.next s'.rest, unquantified_iff.2 (.inr ⟨.plain, rest, ns, t1,
      ⟨hopens, trivial, hinside', hdone.rest_eq.trans hencloses.closes, rfl⟩, rfl, rfl⟩),
      .of_rest_eq rfl ?_⟩
    rw [hprogress]
    exact hdone.level
  intro role
  cases role with
  | element repeats => exact helement repeats
  | term => exact exchangeAs_term hwithin (fun _ _ _ _ hn => by cases hn) helement
  | alternative =>
    rintro depth s s' t ⟨_, hn, -⟩
    cases hn
  | whole =>
    rintro depth s s' t ⟨_, hn, -⟩
    cases hn

end

/-! ## Exchanged trees -/

section
variable {r : Regex} (hparse : Regex.parse r.source r.flags = .ok r)

include hparse

/-- If another tree is read in the place of that of a pattern, its text is a pattern with that tree. -/
theorem parse_of_exchange (hbare : ∀ p ∈ r.walk, p.node.holdsBracket = false) {root : Node}
    (hsound : root.Throughout (Sound root.labels))
    (h : Exchange r.root.labels.length (settingFor r.flags r.root.labels)
      (settingFor r.flags root.labels) r.root root) :
    Regex.parse root.text r.flags = .ok ⟨root.text, r.flags, root⟩ := by
  obtain ⟨ns, s, hread, hrest, -, hr⟩ := Regex.parse_iff.1 hparse
  have hroot : r.root = choice .whole ns := by rw [hr]
  have hgroups := ((kept_opens _).disjunction hread).count
  have hroom : s.groups ≤ r.root.labels.length := by
    rw [hgroups, hroot, labels, List.length_map, captures_of_capture?_eq_none rfl]
    exact Nat.le_of_eq (Nat.zero_add _)
  rw [(sound_of_parse hparse hbare).1] at hread
  have hbars : Bars (termAt (settingFor r.flags r.root.labels) (nestingLimit - 1))
    ⟨r.source, 0, []⟩ ns s := disjunction_iff.1 hread
  have htext : (⟨root.text, 0, []⟩ : Progress).rest = root.text ++ s.rest := by
    rw [hrest, List.append_nil]
  obtain ⟨t, ⟨ms, rfl, hbars'⟩, habreast⟩ :=
    h .whole ⟨ns, hroot, hbars⟩ hroom htext (.inr ⟨rfl, rfl⟩)
  have hlabels : (choice .whole ms).labels = (ms.flatMap captures).map Prod.snd := by
    rw [labels, captures_of_capture?_eq_none rfl]
    rfl
  have hread' := disjunction_iff.2 hbars'
  have hrest' : t.rest = [] := habreast.rest_eq.trans hrest
  have hsetting : settingOf r.flags (choice .whole ms).text =
      settingFor r.flags (choice .whole ms).labels := by
    have hcount := countGroups_of_disjunction hread' hrest' fun n hn m hm =>
      (hsound m (.of_child hn hm)).unbracketed
    simp only [settingOf, settingFor, hlabels] at hcount ⊢
    rw [hcount]
    simp [Function.comp_def]
  have hopens := (kept_opens _).disjunction hread'
  rw [← hsetting] at hread'
  refine Regex.parse_iff.2 ⟨ms, t, hread', hrest', fun name hpart => ?_, rfl⟩
  have hname := (hsound _ hpart).name name rfl
  rw [hlabels, List.mem_map] at hname
  obtain ⟨capture, hcapture, hname⟩ := hname
  rw [hopens.names, List.append_nil, List.mem_reverse]
  exact List.mem_filterMap.2 ⟨capture, hcapture, hname⟩

end

end Pattern

/-! ## Where references lead -/

namespace Regex

theorem isNamedBy_eq_any (n : Node) (ref : GroupRef) : n.isNamedBy ref =
    n.capture?.any fun capture => Frame.isNamedBy (.capture capture.1 capture.2) ref := by
  cases n with
  | choice frame _ => cases frame <;> cases ref <;> rfl
  | _ => rfl

/-- A reference leads to the first group that it names. -/
theorem resolve?_eq {r : Regex} (h : r.root.Layered) (ref : GroupRef) : r.resolve? ref =
    (r.root.captures.find? fun capture => Frame.isNamedBy (.capture capture.1 capture.2) ref).map
      Prod.fst := by
  rw [resolve?, group?_walk h, captures, nodes, List.filterMap_map, List.find?_filterMap]
  simp only [isNamedBy_eq_any, Function.comp_apply]
  cases r.root.walk.find? _ with
  | none => rfl
  | some q =>
    obtain ⟨n, position, start, trail⟩ := q
    cases n with
    | choice frame _ => cases frame <;> rfl
    | _ => rfl

/-- The references of the first pattern lead to groups, and in the second one to those of the same
numbers. -/
def RefersAs (r r' : Regex) : Prop := ∀ ref, r.root.HasPart (.backreference ref) →
  ∃ index, r.resolve? ref = some index ∧ r'.resolve? ref = some index

/-- If another pattern has the groups of a pattern and perhaps some after them, references lead to the
same groups. -/
theorem refersAs_of_captures {r r' : Regex} (hparse : Regex.parse r.source r.flags = .ok r)
    (hsets : r.flags.unicodeSets = false) (hlayered : r'.root.Layered)
    {later : List (Nat × Option (List Char))}
    (hcaptures : r'.root.captures = r.root.captures ++ later) : r.RefersAs r' := by
  intro ref hpart
  obtain ⟨q, hq, hnode⟩ := mem_walk_of_hasPart hpart
  obtain ⟨g, hg⟩ := (parse_numbered hparse).2.2 (Pattern.holdsBracket_of_parse hparse hsets) q hq ref
    hnode
  obtain ⟨index, name, ns, hgroup, -⟩ := isNamedBy_iff.1 hg.named
  have hfound : r.resolve? ref = some index := by rw [resolve?, hg.found, hgroup]
  refine ⟨index, hfound, ?_⟩
  rw [resolve?_eq (parse_source hparse).2.2.1.layered] at hfound
  obtain ⟨capture, hcapture, rfl⟩ := Option.map_eq_some_iff.1 hfound
  rw [resolve?_eq hlayered, hcaptures, List.find?_append, hcapture]
  rfl

theorem numbers_of_parse {source : List Char} {flags : Flags} {r : Regex}
    (h : Regex.parse source flags = .ok r) :
    r.root.captures.map Prod.fst = List.range' 1 r.root.captures.length := by
  obtain ⟨ns, s, hread, -, -, rfl⟩ := parse_iff.1 h
  rw [captures_of_capture?_eq_none rfl]
  exact ((Pattern.kept_opens _).disjunction hread).numbers

/-- Behind the group that has their number there is no group. -/
theorem eq_nil_of_numbers {α : Type} {before later : List (Nat × α)} {last : Nat × α}
    (h : (before ++ last :: later).map Prod.fst = List.range' 1 last.1) : later = [] := by
  have hlength : before.length + (later.length + 1) = last.1 := by
    simpa using congrArg List.length h
  have hlast : some last.1 = (List.range' 1 last.1)[before.length]? := by
    simpa using congrArg (fun xs => xs[before.length]?) h
  obtain ⟨hlt, hlast⟩ := List.getElem?_eq_some_iff.1 hlast.symm
  rw [List.getElem_range'] at hlast
  exact List.length_eq_zero_iff.1 (by omega)

/-! ## Fixed patterns -/

/-- The second pattern is the first one without the alternative at a place. -/
structure LosesAlternative (r r' : Regex) (p : Place) : Prop where
  /-- The alternative is deleted from its parent, and the rest of the tree is the same. -/
  root : ∃ s up ns, p.trail = s :: up ∧ r.root = Node.rebuild up s.parent ∧
    s.parent.alternatives? = some ns ∧ ns[s.slot]? = some p.node ∧
      r'.root = Node.rebuild up (s.parent.withAlternatives (ns.eraseIdx s.slot))
  /-- All groups keep their numbers and names. -/
  groups : r'.root.captures = r.root.captures
  references : r'.RefersAs r

/-- The second pattern is the first one with a plain group for the capturing one at a place. -/
structure LosesCapture (r r' : Regex) (p : Place) : Prop where
  /-- The group has become a plain one, and the rest of the tree is the same. -/
  root : ∃ index name ns, p.node = choice (.capture index name) ns ∧
    r.root = Node.rebuild p.trail p.node ∧ r'.root = Node.rebuild p.trail (choice .plain ns)
  /-- It was the last group, and all others keep their numbers and names. -/
  groups : ∃ capture, p.node.capture? = some capture ∧
    r.root.captures = r'.root.captures ++ [capture]
  references : r'.RefersAs r

end Regex

namespace Pattern

open Regex

variable {labels : List (Option (List Char))} {n c : Node} {ns : List Node}

theorem sound_of_not_classLevel (n : Node) (hlevel : n.isClassLevel = false)
    (href : ∀ ref, n ≠ .backreference ref) : Sound labels n :=
  sound_of_not_reference href (holdsBracket_of_not_classLevel hlevel)

section
variable {r : Regex} {p : Place} (hparse : Regex.parse r.source r.flags = .ok r)
  (hsets : r.flags.unicodeSets = false)

include hparse hsets

/-- An alternative without groups that is not the first one is taken out of a pattern. -/
theorem parse_eraseIdx {up : List RegexAudit.Step} {parent root : Node} {slot : Nat}
    (hup : r.root.Leads up parent) (hns : parent.alternatives? = some ns)
    (hslot : ns[slot + 1]? = some c) (hnone : c.captures = [])
    (hroot : root = Node.rebuild up (parent.withAlternatives (ns.eraseIdx (slot + 1)))) :
    root.captures = r.root.captures ∧
      Regex.parse root.text r.flags = .ok ⟨root.text, r.flags, root⟩ := by
  have hbare := holdsBracket_of_parse hparse hsets
  have hsound := (sound_of_parse hparse hbare).2
  have hpattern := (Regex.parse_source hparse).2.2.1
  obtain ⟨hlevel, hchildren, -, -⟩ := eq_of_alternatives hns
  have hcaptures : root.captures = r.root.captures := by
    obtain ⟨before, after, hcaptures, hrebuilt⟩ := captures_rebuild hpattern.layered hup hlevel
    rw [hroot, hrebuilt, captures_eraseIdx hns hslot hnone, hcaptures]
  have hlabels : root.labels = r.root.labels := congrArg (List.map Prod.snd) hcaptures
  have hparts : ∀ m ∈ ns, m.Throughout (Sound r.root.labels) := by
    have hparent := (throughout_iff.1 (throughout_of_hasPart hsound hup.hasPart)).2
    rwa [hchildren] at hparent
  have hforks (hne : up ≠ []) :
      Forks parent.text (parent.withAlternatives (ns.eraseIdx (slot + 1))).text := by
    refine forks_withAlternatives hns ?_ _
    rintro rfl
    exact hne (hpattern.whole_on_top hup)
  refine ⟨hcaptures, parse_of_exchange hparse hbare ?_ ?_⟩
  · rw [hlabels, hroot]
    refine throughout_rebuild sound_of_not_classLevel hsound hpattern.layered hup hlevel
      (throughout_withAlternatives sound_of_not_classLevel hns fun m hm => hparts m ?_)
    exact List.mem_of_mem_eraseIdx hm
  · rw [hlabels, hroot]
    exact (exchange_withAlternatives (.refl _) hns (exchangeAll_eraseIdx (.refl _) hslot hnone
      hparts)).rebuild (.refl _) hsound hpattern.layered hup hlevel hforks

/-- The last group of a pattern is made plain, if no reference is to it. -/
theorem parse_plain {name : Option (List Char)} {root : Node} {trail : List RegexAudit.Step}
    (hleads : r.root.Leads trail (choice (.capture r.groups.length name) ns))
    (hunused : r.groups.length ∉ UnusedCapture.referenced r)
    (hroot : root = Node.rebuild trail (choice .plain ns)) :
    r.root.captures = root.captures ++ [(r.groups.length, name)] ∧
      Regex.parse root.text r.flags = .ok ⟨root.text, r.flags, root⟩ := by
  have hbare := holdsBracket_of_parse hparse hsets
  have hpattern := (Regex.parse_source hparse).2.2.1
  have hcaptures : r.root.captures = root.captures ++ [(r.groups.length, name)] := by
    obtain ⟨before, after, hcaptures, hrebuilt⟩ := captures_rebuild hpattern.layered hleads rfl
    have hgroup : (choice (.capture r.groups.length name) ns).captures =
        (r.groups.length, name) :: ns.flatMap captures := captures_eq _
    have hplain : (choice .plain ns).captures = ns.flatMap captures := captures_eq _
    have hlength : r.root.captures.length = r.groups.length := by
      rw [← length_labels, labels, List.length_map]
    rw [hgroup, List.append_assoc, List.cons_append] at hcaptures
    have hnumbers := numbers_of_parse hparse
    rw [hlength, hcaptures] at hnumbers
    have hlast : ns.flatMap captures ++ after = [] := eq_nil_of_numbers hnumbers
    rw [hroot, hrebuilt, hplain, List.append_assoc before, hlast, List.append_nil, hcaptures, hlast]
  have hlabels : r.root.labels = root.labels ++ [name] := by
    rw [labels, labels, hcaptures, List.map_append]
    rfl
  have hwithin : (settingFor r.flags root.labels).Within (settingFor r.flags r.root.labels) := by
    refine within_of_sublist ?_
    rw [hlabels]
    exact List.sublist_append_left _ _
  have hsound : r.root.Throughout (Sound root.labels) := by
    intro n hn
    have hspared := (throughout_spares hparse hleads.hasPart hunused n hn).sound hbare hlabels
    rwa [List.append_nil] at hspared
  have hparts : ∀ m ∈ ns, m.Throughout (Sound root.labels) :=
    (throughout_iff.1 (throughout_of_hasPart hsound hleads.hasPart)).2
  have hforks : Forks (choice (.capture r.groups.length name) ns).text (choice .plain ns).text := by
    cases name <;> exact ⟨[], _, _, rfl, rfl⟩
  refine ⟨hcaptures, parse_of_exchange hparse hbare ?_ ?_⟩
  · rw [hroot] at hsound hparts ⊢
    exact throughout_rebuild sound_of_not_classLevel hsound hpattern.layered hleads rfl
      (throughout_of_children sound_of_not_classLevel rfl (fun _ href => by cases href) hparts)
  · rw [length_labels]
    have hexchange : Exchange r.groups.length (settingFor r.flags r.root.labels)
        (settingFor r.flags root.labels) (choice (.capture r.groups.length name) ns)
        (choice .plain ns) := exchange_plain hwithin hparts
    have hrebuilt := hexchange.rebuild hwithin hsound hpattern.layered hleads rfl fun _ => hforks
    rwa [← hroot] at hrebuilt

end

/-! ## The linter -/

/-- A later alternative stands behind a bar. -/
theorem trail_of_earlier {p : Place} (hn : n ∈ DuplicateAlternative.earlier p) : ∃ s up slot ns,
    p.trail = s :: up ∧ s.slot = slot + 1 ∧ s.parent.alternatives? = some ns := by
  unfold DuplicateAlternative.earlier at hn
  split at hn
  · rename_i s up htrail
    have hmem := List.mem_of_mem_take hn
    obtain ⟨ns, hns⟩ : ∃ ns, s.parent.alternatives? = some ns := by
      refine Option.ne_none_iff_exists'.1 fun hnone => ?_
      rw [Node.alternatives, hnone] at hmem
      cases hmem
    obtain ⟨slot, hslot⟩ : ∃ slot, s.slot = slot + 1 := by
      refine Nat.exists_eq_succ_of_ne_zero fun hzero => ?_
      rw [hzero, List.take_zero] at hn
      cases hn
    exact ⟨s, up, slot, ns, htrail, hslot, hns⟩
  · cases hn

theorem stretch_duplicateAlternative [Properties]
    {r : Regex} {subsets : Bool} {p : Place} {finding : Finding}
    (h : DuplicateAlternative.finding? r subsets p = some finding) :
    finding.start = p.start ∧ finding.stop = p.stop := by
  unfold DuplicateAlternative.finding? at h
  simp only at h
  split at h
  · cases h
    exact ⟨rfl, rfl⟩
  · split at h
    · obtain ⟨n, -, rfl⟩ := Option.map_eq_some_iff.1 h
      exact ⟨rfl, rfl⟩
    · cases h

theorem stretch_unusedCapture {r : Regex} {uses : CaptureUses} {last : Nat} {p : Place}
    {finding : Finding} (h : UnusedCapture.finding? r uses last p = some finding) :
    finding.start = p.start ∧ finding.stop = p.stop := by
  unfold UnusedCapture.finding? at h
  split at h
  · split at h
    · cases h
    · cases h
      exact ⟨rfl, rfl⟩
  · cases h

end Pattern

namespace Regex

open Pattern

variable {source : List Char} {flags : Flags} {r : Regex} {captures : Option CaptureUses}
  {finding : Finding} {fix : Fix}

/-- A fix for a duplicate alternative deletes the alternative that is reported, and nothing else:
without `v`, what comes of the source is read as the tree without the alternative. -/
theorem parse_withoutAlternative [Properties] (h : Regex.parse source flags = .ok r)
    (hsets : flags.unicodeSets = false) {subsets : Bool}
    (hfinding : finding ∈ (Rule.duplicateAlternative subsets).check ⟨r, captures⟩)
    (hfix : finding.fix = some fix) :
    ∃ p ∈ r.walk, finding.start = p.start ∧ finding.stop = p.stop ∧ ∃ r',
      fix.result? source = some r'.source ∧ Regex.parse r'.source flags = .ok r' ∧
        r.LosesAlternative r' p := by
  obtain ⟨rfl, rfl, hpattern, htext⟩ := parse_source h
  obtain ⟨p, hp, ⟨subsets, -, hfinding⟩ | ⟨hrule, -⟩ | ⟨_, hrule, -⟩ | ⟨hrule, -⟩⟩ :=
    finding_of_mem_check hfinding hfix
  · obtain ⟨hstart, hstop⟩ := stretch_duplicateAlternative hfinding
    obtain ⟨⟨n, hn, -⟩, hcapture, rfl⟩ := finding_duplicateAlternative hp hfinding hfix
    obtain ⟨s, up, slot, ns, htrail, hslot, hns⟩ := trail_of_earlier hn
    have hleads := leads_of_mem_walk hp
    rw [htrail] at hleads
    obtain ⟨hnode, hup⟩ := hleads
    rw [(eq_of_alternatives hns).2.1] at hnode
    have hnone : p.node.captures = [] := List.map_eq_nil_iff.1
      (labels_of_hasCapture (layered_of_mem h hp) hcapture)
    obtain ⟨root, hroot⟩ : ∃ root, root =
      Node.rebuild up (s.parent.withAlternatives (ns.eraseIdx s.slot)) := ⟨_, rfl⟩
    obtain ⟨hcaptures, hparse⟩ := parse_eraseIdx h hsets hup hns (hslot ▸ hnode) hnone (hslot ▸ hroot)
    obtain ⟨front, back, hfront, hsource, hrest⟩ :=
      Place.text_withoutAlternative hpattern.layered hp htrail hslot hns
    rw [← hroot] at hrest
    have hcuts : Fix.Cuts (.removal (p.start - 1) p.stop) r.source front ('|' :: p.node.text) back := by
      have hbar (w : List Char) : Text.width ('|' :: w) = 1 + Text.width w := rfl
      refine ⟨htext ▸ hsource, ?_, ?_⟩
      · show p.start - 1 = Text.width front
        omega
      · show p.stop = Text.width (front ++ '|' :: p.node.text)
        rw [Text.width_append, hbar, Place.stop, Node.width_eq]
        omega
    refine ⟨p, hp, hstart, hstop, ⟨root.text, r.flags, root⟩, ?_, hparse, ?_⟩
    · rw [hcuts.result?, hrest]
      show some (front ++ [] ++ back) = _
      rw [List.append_nil]
    · refine ⟨⟨s, up, ns, htrail, (rebuild_self hup).symm, hns, hnode, hroot⟩, hcaptures, ?_⟩
      exact refersAs_of_captures hparse hsets hpattern.layered
        (by rw [List.append_nil]; exact hcaptures.symm)
  · cases hrule
  · cases hrule
  · cases hrule

/-- In `(?:a|a)(b)\1` the second alternative is taken out, and what is left is `(?:a)(b)\1`. -/
theorem parse_withoutAlternative_reference :
    let source := ['(', '?', ':', 'a', '|', 'a', ')', '(', 'b', ')', '\\', '1']
    let letter : Node := alternative [character ⟨97, ['a']⟩]
    let r : Regex := ⟨source, .empty, choice .whole [alternative [choice .plain [letter, letter],
      choice (.capture 1 none) [alternative [character ⟨98, ['b']⟩]], backreference (.index 1)]]⟩
    Regex.parse source .empty = .ok r ∧ ∃ p ∈ r.walk, ∃ r',
      r'.source = ['(', '?', ':', 'a', ')', '(', 'b', ')', '\\', '1'] ∧
        Regex.parse r'.source .empty = .ok r' ∧ r.LosesAlternative r' p := by
  intro source letter r
  have hparse : Regex.parse source .empty = .ok r := rfl
  obtain ⟨finding, hfinding, hfix⟩ : ∃ finding ∈ (Rule.duplicateAlternative false).check ⟨r, none⟩,
      finding.fix = some (.removal 4 6) := ⟨_, List.mem_of_getElem? (i := 0) rfl, rfl⟩
  obtain ⟨p, hp, -, -, r', hresult, hparse', hloses⟩ :=
    parse_withoutAlternative hparse rfl hfinding hfix
  exact ⟨hparse, p, hp, r', (Option.some.inj hresult).symm, hparse', hloses⟩

/-- A fix for an unused group makes the group that is reported a plain one, and nothing else: without
`v`, what comes of the source is read as the tree with that group made plain. -/
theorem parse_uncaptured [Properties] (h : Regex.parse source flags = .ok r)
    (hsets : flags.unicodeSets = false) (hfinding : finding ∈ Rule.unusedCapture.check ⟨r, captures⟩)
    (hfix : finding.fix = some fix) :
    ∃ p ∈ r.walk, finding.start = p.start ∧ finding.stop = p.stop ∧ ∃ r',
      fix.result? source = some r'.source ∧ Regex.parse r'.source flags = .ok r' ∧
        r.LosesCapture r' p := by
  obtain ⟨rfl, rfl, hpattern, htext⟩ := parse_source h
  obtain ⟨p, hp, ⟨_, hrule, -⟩ | ⟨hrule, -⟩ | ⟨uses, -, hfinding⟩ | ⟨hrule, -⟩⟩ :=
    finding_of_mem_check hfinding hfix
  · cases hrule
  · cases hrule
  · obtain ⟨hstart, hstop⟩ := stretch_unusedCapture hfinding
    obtain ⟨name, ns, hnode, hunused, rfl⟩ := finding_unusedCapture hfinding hfix
    have hleads := leads_of_mem_walk hp
    have hself := rebuild_self hleads
    rw [hnode] at hleads
    obtain ⟨root, hroot⟩ : ∃ root, root = Node.rebuild p.trail (choice .plain ns) := ⟨_, rfl⟩
    obtain ⟨hcaptures, hparse⟩ := parse_plain h hsets hleads hunused hroot
    obtain ⟨front, back, hwidth, hframed⟩ :=
      Place.framed_of_mem_walk hpattern.layered hp (by rw [hnode]; rfl)
    have hcuts : (UnusedCapture.plain p).Cuts r.source front p.node.opening
        (textAll ['|'] ns ++ [')'] ++ back) := by
      refine ⟨?_, hwidth.symm, ?_⟩
      · rw [← htext, ← hself, hframed, hnode, text]
        simp [Node.opening, Frame.closing]
      · show p.start + Text.width p.node.opening = _
        rw [Text.width_append, hwidth]
    refine ⟨p, hp, hstart, hstop, ⟨root.text, r.flags, root⟩, ?_, hparse, ?_⟩
    · rw [hcuts.result?, hroot, hframed, text]
      simp [UnusedCapture.plain, Frame.opening, Frame.closing]
    · refine ⟨⟨_, name, ns, hnode, hself.symm, hroot⟩, ⟨_, by rw [hnode]; rfl, hcaptures⟩, ?_⟩
      exact refersAs_of_captures hparse hsets hpattern.layered hcaptures
  · cases hrule

/-- In `(a)\1(b)\4` the second group is made plain. The reference to the first one is kept, and so is
the escape of the fourth character. -/
theorem parse_uncaptured_escape :
    let source := ['(', 'a', ')', '\\', '1', '(', 'b', ')', '\\', '4']
    let first : Node := choice (.capture 1 none) [alternative [character ⟨97, ['a']⟩]]
    let letter : Node := alternative [character ⟨98, ['b']⟩]
    let r : Regex := ⟨source, .empty, choice .whole [alternative [first, backreference (.index 1),
      choice (.capture 2 none) [letter], character ⟨4, ['\\', '4']⟩]]⟩
    Regex.parse source .empty = .ok r ∧ ∃ p ∈ r.walk, ∃ r',
      r'.source = ['(', 'a', ')', '\\', '1', '(', '?', ':', 'b', ')', '\\', '4'] ∧
        Regex.parse r'.source .empty = .ok r' ∧ r.LosesCapture r' p := by
  intro source first letter r
  have hparse : Regex.parse source .empty = .ok r := rfl
  obtain ⟨finding, hfinding, hfix⟩ : ∃ finding ∈ Rule.unusedCapture.check ⟨r, some .none⟩,
      finding.fix = some ⟨5, 6, ['(', '?', ':']⟩ := ⟨_, List.mem_of_getElem? (i := 0) rfl, rfl⟩
  obtain ⟨p, hp, -, -, r', hresult, hparse', hloses⟩ := parse_uncaptured hparse rfl hfinding hfix
  exact ⟨hparse, p, hp, r', (Option.some.inj hresult).symm, hparse', hloses⟩

end Regex

end RegexAudit
