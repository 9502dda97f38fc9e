import RegexAudit.Proofs.Safety
import RegexAudit.Proofs.StoredPatterns
import RegexAudit.Proofs.StoredTrees

/-!
# Storing parses

The parser stores the tree that the readers of trees read, and stops with the fault that they report
(`Ast.parseWithin_refines`). So what is proved of trees is true of arenas, and what is proved of the
text that readers have left is true of the bytes where the parser stands; and as no reader knows of
a stop that is none of a pattern, the parser has none (`Ast.fault_of_parse`).

References are resolved when the arena is complete. Its entries are not in the order of the walk, as
some are added after those below them, but those of references are (`Lists`). So the first entry
with an unknown name belongs to the first place with one (`Parser.find?_isUnknown`).
-/

namespace RegexAudit

open Arena (Content Entry Stands StandAll Lists refers)

/-! ## References -/

namespace Arena

/-- A change of contents that stores the same nodes. -/
def KeepsNodes (f : Content → Content) : Prop :=
  ∀ ⦃content : Content⦄ ⦃n : Node⦄ ⦃children : List NodeId⦄,
    content.Stores n children → (f content).Stores n children

variable {nodes : List Entry} {f : Content → Content}

mutual

theorem Stands.map (hf : KeepsNodes f) {parent : Option NodeId} {start : Nat} {n : Node}
    {id : NodeId} {ids : List NodeId} : Stands nodes parent start n id ids →
      Stands (nodes.map fun e => { e with content := f e.content }) parent start n id ids
  | .node hentry hstores hbelow => by
    refine .node ?_ (hf hstores) (hbelow.map hf)
    rw [List.getElem?_map, hentry]
    rfl

theorem StandAll.map (hf : KeepsNodes f) {p : NodeId} {gap start : Nat} {ns : List Node}
    {children ids : List NodeId} : StandAll nodes p gap start ns children ids →
      StandAll (nodes.map fun e => { e with content := f e.content }) p gap start ns children ids
  | .nil => .nil
  | .cons hfirst hrest => .cons (hfirst.map hf) (hrest.map hf)

end

end Arena

namespace Parser

variable {s : Parser}

theorem keepsNodes_resolved (s : Parser) : Arena.KeepsNodes s.resolved := by
  intro content n children h
  cases h with
  | backreference ref resolved => exact .backreference ref _
  | _ => constructor <;> assumption

/-- The first entry that refers to an unknown name stops the parser. -/
theorem resolve_eq (s : Parser) : s.resolve =
    match s.nodes.find? fun e => s.isUnknown e.content with
    | some e => .error (.fault ⟨.unknownGroupName, e.start⟩)
    | none => .ok (s.nodes.map fun e => { e with content := s.resolved e.content }) := by
  unfold resolve
  induction s.nodes with
  | nil => rfl
  | cons e es ih =>
    rw [List.mapM_cons, ih, List.find?_cons, resolveEntry]
    cases s.isUnknown e.content with
    | true => rfl
    | false => cases es.find? fun e => s.isUnknown e.content <;> rfl

theorem lookup_isNone (names : List (List Char × NodeId)) (name : List Char) :
    (names.lookup name).isNone = !(names.map Prod.fst).contains name := by
  induction names with
  | nil => rfl
  | cons entry names ih =>
    rw [List.lookup_cons, List.map_cons, List.contains_cons]
    cases name == entry.1 with
    | true => rfl
    | false => exact ih

theorem isUnknown_eq {content : Content} {n : Node} {children : List NodeId}
    (h : content.Stores n children) :
    s.isUnknown content = Pattern.isUnknownName (s.names.map Prod.fst) n := by
  cases h with
  | backreference ref resolved =>
    cases ref with
    | index k => rfl
    | name name => exact lookup_isNone s.names name
  | _ => rfl

theorem map_getElem?_range {α : Type} (l : List α) :
    (List.range l.length).map (fun i => l[i]?) = l.map some := by
  refine List.ext_getElem (by simp) fun i hi hi' => ?_
  simp [List.length_map] at hi'
  simp [hi']

theorem find?_rel {α β : Type} {R : α → β → Prop} {P : α → Bool} {Q : β → Bool} {l : List α}
    {l' : List β} (h : List.Forall₂ R l l') (hPQ : ∀ a b, R a b → P a = Q b) :
    Option.Rel R (l.find? P) (l'.find? Q) := by
  induction h with
  | nil => exact .none
  | cons hfirst _ ih =>
    rw [List.find?_cons, List.find?_cons, hPQ _ _ hfirst]
    split
    · exact .some hfirst
    · exact ih

theorem refers_of_isUnknown {nodes : List Entry} {i : NodeId}
    (h : nodes[i]?.any (fun e => s.isUnknown e.content) = true) : refers nodes i = true := by
  unfold refers
  cases hentry : nodes[i]? with
  | none =>
    rw [hentry] at h
    cases h
  | some e =>
    rw [hentry] at h
    have hunknown : s.isUnknown e.content = true := h
    show e.content.isReference = true
    unfold isUnknown at hunknown
    split at hunknown
    · rename_i hcontent
      rw [hcontent]
      rfl
    · cases hunknown

/-- References are stored in the order of the walk, so the first of an unknown name is so too. -/
theorem find?_entries {nodes : List Entry} {ids : List NodeId}
    (hids : Lists nodes 0 nodes.length ids) :
    (nodes.find? fun e => s.isUnknown e.content).map some
      = (ids.find? fun i => nodes[i]?.any fun e => s.isUnknown e.content).map (nodes[·]?) := by
  have hrefers : ids.filter (refers nodes) = (List.range nodes.length).filter (refers nodes) := by
    have : Std.Antisymm fun i j : NodeId => i < j := ⟨fun _ _ h h' => absurd h (Nat.lt_asymm h')⟩
    have : Std.Irrefl fun i j : NodeId => i < j := ⟨fun _ => Nat.lt_irrefl _⟩
    refine hids.ordered.eq_of_mem_iff (List.pairwise_lt_range.filter _) fun i => ?_
    rw [List.mem_filter, List.mem_filter, hids.mem_iff, List.mem_range]
    simp
  have hfilter (l : List NodeId) : (l.filter (refers nodes)).find?
      (fun i => nodes[i]?.any fun e => s.isUnknown e.content)
        = l.find? fun i => nodes[i]?.any fun e => s.isUnknown e.content := by
    rw [List.find?_filter]
    congr 1
    funext i
    have := @refers_of_isUnknown s nodes i
    simp_all
  rw [← hfilter ids, hrefers, hfilter]
  calc (nodes.find? fun e => s.isUnknown e.content).map some
    _ = (nodes.map some).find? (Option.any fun e => s.isUnknown e.content) := by
      rw [List.find?_map]
      rfl
    _ = _ := by
      rw [← map_getElem?_range, List.find?_map]
      rfl

theorem find?_isUnknown {t : Ast} {root : Node} {ids : List NodeId}
    (hstands : Stands t.nodes none 0 root t.root ids) (hids : Lists t.nodes 0 t.nodes.length ids) :
    Option.Rel (fun e p => e.start = p.start)
      (t.nodes.find? fun e => s.isUnknown e.content)
      (root.walk.find? fun p => Pattern.isUnknownName (s.names.map Prod.fst) p.node) := by
  have hentries := @find?_entries s t.nodes ids hids
  have hplaces : Option.Rel t.Holds
      (ids.find? fun i => t.nodes[i]?.any fun e => s.isUnknown e.content)
      (root.walk.find? fun p => Pattern.isUnknownName (s.names.map Prod.fst) p.node) := by
    refine find?_rel (hstands.holds 0 []) ?_
    rintro i p ⟨e, children, hentry, -, -, hstores, -⟩
    rw [hentry]
    exact isUnknown_eq hstores
  generalize (ids.find? fun i => t.nodes[i]?.any fun e => s.isUnknown e.content) = found at *
  generalize root.walk.find? _ = place at *
  cases hplaces with
  | none =>
    rw [Option.map_none, Option.map_eq_none_iff] at hentries
    rw [hentries]
    exact .none
  | some hholds =>
    obtain ⟨e, children, hentry, hstart, -⟩ := hholds
    rw [Option.map_some, hentry] at hentries
    obtain ⟨e', he', heq⟩ := Option.map_eq_some_iff.1 hentries
    cases heq
    rw [he']
    exact .some hstart

end Parser

/-- The arena stores the nodes of a tree, and no others. -/
def Ast.Stores (t : Ast) (root : Node) : Prop :=
  ∃ ids, Stands t.nodes none 0 root t.root ids ∧ ids.Perm (List.range t.nodes.length)

/-- The parser stops with the fault that the reader of trees finds, or stores the tree that it
reads. -/
theorem Ast.parseWithin_refines (limit : Nat) (source : List Char) (flags : Flags) :
    match Pattern.parseWithin limit flags source with
    | .error e => parseWithin limit source flags = .error (.fault e)
    | .ok root => ∃ t, parseWithin limit source flags = .ok t ∧
        t.source = source ∧ t.flags = flags ∧ t.Stores root := by
  have hpattern := Parser.refines_pattern limit flags source
  unfold Pattern.parseWithin
  cases hread : Pattern.read limit flags source with
  | error fault =>
    rw [hread] at hpattern
    rw [parseWithin, show (Parser.pattern source _ limit).run .start = _ from hpattern]
    rfl
  | ok read =>
    obtain ⟨root, names⟩ := read
    rw [hread] at hpattern
    obtain ⟨id, done, hrun, rfl, hadds⟩ := hpattern
    obtain ⟨ids, hstands, hids⟩ := hadds.stands
    have hlength : done.nodes.length = root.size := by
      rw [hadds.length, List.length_nil, Nat.zero_add]
    rw [List.length_nil, ← hlength] at hids
    have hunknown := @Parser.find?_isUnknown done ⟨source, flags, done.nodes, id⟩ root ids
      hstands hids
    have hresolve := done.resolve_eq
    unfold parseWithin
    rw [hrun, Parser.ok_bind]
    dsimp only at hunknown ⊢
    generalize done.nodes.find? _ = entry at *
    generalize root.walk.find? _ = place at *
    cases hunknown with
    | some hstart =>
      rw [hresolve]
      dsimp only
      rw [hstart]
      rfl
    | none =>
      rw [hresolve]
      refine ⟨_, rfl, rfl, rfl, ids, hstands.map done.keepsNodes_resolved, ?_⟩
      rw [List.length_map, List.range_eq_range']
      exact hids.perm

/-- What stops the parser is a fault of the pattern, at a place of the source: it never looks at
a byte that is none of the source, or for an entry that does not exist, and no loop outlives the
text. -/
theorem Ast.fault_of_parse {source : List Char} {flags : Flags} {stop : Stop}
    (h : parse source flags = .error stop) :
    ∃ e, stop = .fault e ∧ Regex.parse source flags = .error e ∧
      ∃ rest, Text.BeginsAt source rest e.offset := by
  have hrefines := parseWithin_refines Pattern.nestingLimit source flags
  cases hparse : Pattern.parse flags source with
  | ok root =>
    rw [show Pattern.parseWithin _ flags source = _ from hparse] at hrefines
    obtain ⟨t, ht, -⟩ := hrefines
    cases ht.symm.trans h
  | error e =>
    rw [show Pattern.parseWithin _ flags source = _ from hparse] at hrefines
    cases hrefines.symm.trans h
    refine ⟨e, rfl, ?_, Pattern.beginsAt_of_parse hparse⟩
    rw [Regex.parse, hparse]
    rfl

end RegexAudit
