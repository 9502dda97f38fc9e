import RegexAudit.Proofs.StoredParses

/-!
# Lossless parsing

What the parser stores is one tree, and all of the source is in it. An arena need not be like that:
an entry could be the child of two others or of none, name another parent than the one it is a child
of, or stand for a stretch of the source that its children do not fill. That none of this happens is
`Ast.Lossless`, which says it of the entries alone:

    Ast.parse source flags = .ok t → t.source = source ∧ t.Lossless

The arena stores the tree that is read of the same source (`Ast.parseWithin_refines`), whose numbers
are those of the entries and whose text is the source; what an entry says follows from the place of
the tree that it belongs to (`Ast.Holds`).
-/

namespace RegexAudit

open Arena (Content Entry Stands)

/-- The text of a node is put together from the texts of its children, with nothing between and
around them but what goes by the node. A character is as it was written. -/
inductive Arena.Content.Spells :
    Content → (raws : List (List Char)) → (raw : List Char) → Prop
  | choice (frame : Frame) (ids : List NodeId) (raws : List (List Char)) :
    Spells (.choice frame ids) raws (frame.opening ++ Text.join ['|'] raws ++ frame.closing)
  | look (direction : Direction) (negate : Bool) (ids : List NodeId) (raws : List (List Char)) :
    Spells (.look direction negate ids) raws
      (lookOpening direction negate ++ Text.join ['|'] raws ++ [')'])
  | alternative (ids : List NodeId) (raws : List (List Char)) :
    Spells (.alternative ids) raws raws.flatten
  | quantifier {bounds : Bounds} {greedy : Bool} {lexeme : List Char} (id : NodeId)
      (raw : List Char) :
    Lexeme.Quantifies lexeme (bounds, greedy) [] →
      Spells (.quantifier bounds.min bounds.max greedy id) [raw] (raw ++ lexeme)
  | edge (e : Edge) : Spells (.edge e) [] e.text
  | backreference (ref : GroupRef) (resolved : Option NodeId) :
    Spells (.backreference ref resolved) [] ref.text
  | character (value : Nat) (lexeme : List Char) : Spells (.character value) [] lexeme
  | range (i j : NodeId) (left right : List Char) :
    Spells (.range i j) [left, right] (left ++ ['-'] ++ right)
  | shorthand (set : Shorthand) : Spells (.shorthand set) [] set.text
  | charClass (negate unicodeSets : Bool) (ids : List NodeId) (raws : List (List Char)) :
    Spells (.charClass negate unicodeSets ids) raws (classOpening negate ++ raws.flatten ++ [']'])
  | classExpression (negate : Bool) (id : NodeId) (raw : List Char) :
    Spells (.classExpression negate id) [raw] (classOpening negate ++ raw ++ [']'])
  | classOperation (operator : SetOperator) (i j : NodeId) (left right : List Char) :
    Spells (.classOperation operator i j) [left, right] (left ++ operator.text ++ right)
  | strings (ids : List NodeId) (raws : List (List Char)) :
    Spells (.strings ids) raws (['\\', 'q', '{'] ++ Text.join ['|'] raws ++ ['}'])
  | string (ids : List NodeId) (raws : List (List Char)) : Spells (.string ids) raws raws.flatten

theorem Arena.Content.Stores.spells {content : Content} {n : Node} {children : List NodeId}
    (h : content.Stores n children) : content.Spells (n.children.map Node.text) n.text := by
  have hflat (ns : List Node) : Node.textAll [] ns = (ns.map Node.text).flatten := by
    rw [Node.textAll_eq_join, Text.join_nil]
  cases h with
  | choice frame ns =>
    rw [Node.text_eq]
    exact .choice frame children _
  | look direction negate ns =>
    rw [Node.text_eq]
    exact .look direction negate children _
  | alternative ns =>
    rw [Node.text, hflat]
    exact .alternative children _
  | quantifier n id hread =>
    rw [Node.text]
    exact .quantifier id n.text hread
  | edge e => exact .edge e
  | backreference ref resolved => exact .backreference ref resolved
  | character value lexeme => exact .character value lexeme
  | range a b i j =>
    have htext : (Node.range a b).text = a.lexeme ++ ['-'] ++ b.lexeme := by simp [Node.text]
    rw [htext]
    exact .range i j a.lexeme b.lexeme
  | shorthand set => exact .shorthand set
  | charClass negate unicodeSets ns =>
    rw [Node.text, hflat]
    exact .charClass negate unicodeSets children _
  | classExpression negate n id =>
    rw [Node.text]
    exact .classExpression negate id n.text
  | classOperation operator left right i j =>
    rw [Node.text]
    exact .classOperation operator i j left.text right.text
  | strings alternatives =>
    rw [Node.text_eq]
    exact .strings children _
  | string letters =>
    rw [Node.text, Node.lettersText_eq_join, Text.join_nil]
    exact .string children _

/-- An arena that holds one tree, and with it all of its source. -/
structure Ast.Lossless (t : Ast) : Prop where
  /-- The root is the whole pattern: it covers the source, and has no parent. -/
  root : ∃ alternatives,
    t.nodes[t.root]? = some ⟨.choice .whole alternatives, none, 0, Text.width t.source⟩
  /-- The root is the child of no entry. -/
  top : ∀ p, t.root ∉ t.children p
  /-- Any other entry is the child of one entry, once, and has that stored as its parent. -/
  parent : ∀ id < t.nodes.length, id ≠ t.root → ∃ p < t.nodes.length, t.parent? id = some p ∧
    ∀ q, (t.children q).count id = if q = p then 1 else 0
  /-- The walk takes every entry once, parents before children. -/
  walk : ∃ ids, t.walk? = some ids ∧ ids.Perm (List.range t.nodes.length) ∧
    ∀ p, ∀ id ∈ t.children p, [p, id].Sublist ids
  /-- The text of an entry is put together from the texts of its children. -/
  raw : ∀ id < t.nodes.length, ∃ e raw raws, t.nodes[id]? = some e ∧ t.raw? id = some raw ∧
    (t.children id).map t.raw? = raws.map some ∧ e.content.Spells raws raw

variable {t : Ast}

theorem Ast.raw?_of_covers {id : NodeId} {p : Place} (h : t.Covers id p) (hsits : p.Sits t.source) :
    t.raw? id = some p.node.text := by
  obtain ⟨e, hentry, hstart, hstop⟩ := h
  rw [raw?, hentry, ← Place.raw?_of_sits hsits, Place.raw?, ← hstart, ← hstop]
  rfl

theorem Ast.raws_of_covers {ids : List NodeId} {ps : List Place} (h : List.Forall₂ t.Covers ids ps)
    (hsits : ∀ p ∈ ps, p.Sits t.source) :
    ids.map t.raw? = (ps.map fun p => p.node.text).map some := by
  induction h with
  | nil => rfl
  | cons hfirst _ ih =>
    rw [List.forall_mem_cons] at hsits
    rw [List.map_cons, List.map_cons, List.map_cons, raw?_of_covers hfirst hsits.1, ih hsits.2]

theorem exists_of_forall₂ {α β : Type} {R : α → β → Prop} {as : List α} {bs : List β}
    (h : List.Forall₂ R as bs) {a : α} (ha : a ∈ as) : ∃ b ∈ bs, R a b := by
  induction h with
  | nil => cases ha
  | cons hfirst _ ih =>
    rcases List.mem_cons.1 ha with rfl | ha
    · exact ⟨_, List.mem_cons_self, hfirst⟩
    · obtain ⟨b, hb, hR⟩ := ih ha
      exact ⟨b, List.mem_cons_of_mem _ hb, hR⟩

/-- An arena that stores a whole pattern is lossless, if the text of the pattern is its source. -/
theorem Ast.Stores.lossless {alternatives : List Node} (h : t.Stores (.choice .whole alternatives))
    (hsource : (Node.choice .whole alternatives).text = t.source) : t.Lossless := by
  obtain ⟨ids, hstands, hids⟩ := h
  have hlt {id : NodeId} : id ∈ ids ↔ id < t.nodes.length := hids.mem_iff.trans List.mem_range
  have hsits : ∀ p ∈ Place.below ⟨.choice .whole alternatives, 0, 0, []⟩, p.Sits t.source :=
    Place.forall_below (fun p => Place.sits_children)
      ⟨[], [], by rw [List.nil_append, List.append_nil, hsource], rfl⟩
  have hwalk : t.walk? = some ids := by
    have hlength := hids.length_eq
    have hwalk := hstands.walkFrom (show t.walkFrom 0 [] = some [] from rfl)
    rw [List.length_range] at hlength
    rwa [hlength, List.append_nil] at hwalk
  exact {
    root := by
      obtain ⟨hentry, hstores, -⟩ := hstands
      rw [Node.width_eq, hsource, Nat.zero_add] at hentry
      cases hstores
      exact ⟨_, hentry⟩
    top := hstands.not_child hids
    parent := by
      intro id hid hother
      obtain ⟨p, hp, hparent, hcount⟩ := hstands.count_child hids (hlt.2 hid) hother
      exact ⟨p, hlt.1 hp, hparent, hcount⟩
    walk := ⟨ids, hwalk, hids, fun p id hid =>
      (hstands.parents p (Arena.mem_of_child hids hid) id hid).2⟩
    raw := by
      intro id hid
      obtain ⟨p, hp, e, children, hentry, hstart, hstop, hstores, hcovers⟩ :=
        exists_of_forall₂ (hstands.holds 0 []) (hlt.2 hid)
      have hp := hsits p hp
      refine ⟨e, p.node.text, p.children.map fun q => q.node.text, hentry,
        raw?_of_covers ⟨e, hentry, hstart, hstop⟩ hp, ?_, ?_⟩
      · rw [children_of_entry hentry, hstores.children]
        exact raws_of_covers hcovers (Place.sits_children hp)
      · have hspells := hstores.spells
        rwa [← Place.map_node_children, List.map_map] at hspells }

/-- What is parsed is stored as one tree, in which no entry and no byte of the source is lost. -/
theorem Ast.parse_lossless {source : List Char} {flags : Flags} {t : Ast}
    (h : Ast.parse source flags = .ok t) : t.source = source ∧ t.Lossless := by
  have hrefines := parseWithin_refines Pattern.nestingLimit source flags
  cases hparse : Pattern.parseWithin Pattern.nestingLimit flags source with
  | error e =>
    rw [hparse] at hrefines
    cases hrefines.symm.trans h
  | ok root =>
    rw [hparse] at hrefines
    obtain ⟨t', ht', hsource, -, hstores⟩ := hrefines
    cases ht'.symm.trans h
    have hregex : Regex.parse source flags = .ok ⟨source, flags, root⟩ := by
      rw [Regex.parse, Pattern.parse, hparse]
      rfl
    obtain ⟨-, -, ⟨alternatives, rfl, -⟩, htext⟩ := Regex.parse_source hregex
    exact ⟨hsource, hstores.lossless (htext.trans hsource.symm)⟩

/-- In `(a|[b-c])+$` a group and the ends of a range are handed to entries that are added later. -/
theorem Ast.parse_lossless_group :
    let source := ['(', 'a', '|', '[', 'b', '-', 'c', ']', ')', '+', '$']
    let nodes : List Entry := [
      ⟨.choice .whole [1], none, 0, 11⟩, ⟨.alternative [10, 11], some 0, 0, 11⟩,
      ⟨.choice (.capture 1 none) [3, 5], some 10, 0, 9⟩,
      ⟨.alternative [4], some 2, 1, 2⟩, ⟨.character 97, some 3, 1, 2⟩,
      ⟨.alternative [6], some 2, 3, 8⟩, ⟨.charClass false false [9], some 5, 3, 8⟩,
      ⟨.character 98, some 9, 4, 5⟩, ⟨.character 99, some 9, 6, 7⟩, ⟨.range 7 8, some 6, 4, 7⟩,
      ⟨.quantifier 1 none true 2, some 1, 0, 10⟩, ⟨.edge .lineEnd, some 1, 10, 11⟩]
    let t : Ast := ⟨source, .empty, nodes, 0⟩
    Ast.parse source .empty = .ok t ∧ t.walk? = some [0, 1, 10, 2, 3, 4, 5, 6, 9, 7, 8, 11] ∧
      t.Lossless := by
  intro source nodes t
  have hparse : Ast.parse source .empty = .ok t := by decide +kernel
  exact ⟨hparse, rfl, (parse_lossless hparse).2⟩

end RegexAudit
