import TemplateTree.Proofs.Tree.Rows
import TemplateTree.Proofs.Tree.Slices
import TemplateTree.Proofs.Tree.Subtrees

/-!
# What an outline tells

An outline has a line for each element of its tree, and no text that it quotes breaks a
line. The depth of a line is the number of the nodes above its element, which the links to
the parents tell as well. Lines tell rows and rows tell trees, so trees with the same
outline are the same, with all their texts.
-/

namespace TemplateTree

open Rose

namespace Tree

/-- The nodes above an element, innermost first. -/
def above (t : Tree) (e : Element) : List Nat :=
  match t.parent? e with
  | none => []
  | some n => t.ancestors n

/-- The text lists the elements of the tree. -/
structure Outlined (t : Tree) (outline : String) : Prop where
  /-- The walk from the root enters nothing twice. -/
  nodup : (entered (t.walk root)).Nodup
  /-- It enters all nodes and tokens. -/
  mem_iff : ∀ e, e ∈ entered (t.walk root) ↔ t.Has e
  /-- In this order each of them has its line, indented for the nodes above it. -/
  lines : ∃ lines, outline = String.join (lines.map (· ++ "\n")) ∧
    (∀ line ∈ lines, '\n' ∉ line.toList) ∧
    List.Forall₂ (fun e line => t.line? (t.above e).length e = some line)
      (entered (t.walk root)) lines

theorem mem_entered {steps : List WalkStep} {e : Element} :
    e ∈ entered steps ↔ .enter e ∈ steps := by
  rw [entered, List.mem_filterMap]
  constructor
  · rintro ⟨s, hs, he⟩
    cases s with
    | enter e' => rwa [← Option.some.inj he]
    | leave e' => cases he
  · exact fun h => ⟨_, h, rfl⟩

theorem entered_append (ss ts : List WalkStep) :
    entered (ss ++ ts) = entered ss ++ entered ts := List.filterMap_append

theorem nodup_entered {steps : List WalkStep} (h : steps.Nodup) : (entered steps).Nodup := by
  refine h.filterMap fun s s' e hs hs' => ?_
  cases s with
  | leave => cases hs
  | enter =>
    cases s' with
    | leave => cases hs'
    | enter =>
      obtain rfl := Option.some.inj hs
      obtain rfl := Option.some.inj hs'
      rfl

section

variable {t : Tree}

def tokenText (t : Tree) (i : Nat) : String := (t.textOf? (.token i)).getD ""

/-- What the line of an element tells. -/
def row (t : Tree) (e : Element) : Row where
  depth := (t.above e).length
  subject :=
    match e with
    | .node i => .node (t.node i).label
    | .token i => .token (t.token i).kind (t.tokenText i)
  span := t.span e

theorem line?_eq_text_row {e : Element} (h : (t.textOf? e).isSome) :
    t.line? (t.above e).length e = some (t.row e).text := by
  cases e with
  | node i => rfl
  | token i =>
    obtain ⟨s, hs⟩ := Option.isSome_iff_exists.mp h
    simp only [line?, remark?, row, tokenText, hs]
    rfl

theorem above_of_parent {e : Element} {n : Nat} (ht : t.Descends) (h : t.parent? e = some n) :
    t.above e = n :: t.above (.node n) := by
  rw [above, h]
  show t.ancestors n = n :: t.above (.node n)
  cases hn : (t.node n).parent with
  | none =>
    rw [above, parent?, hn]
    exact (climbs_ancestors ht n).unique (.top hn)
  | some a =>
    rw [above, parent?, hn]
    exact ancestors_eq_cons ht hn

theorem length_above_element (ht : t.Descends) {parent : Nat} {p : Place} {r : Rose Token}
    (h : Embeds t (some parent) p r) :
    (t.above (element p r)).length = (t.above (.node parent)).length + 1 := by
  rw [above_of_parent ht (parent?_element h), List.length_cons]

mutual

theorem depths_walkUpTo (ht : t.Descends) {q : Option Nat} {p : Place} (r : Rose Token)
    (h : Embeds t q p r) (bound : Nat) (later : List WalkStep) :
    depths (t.above (element p r)).length (t.walkUpTo bound (element p r) ++ later) =
      (entered (t.walkUpTo bound (element p r))).map (fun e => ((t.above e).length, e)) ++
        depths (t.above (element p r)).length later := by
  cases bound with
  | zero => rfl
  | succ bound =>
    cases r with
    | token tok => rfl
    | node label children =>
      -- Leaving the node belongs to the rest of the walk, where it takes the depth back.
      have hchildren := depths_walkUpTo_elements ht children h.children bound
        (.leave (.node p.node) :: later)
      rw [element, walkUpTo, elements_of_embeds h]
      simp only [List.cons_append, List.append_assoc, List.nil_append, depths]
      rw [hchildren, depths, Nat.add_sub_cancel]
      simp [entered]

/-- A walk is as deep at an element as there are nodes above the element. -/
theorem depths_walkUpTo_elements (ht : t.Descends) {parent : Nat} {p : Place}
    (rs : List (Rose Token)) (h : EmbedsAll t parent p rs) (bound : Nat)
    (later : List WalkStep) :
    depths ((t.above (.node parent)).length + 1)
        ((Rose.elements p rs).flatMap (t.walkUpTo bound) ++ later) =
      (entered ((Rose.elements p rs).flatMap (t.walkUpTo bound))).map
          (fun e => ((t.above e).length, e)) ++
        depths ((t.above (.node parent)).length + 1) later := by
  cases rs with
  | nil => rfl
  | cons r rs =>
    have habove := length_above_element ht h.first
    have hfirst := depths_walkUpTo ht r h.first bound
      ((Rose.elements (placeAfter p [r]) rs).flatMap (t.walkUpTo bound) ++ later)
    rw [habove, depths_walkUpTo_elements ht rs h.others bound later] at hfirst
    rw [Rose.elements, List.flatMap_cons, List.append_assoc, hfirst, entered_append,
      List.map_append, List.append_assoc]

end

mutual

theorem map_row_walkUpTo (ht : t.Descends) {q : Option Nat} {p : Place} (r : Rose Token)
    (h : Embeds t q p r) (bound : Nat) (hd : r.labels.length < bound) :
    (entered (t.walkUpTo bound (element p r))).map t.row =
      rows t.tokenText (t.above (element p r)).length p r := by
  obtain ⟨bound, rfl⟩ := Nat.exists_eq_succ_of_ne_zero (Nat.ne_zero_of_lt hd)
  cases r with
  | token tok =>
    show [t.row (.token p.token)] = _
    simp only [row, rows, element, span, h.token_eq]
  | node label children =>
    have hinside : (labelsAll children).length < bound := by simpa [labels] using hd
    have hchildren := map_row_walkUpTo_elements ht children h.children bound hinside
    have hrow : t.row (.node p.node) = ⟨(t.above (.node p.node)).length, .node label,
        ⟨p.offset, p.offset + extent (leavesAll children)⟩⟩ := by
      simp only [row, span, h.node_eq]
    rw [element, walkUpTo, elements_of_embeds h, rows, ← hchildren, ← hrow]
    simp [entered]

/-- The rows of what a walk enters below an embedded forest are those of the forest. -/
theorem map_row_walkUpTo_elements (ht : t.Descends) {parent : Nat} {p : Place}
    (rs : List (Rose Token)) (h : EmbedsAll t parent p rs) (bound : Nat)
    (hd : (labelsAll rs).length < bound) :
    (entered ((Rose.elements p rs).flatMap (t.walkUpTo bound))).map t.row =
      rowsAll t.tokenText ((t.above (.node parent)).length + 1) p rs := by
  cases rs with
  | nil => rfl
  | cons r rs =>
    rw [labelsAll, List.length_append] at hd
    have habove := length_above_element ht h.first
    have hfirst := map_row_walkUpTo ht r h.first bound (by omega)
    rw [habove] at hfirst
    rw [Rose.elements, List.flatMap_cons, entered_append, List.map_append, hfirst,
      map_row_walkUpTo_elements ht rs h.others bound (by omega), rowsAll]

end

end

section

variable {text : String} {label : Label} {children : List (Rose Token)}

theorem mem_entered_arena_iff {e : Element} :
    e ∈ entered ((arena text (.node label children)).walk root) ↔
      (arena text (.node label children)).Has e := by
  rw [mem_entered]
  constructor
  · intro h
    have hembeds := embeds_arena text (.node label children)
    exact has_arena_iff.mpr (holds_of_mem_walkUpTo (.node label children) hembeds _ h)
  · intro h
    obtain ⟨before, after, hsteps⟩ := exists_stretch_walk_arena h
    have henter : .enter e ∈ (arena text (.node label children)).walk e := by
      cases e <;> simp [walk, walkUpTo]
    rw [hsteps]
    exact List.mem_append_left _ (List.mem_append_right _ henter)

theorem above_root_arena : (arena text (.node label children)).above root = [] := by
  rw [above, root, parent?, parent_root_arena]

theorem depths_arena :
    depths 0 ((arena text (.node label children)).walk root) =
      (entered ((arena text (.node label children)).walk root)).map
        fun e => (((arena text (.node label children)).above e).length, e) := by
  have h := depths_walkUpTo descends_arena (.node label children)
    (embeds_arena text (.node label children))
    ((arena text (.node label children)).nodes.size + 1) []
  rw [show element Place.front (.node label children) = root from rfl, above_root_arena,
    List.append_nil, show depths _ [] = [] from rfl, List.append_nil] at h
  exact h

theorem map_row_arena :
    (entered ((arena text (.node label children)).walk root)).map
        (arena text (.node label children)).row =
      rows (arena text (.node label children)).tokenText 0 .front (.node label children) := by
  have hsize := size_nodes_arena text (.node label children)
  have h := map_row_walkUpTo descends_arena (.node label children)
    (embeds_arena text (.node label children))
    ((arena text (.node label children)).nodes.size + 1) (by omega)
  rw [show element Place.front (.node label children) = root from rfl, above_root_arena] at h
  exact h

/-- In an arena with all texts the lines are those of the rows. -/
theorem lines?_arena (hslices : (arena text (.node label children)).Slices) :
    (arena text (.node label children)).lines? =
      some (((entered ((arena text (.node label children)).walk root)).map
        (arena text (.node label children)).row).map Row.text) := by
  rw [lines?, depths_arena, List.mapM_map, List.map_map]
  exact mapM_eq_some_map fun e _ => line?_eq_text_row (hslices.isSome_textOf e)

theorem outlined_arena (hslices : (arena text (.node label children)).Slices) :
    ∃ outline, (arena text (.node label children)).outline? = some outline ∧
      (arena text (.node label children)).Outlined outline := by
  refine ⟨_, by rw [outline?, lines?_arena hslices, Option.map_some], ?_, ?_, ?_⟩
  · exact nodup_entered nodup_walk_arena
  · exact fun e => mem_entered_arena_iff
  · refine ⟨_, rfl, Row.lineFeed_not_mem_of_mem_map _, ?_⟩
    · rw [List.map_map, List.forall₂_map_right_iff, List.forall₂_same]
      exact fun e _ => line?_eq_text_row (hslices.isSome_textOf e)

end

section

variable {label label' : Label} {children children' : List (Rose Token)}
  {pieces pieces' : List (Kind × String)}

theorem sound_map_row_arena {text : String}
    (hkinds : ∀ tok ∈ leavesAll children, tok.kind ≠ .error) (es : List Element) :
    ∀ row ∈ es.map (arena text (.node label children)).row, row.subject.Sound := by
  rw [List.forall_mem_map]
  intro e _
  cases e with
  | node n => trivial
  | token i =>
    show ((arena text (.node label children)).token i).kind ≠ .error
    by_cases hi : i < (leavesAll children).length
    · rw [(token_arena text (.node label children) (List.getElem?_eq_getElem hi)).1]
      exact hkinds _ (List.getElem_mem hi)
    · rw [token_of_size_le (by rw [size_tokens_arena]; exact Nat.not_lt.mp hi)]
      decide

/-- Arenas with all texts whose tokens are not errors and that have the same outline come from
the same rose tree, and their tokens have the same texts. -/
theorem eq_of_outline?_arena_eq {text text' : String}
    (hslices : (arena text (.node label children)).Slices)
    (hslices' : (arena text' (.node label' children')).Slices)
    (hkinds : ∀ tok ∈ leavesAll children, tok.kind ≠ .error)
    (hkinds' : ∀ tok ∈ leavesAll children', tok.kind ≠ .error)
    (h : (arena text (.node label children)).outline? =
      (arena text' (.node label' children')).outline?) :
    Rose.node label children = Rose.node label' children' ∧ ∀ i < (leavesAll children).length,
      (arena text (.node label children)).textOf? (.token i) =
        (arena text' (.node label' children')).textOf? (.token i) := by
  rw [outline?, outline?, lines?_arena hslices, lines?_arena hslices', Option.map_some,
    Option.map_some, Option.some_inj] at h
  have hlines := lines_injective (Row.lineFeed_not_mem_of_mem_map _)
    (Row.lineFeed_not_mem_of_mem_map _) h
  have hrows := eq_of_map_eq_map (fun row hrow row' hrow' => Row.eq_of_text_eq
    (sound_map_row_arena hkinds _ row hrow) (sound_map_row_arena hkinds' _ row' hrow')) hlines
  rw [map_row_arena, map_row_arena] at hrows
  obtain ⟨hrose, htexts⟩ := rows_injective hrows
  refine ⟨hrose, fun i hi => ?_⟩
  have htext := htexts i (by simpa [Holds, Place.front, leavesAll, leaves] using hi)
  obtain ⟨s, hs⟩ := Option.isSome_iff_exists.mp (hslices.isSome_textOf (.token i))
  obtain ⟨s', hs'⟩ := Option.isSome_iff_exists.mp (hslices'.isSome_textOf (.token i))
  rw [tokenText, tokenText, hs, hs', Option.getD_some, Option.getD_some] at htext
  rw [hs, hs', htext]

variable (h : leavesAll children = Pieces.tokens pieces)
  (h' : leavesAll children' = Pieces.tokens pieces')

include h h'

/-- Arenas over pieces of their texts that have the same outline are the same. -/
theorem arena_eq_of_outline?_eq (hkinds : ∀ tok ∈ leavesAll children, tok.kind ≠ .error)
    (hkinds' : ∀ tok ∈ leavesAll children', tok.kind ≠ .error)
    (he : (arena (Pieces.text pieces) (.node label children)).outline? =
      (arena (Pieces.text pieces') (.node label' children')).outline?) :
    arena (Pieces.text pieces) (.node label children) =
      arena (Pieces.text pieces') (.node label' children') := by
  obtain ⟨hrose, htexts⟩ :=
    eq_of_outline?_arena_eq (slices_arena h) (slices_arena h') hkinds hkinds' he
  obtain ⟨rfl, rfl⟩ := Rose.node.inj hrose
  have hpieces : pieces = pieces' := by
    refine Pieces.eq_of_tokens_eq (h.symm.trans h') fun i hi hi' => ?_
    have htext := htexts i (by rw [h, Pieces.tokens, List.length_map]; exact hi)
    rw [textOf?_token_arena h (List.getElem?_eq_getElem hi),
      textOf?_token_arena h' (List.getElem?_eq_getElem hi')] at htext
    exact Option.some.inj htext
  rw [hpieces]

end

end Tree

end TemplateTree
