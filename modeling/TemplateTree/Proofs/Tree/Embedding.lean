import TemplateTree.Proofs.Tree.Arena
import TemplateTree.Tree.Shape

/-!
# Rose trees in the tables of a tree

A forest is embedded in a tree at a place if its records stand in the tables of
the tree from that place on. What is embedded can be read back: the element of
an embedded tree has the shape of that tree, at any depth that suffices for the
nodes above its tokens. The whole of an arena is embedded in it at the front.
-/

namespace TemplateTree

open Rose

/-- The records stand in a table from the given number on. -/
def StandsAt {α : Type} (table : Array α) (number : Nat) (records : List α) : Prop :=
  ∃ before after, table.toList = before ++ records ++ after ∧ before.length = number

namespace StandsAt

variable {α : Type} {table : Array α} {n : Nat} {x : α} {xs ys : List α}

theorem append_left (h : StandsAt table n (xs ++ ys)) : StandsAt table n xs := by
  obtain ⟨before, after, he, hn⟩ := h
  exact ⟨before, ys ++ after, by simp [he], hn⟩

theorem append_right (h : StandsAt table n (xs ++ ys)) : StandsAt table (n + xs.length) ys := by
  obtain ⟨before, after, he, hn⟩ := h
  exact ⟨before ++ xs, after, by simp [he], by simp [hn]⟩

theorem getElem?_eq (h : StandsAt table n (x :: xs)) : table[n]? = some x := by
  obtain ⟨before, after, he, rfl⟩ := h
  rw [← Array.getElem?_toList, he]
  simp

theorem getElem?_add (h : StandsAt table n xs) {j : Nat} (hj : xs[j]? = some x) :
    table[n + j]? = some x := by
  obtain ⟨before, after, he, rfl⟩ := h
  rw [← Array.getElem?_toList, he]
  exact getElem?_middle before after hj

end StandsAt

/-- The records of a tree stand in the tables from a place on. -/
structure Embeds (t : Tree) (parent : Option Nat) (p : Place) (r : Rose Token) : Prop where
  nodes : StandsAt t.nodes p.node (nodeRecords parent p r)
  tokens : StandsAt t.tokens p.token (tokenRecords (parent.getD 0) p r)

structure EmbedsAll (t : Tree) (parent : Nat) (p : Place) (rs : List (Rose Token)) : Prop where
  nodes : StandsAt t.nodes p.node (nodeRecordsAll parent p rs)
  tokens : StandsAt t.tokens p.token (tokenRecordsAll parent p rs)

theorem EmbedsAll.first {t : Tree} {parent : Nat} {p : Place} {r : Rose Token}
    {rs : List (Rose Token)} (h : EmbedsAll t parent p (r :: rs)) : Embeds t (some parent) p r :=
  ⟨h.nodes.append_left, h.tokens.append_left⟩

theorem EmbedsAll.others {t : Tree} {parent : Nat} {p : Place} {r : Rose Token}
    {rs : List (Rose Token)} (h : EmbedsAll t parent p (r :: rs)) :
    EmbedsAll t parent (placeAfter p [r]) rs := by
  have hn := h.nodes.append_right
  have ht := h.tokens.append_right
  rw [length_nodeRecords] at hn
  rw [length_tokenRecords] at ht
  exact ⟨by simpa [placeAfter, labelsAll] using hn, by simpa [placeAfter, leavesAll] using ht⟩

section

variable {t : Tree} {parent : Nat} {p : Place} {rs ss : List (Rose Token)}

theorem EmbedsAll.append_left (h : EmbedsAll t parent p (rs ++ ss)) : EmbedsAll t parent p rs := by
  obtain ⟨hnodes, htokens⟩ := h
  rw [nodeRecordsAll_append] at hnodes
  rw [tokenRecordsAll_append] at htokens
  exact ⟨hnodes.append_left, htokens.append_left⟩

theorem EmbedsAll.append_right (h : EmbedsAll t parent p (rs ++ ss)) :
    EmbedsAll t parent (placeAfter p rs) ss := by
  induction rs generalizing p with
  | nil => exact h
  | cons r rs ih =>
    rw [placeAfter_cons]
    exact ih h.others

/-- A token of an embedded forest is a token of one of its trees. -/
theorem EmbedsAll.exists_mem (h : EmbedsAll t parent p rs) {i : Nat} (hi : p.token ≤ i)
    (hi' : i < p.token + (leavesAll rs).length) :
    ∃ r ∈ rs, ∃ p', Embeds t (some parent) p' r ∧ element p' r ∈ elements p rs ∧
      p'.token ≤ i ∧ i < p'.token + r.leaves.length := by
  induction rs generalizing p with
  | nil =>
    rw [leavesAll, List.length_nil] at hi'
    omega
  | cons r rs ih =>
    rw [leavesAll, List.length_append] at hi'
    have hstart : (placeAfter p [r]).token = p.token + r.leaves.length := by
      simp [placeAfter, leavesAll]
    by_cases hfirst : i < p.token + r.leaves.length
    · exact ⟨r, List.mem_cons_self, p, h.first, List.mem_cons_self, hi, hfirst⟩
    · obtain ⟨r', hr', p', hembeds, helement, hrange⟩ := ih h.others (by omega) (by omega)
      exact ⟨r', List.mem_cons_of_mem r hr', p', hembeds, List.mem_cons_of_mem _ helement, hrange⟩

end

theorem Embeds.children {t : Tree} {parent : Option Nat} {p : Place} {label : Label}
    {children : List (Rose Token)} (h : Embeds t parent p (.node label children)) :
    EmbedsAll t p.node (placeInside p) children :=
  ⟨(show StandsAt _ _ ([_] ++ _) from h.nodes).append_right, h.tokens⟩

/-- The record of an embedded node. -/
theorem Embeds.node_eq {t : Tree} {parent : Option Nat} {p : Place} {label : Label}
    {children : List (Rose Token)} (h : Embeds t parent p (.node label children)) :
    t.node p.node = ⟨label, parent, elements (placeInside p) children,
      ⟨p.offset, p.offset + extent (leavesAll children)⟩⟩ := by
  have hrec := h.nodes.getElem?_eq
  simp [Tree.node, hrec]

/-- The record of an embedded token. -/
theorem Embeds.token_eq {t : Tree} {parent : Option Nat} {p : Place} {tok : Token}
    (h : Embeds t parent p (.token tok)) :
    t.token p.token = ⟨tok.kind, ⟨p.offset, p.offset + tok.length⟩, parent.getD 0⟩ := by
  have hrec := h.tokens.getElem?_eq
  simp [Tree.token, hrec]

mutual

theorem shapeUpTo_element {t : Tree} {parent : Option Nat} {p : Place} (r : Rose Token)
    (h : Embeds t parent p r) (depth : Nat) (hd : r.labels.length ≤ depth) :
    t.shapeUpTo depth (element p r) = r := by
  cases r with
  | token tok =>
    cases depth <;> simp [element, Tree.shapeUpTo, h.token_eq, Span.length]
  | node label children =>
    cases depth with
    | zero => simp [labels] at hd
    | succ depth =>
      have hinside : (labelsAll children).length ≤ depth := by simpa [labels] using hd
      have hchildren := shapeUpTo_elements children h.children depth hinside
      simp [element, Tree.shapeUpTo, Tree.elements, h.node_eq, hchildren]

/-- The elements of an embedded forest have the shapes of its trees. -/
theorem shapeUpTo_elements {t : Tree} {parent : Nat} {p : Place} (rs : List (Rose Token))
    (h : EmbedsAll t parent p rs) (depth : Nat) (hd : (labelsAll rs).length ≤ depth) :
    (elements p rs).map (t.shapeUpTo depth) = rs := by
  cases rs with
  | nil => rfl
  | cons r rs =>
    rw [labelsAll, List.length_append] at hd
    have hr := shapeUpTo_element r h.first depth (by omega)
    have hrs := shapeUpTo_elements rs h.others depth (by omega)
    simp [elements, hr, hrs]

end

theorem embeds_arena (text : String) (r : Rose Token) : Embeds (arena text r) none .front r :=
  ⟨⟨[], [], by simp [arena], rfl⟩, ⟨[], [], by simp [arena], rfl⟩⟩

theorem size_nodes_arena (text : String) (r : Rose Token) :
    (arena text r).nodes.size = r.labels.length := by
  simp [arena, length_nodeRecords]

/-- The tables of a rose tree describe that rose tree. -/
theorem shape_arena (text : String) (label : Label) (children : List (Rose Token)) :
    (arena text (.node label children)).shape = .node label children := by
  have hsize := size_nodes_arena text (.node label children)
  rw [Tree.shape, hsize]
  exact shapeUpTo_element _ (embeds_arena text _) _ (Nat.le_refl _)

mutual

theorem map_label_nodeRecords (parent : Option Nat) (p : Place) (r : Rose Token) :
    (nodeRecords parent p r).map (·.label) = r.labels := by
  cases r with
  | token t => rfl
  | node label children => simp [nodeRecords, labels, map_label_nodeRecordsAll _ _ children]

theorem map_label_nodeRecordsAll (parent : Nat) (p : Place) (rs : List (Rose Token)) :
    (nodeRecordsAll parent p rs).map (·.label) = labelsAll rs := by
  cases rs with
  | nil => rfl
  | cons r rs =>
    simp [nodeRecordsAll, labelsAll, map_label_nodeRecords _ _ r, map_label_nodeRecordsAll _ _ rs]

end

/-- The nodes of an arena carry the labels of the rose tree, in document order. -/
theorem map_label_nodes_arena (text : String) (r : Rose Token) :
    (arena text r).nodes.toList.map (·.label) = r.labels := by
  simp [arena, map_label_nodeRecords]

end TemplateTree
