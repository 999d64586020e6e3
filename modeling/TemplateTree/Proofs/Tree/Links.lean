import Mathlib.Data.List.Nodup
import TemplateTree.Proofs.Tree.Building
import TemplateTree.Proofs.Tree.Lookup

/-!
# Links

The links to the parents and the lists of the children describe the same tree: every
element but the root hangs from one node, which lists it once, and no other node lists
it. The parents of a node have smaller and smaller numbers and lead to the root. In the
tables of a rose tree both views are read off the place of an element, and a builder
makes no tables but these.
-/

namespace TemplateTree

open Rose

namespace Tree

/-- The element has a record in the tables. -/
def Has (t : Tree) : Element → Prop
  | .node n => n < t.nodes.size
  | .token i => i < t.tokens.size

/-- Parents and children agree. -/
structure Linked (t : Tree) : Prop where
  has_root : t.Has root
  /-- What a node lists is an element of the tree that hangs from it. -/
  parent_of_mem : ∀ n e, e ∈ t.elements n → t.Has e ∧ t.parent? e = some n
  /-- Every element but the root hangs from a node of the tree. -/
  exists_parent : ∀ e, t.Has e → e ≠ root → ∃ n < t.nodes.size, t.parent? e = some n
  /-- The parent lists it once, and no other node lists it. -/
  count_eq : ∀ e, t.Has e → e ≠ root → ∀ n,
    (t.elements n).count e = if t.parent? e = some n then 1 else 0
  lt_of_mem : ∀ n j, .node j ∈ t.elements n → n < j
  parent_eq_none_iff : ∀ n < t.nodes.size, (t.node n).parent = none ↔ n = 0
  /-- The way up ends, and it ends at the root. -/
  climbs : ∀ n < t.nodes.size, t.Climbs n (t.ancestors n) ∧
    (t.ancestors n).Pairwise (fun i a => a < i) ∧ (t.ancestors n).head? = some n ∧
      (t.ancestors n).getLast? = some 0

section

variable {t : Tree}

theorem Climbs.unique {i : Nat} {l l' : List Nat} (h : t.Climbs i l) (h' : t.Climbs i l') :
    l = l' := by
  induction h generalizing l' with
  | top hi =>
    cases h' with
    | top => rfl
    | step ha => rw [hi] at ha; cases ha
  | step ha _ ih =>
    cases h' with
    | top hi => rw [hi] at ha; cases ha
    | step hb hrest =>
      obtain rfl := Option.some.inj (ha.symm.trans hb)
      rw [ih hrest]

/-- The way up ends at a node without a parent. -/
theorem Climbs.getLast?_eq {i : Nat} {l : List Nat} (h : t.Climbs i l) :
    ∃ j ∈ l, l.getLast? = some j ∧ (t.node j).parent = none := by
  induction h with
  | top hi => exact ⟨_, List.mem_singleton_self _, rfl, hi⟩
  | step _ hrest ih =>
    obtain ⟨j, hmem, hlast, hj⟩ := ih
    refine ⟨j, List.mem_cons_of_mem _ hmem, ?_, hj⟩
    rw [List.getLast?_cons, hlast, Option.getD_some]

theorem Climbs.pairwise (ht : t.Descends) {i : Nat} {l : List Nat} (h : t.Climbs i l) :
    l.Pairwise (fun i a => a < i) ∧ ∀ j ∈ l, j ≤ i := by
  induction h with
  | top => simp
  | @step i a above ha _ ih =>
    obtain ⟨hbelow, hle⟩ := ih
    have hlt := ht i a ha
    refine ⟨List.pairwise_cons.mpr ⟨fun j hj => ?_, hbelow⟩, fun j hj => ?_⟩
    · exact Nat.lt_of_le_of_lt (hle j hj) hlt
    · rcases List.mem_cons.mp hj with rfl | hj
      · exact Nat.le_refl _
      · exact Nat.le_trans (hle j hj) (Nat.le_of_lt hlt)

theorem ancestors_eq_cons (ht : t.Descends) {i a : Nat} (ha : (t.node i).parent = some a) :
    t.ancestors i = i :: t.ancestors a :=
  (climbs_ancestors ht i).unique (.step ha (climbs_ancestors ht a))

theorem has_of_holds {parent : Nat} {p : Place} {rs : List (Rose Token)}
    (h : EmbedsAll t parent p rs) {e : Element} (he : Holds p rs e) : t.Has e := by
  have hnodes := h.nodes.length_le
  have htokens := h.tokens.length_le
  rw [length_nodeRecordsAll] at hnodes
  rw [length_tokenRecordsAll] at htokens
  cases e <;> simp only [Holds, Has] at he ⊢ <;> omega

theorem parent?_element {parent : Nat} {p : Place} {r : Rose Token}
    (h : Embeds t (some parent) p r) : t.parent? (element p r) = some parent := by
  cases r with
  | token tok => rw [element, parent?, h.token_eq]; rfl
  | node label children => rw [element, parent?, h.node_eq]

theorem parent?_of_mem_elements {parent : Nat} {p : Place} {rs : List (Rose Token)}
    (h : EmbedsAll t parent p rs) {e : Element} (he : e ∈ Rose.elements p rs) :
    t.parent? e = some parent := by
  induction rs generalizing p with
  | nil => cases he
  | cons r rs ih =>
    rcases List.mem_cons.mp he with rfl | he
    · exact parent?_element h.first
    · exact ih h.others he

theorem elements_of_embeds {q : Option Nat} {p : Place} {label : Label}
    {children : List (Rose Token)} (h : Embeds t q p (.node label children)) :
    t.elements p.node = Rose.elements (placeInside p) children := by
  rw [elements, h.node_eq]

mutual

theorem mem_parent_of_embeds {q : Option Nat} {p : Place} (r : Rose Token) (h : Embeds t q p r)
    {e : Element} (he : Holds p [r] e) :
    e = element p r ∨ ∃ n < t.nodes.size, t.parent? e = some n ∧ e ∈ t.elements n := by
  cases r with
  | token tok => exact .inl (holds_token.mp he)
  | node label children =>
    rcases holds_node.mp he with he | he
    · exact .inl he
    · refine .inr ?_
      rcases mem_parent_of_embedsAll children h.children he with hmem | hbelow
      · refine ⟨p.node, ?_, parent?_of_mem_elements h.children hmem, ?_⟩
        · exact (Array.getElem?_eq_some_iff.mp h.nodes.getElem?_eq).1
        · rwa [elements_of_embeds h]
      · exact hbelow

/-- What an embedded forest holds is the element of one of its trees, or it is listed by the
node from which it hangs. -/
theorem mem_parent_of_embedsAll {parent : Nat} {p : Place} (rs : List (Rose Token))
    (h : EmbedsAll t parent p rs) {e : Element} (he : Holds p rs e) :
    e ∈ Rose.elements p rs ∨ ∃ n < t.nodes.size, t.parent? e = some n ∧ e ∈ t.elements n := by
  cases rs with
  | nil => exact absurd he not_holds_nil
  | cons r rs =>
    rw [Rose.elements, List.mem_cons]
    rcases holds_cons.mp he with he | he
    · exact (mem_parent_of_embeds r h.first he).imp .inl id
    · exact (mem_parent_of_embedsAll rs h.others he).imp .inr id

end

end

section

variable {text : String} {label : Label} {children : List (Rose Token)}

theorem has_arena_iff {e : Element} :
    (arena text (.node label children)).Has e ↔ Holds .front [.node label children] e := by
  cases e with
  | node n => simp [Has, Holds, size_nodes_arena, Place.front, labelsAll, labels]
  | token i => simp [Has, Holds, size_tokens_arena, Place.front, leavesAll]

/-- Every node of an arena has its tree embedded below it. -/
theorem exists_embeds_arena {n : Nat} (hn : n < (arena text (.node label children)).nodes.size) :
    ∃ q p l cs, p.node = n ∧ Embeds (arena text (.node label children)) q p (.node l cs) := by
  by_cases hroot : n = 0
  · exact ⟨none, .front, label, children, hroot.symm, embeds_arena text (.node label children)⟩
  · have htrivial := everywhereAll_of_forall (P := fun _ _ => True) (fun _ _ => trivial)
      (placeInside .front) children
    obtain ⟨q, p, l, cs, hp, hembeds, -⟩ := exists_place_of_lt htrivial hroot hn
    exact ⟨q, p, l, cs, hp, hembeds⟩

theorem exists_parent_arena {e : Element} (h : (arena text (.node label children)).Has e)
    (he : e ≠ root) :
    ∃ n < (arena text (.node label children)).nodes.size,
      (arena text (.node label children)).parent? e = some n ∧
        e ∈ (arena text (.node label children)).elements n := by
  have hembeds := embeds_arena text (.node label children)
  exact (mem_parent_of_embeds _ hembeds (has_arena_iff.mp h)).resolve_left he

theorem parent_of_mem_arena {n : Nat} {e : Element}
    (h : e ∈ (arena text (.node label children)).elements n) :
    (arena text (.node label children)).Has e ∧
      (arena text (.node label children)).parent? e = some n ∧
        ((arena text (.node label children)).elements n).Nodup := by
  by_cases hn : n < (arena text (.node label children)).nodes.size
  · obtain ⟨q, p, l, cs, rfl, hembeds⟩ := exists_embeds_arena hn
    rw [elements_of_embeds hembeds] at h ⊢
    exact ⟨has_of_holds hembeds.children (holds_of_mem_elements h),
      parent?_of_mem_elements hembeds.children h, nodup_elements _ _⟩
  · rw [elements, node_of_size_le (Nat.not_lt.mp hn)] at h
    cases h

theorem parent_root_arena : ((arena text (.node label children)).node 0).parent = none :=
  congrArg NodeRecord.parent (embeds_arena text (.node label children)).node_eq

theorem parent_arena_eq_none_iff {n : Nat}
    (hn : n < (arena text (.node label children)).nodes.size) :
    ((arena text (.node label children)).node n).parent = none ↔ n = 0 := by
  constructor
  · intro hnone
    apply Decidable.byContradiction
    intro hroot
    have hhas : (arena text (.node label children)).Has (.node n) := hn
    obtain ⟨a, -, ha, -⟩ := exists_parent_arena hhas (by simpa [root] using hroot)
    rw [parent?, hnone] at ha
    cases ha
  · rintro rfl
    exact parent_root_arena

theorem linked_arena : (arena text (.node label children)).Linked := by
  have hdescends : (arena text (.node label children)).Descends := descends_arena
  constructor
  · exact has_arena_iff.mpr holds_element
  · exact fun n e h => ⟨(parent_of_mem_arena h).1, (parent_of_mem_arena h).2.1⟩
  · intro e h he
    obtain ⟨n, hn, hparent, -⟩ := exists_parent_arena h he
    exact ⟨n, hn, hparent⟩
  · intro e h he n
    split
    · rename_i hparent
      obtain ⟨a, -, ha, hmem⟩ := exists_parent_arena h he
      obtain rfl := Option.some.inj (ha.symm.trans hparent)
      exact List.count_eq_one_of_mem (parent_of_mem_arena hmem).2.2 hmem
    · rename_i hparent
      exact List.count_eq_zero_of_not_mem fun hmem => hparent (parent_of_mem_arena hmem).2.1
  · exact fun n j h => hdescends j n (parent_of_mem_arena h).2.1
  · exact fun n hn => parent_arena_eq_none_iff hn
  · intro n hn
    have hclimbs := climbs_ancestors hdescends n
    obtain ⟨hpairwise, hle⟩ := hclimbs.pairwise hdescends
    obtain ⟨j, hmem, hlast, hj⟩ := hclimbs.getLast?_eq
    obtain rfl := (parent_arena_eq_none_iff (Nat.lt_of_le_of_lt (hle j hmem) hn)).mp hj
    exact ⟨hclimbs, hpairwise, hclimbs.head?_eq, hlast⟩

end

end Tree

open Builder in
/-- Whatever steps a builder accepts, in the tree that it finishes parents and children agree:
every element but the root hangs from one node, which has a smaller number and lists it once,
no other node lists it, and from every node the parents lead to the root. -/
theorem build_linked {text : String} {ss : List BuildStep} {t : Tree}
    (h : build text ss = .ok t) : t.Linked := by
  obtain ⟨label, children, rfl, hextent, hlimit⟩ := exists_node_of_build h
  rw [build_steps hextent hlimit] at h
  obtain rfl := Except.ok.inj h
  exact Tree.linked_arena

open Builder in
/-- An empty node between tokens, and a node in a node. -/
theorem build_linked_nested :
    ∃ t, build "a b" [.start (.plain .template), .token ⟨.content, 2⟩, .start (.plain .params),
        .finish, .start (.plain .path), .start (.failure "invalid token"), .token ⟨.ident, 1⟩,
        .finish, .finish, .finish] = .ok t ∧
      t.elements 0 = [.token 0, .node 1, .node 2] ∧ t.ancestors 3 = [3, 2, 0] ∧ t.Linked := by
  have hbuild : build "a b" [.start (.plain .template), .token ⟨.content, 2⟩,
      .start (.plain .params), .finish, .start (.plain .path), .start (.failure "invalid token"),
      .token ⟨.ident, 1⟩, .finish, .finish, .finish] = .ok _ := rfl
  exact ⟨_, hbuild, rfl, rfl, build_linked hbuild⟩

end TemplateTree
