import TemplateTree.Proofs.Tree.Links
import TemplateTree.Proofs.Tree.Slices

/-!
# Subtrees

What is below a node makes up a stretch of the tables: the nodes have the numbers that
follow on that of the node, and they are those that it is above; the tokens have numbers
that follow on each other. The walk from the node is a stretch of the walk from the root,
which comes by no element twice. The spans of the children are laid end to end over the
span of the node, and a node without tokens stands where the token before it ends.
-/

namespace TemplateTree

open Rose

namespace Tree

/-- Where the last token ends that a walk from the root enters before it enters a node. -/
def endBefore (t : Tree) (n : Nat) : Nat :=
  ((t.tokensBefore n).getLast?.map fun i => (t.token i).span.stop).getD 0

/-- What is below a node makes up a stretch. -/
structure Contiguous (t : Tree) : Prop where
  /-- The nodes from a node on are numbered consecutively, and they are those that have it
  among their ancestors. -/
  descendants : ∀ n < t.nodes.size,
    (∃ count, t.descendants n = List.range' n count) ∧
      ∀ m, m ∈ t.descendants n ↔ m < t.nodes.size ∧ n ∈ t.ancestors m
  tokens : ∀ n < t.nodes.size, ∃ first count,
    t.tokensBelow n = List.range' first count ∧ first + count ≤ t.tokens.size
  /-- No step is taken twice, so that the next two parts tell where the walk from a node begins
  and where it ends. -/
  nodup_walk : (t.walk root).Nodup
  stretch : ∀ n < t.nodes.size, ∃ before after, t.walk root = before ++ t.walk (.node n) ++ after
  ends : ∀ n, ∃ inside, t.walk (.node n) = .enter (.node n) :: (inside ++ [.leave (.node n)])
  tiles : ∀ n < t.nodes.size,
    Tiles (t.node n).span.start ((t.elements n).map t.span) (t.node n).span.stop
  empty : ∀ n < t.nodes.size, t.tokensBelow n = [] →
    (t.node n).span = ⟨t.endBefore n, t.endBefore n⟩

section

variable {t : Tree}

mutual

theorem nodup_walkUpTo {q : Option Nat} {p : Place} (r : Rose Token) (h : Embeds t q p r)
    (depth : Nat) : (t.walkUpTo depth (element p r)).Nodup := by
  cases depth with
  | zero => exact .nil
  | succ depth =>
    cases r with
    | token tok => simp [element, walkUpTo]
    | node label children =>
      have hchildren := nodup_walkUpTo_elements children h.children depth
      have hinside : ∀ {s},
          s ∈ (Rose.elements (placeInside p) children).flatMap (t.walkUpTo depth) →
            s.element ≠ .node p.node :=
        fun hs => (holds_of_mem_elements_walkUpTo children h.children depth hs).ne_node
      rw [element, walkUpTo, elements_of_embeds h, List.nodup_cons, List.mem_append, not_or,
        List.nodup_append]
      refine ⟨⟨fun hs => hinside hs rfl, by simp⟩, hchildren, List.nodup_singleton _, ?_⟩
      intro s hs u hu hsu
      rw [List.mem_singleton.mp hu] at hsu
      exact hinside hs (by rw [hsu]; rfl)

/-- A walk through an embedded forest takes no step twice. -/
theorem nodup_walkUpTo_elements {parent : Nat} {p : Place} (rs : List (Rose Token))
    (h : EmbedsAll t parent p rs) (depth : Nat) :
    ((Rose.elements p rs).flatMap (t.walkUpTo depth)).Nodup := by
  cases rs with
  | nil => exact .nil
  | cons r rs =>
    rw [Rose.elements, List.flatMap_cons, List.nodup_append]
    refine ⟨nodup_walkUpTo r h.first depth, nodup_walkUpTo_elements rs h.others depth, ?_⟩
    intro s hs u hu hsu
    have hfirst := holds_of_mem_walkUpTo r h.first depth hs
    have hothers := holds_of_mem_elements_walkUpTo rs h.others depth hu
    rw [hsu] at hfirst
    exact hothers.not_first hfirst

end

theorem visit_injective (t : Tree) : Function.Injective t.visit := by
  have hsight : ∀ {e e' : Element}, t.sight e = t.sight e' → e = e' := by
    intro e e' h
    cases e <;> cases e' <;> simp_all [sight]
  intro s s' h
  cases s <;> cases s' <;>
    simp only [visit, Visit.enter.injEq, Visit.leave.injEq, reduceCtorEq] at h
  · rw [hsight h]
  · rw [hsight h]

/-- Any two bounds on the depth that suffice give the same walk. -/
theorem walkUpTo_eq_walk {q : Option Nat} {p : Place} {r : Rose Token} (h : Embeds t q p r)
    {depth : Nat} (hd : r.labels.length < depth) :
    t.walkUpTo depth (element p r) = t.walk (element p r) := by
  have hsize := h.nodes.length_le
  rw [length_nodeRecords] at hsize
  have hwalk := map_visit_walkUpTo r h depth hd [] []
  rw [map_visit_walkUpTo r h (t.nodes.size + 1) (by omega) [] []] at hwalk
  exact List.map_injective_iff.mpr t.visit_injective (List.append_cancel_right hwalk).symm

mutual

theorem exists_stretch_walkUpTo {q : Option Nat} {p : Place} (r : Rose Token) (h : Embeds t q p r)
    (depth : Nat) (hd : r.labels.length < depth) {e : Element} (he : Holds p [r] e) :
    ∃ before after, t.walkUpTo depth (element p r) = before ++ t.walk e ++ after := by
  obtain ⟨depth, rfl⟩ := Nat.exists_eq_succ_of_ne_zero (Nat.ne_zero_of_lt hd)
  have hself : e = element p r →
      ∃ before after, t.walkUpTo (depth + 1) (element p r) = before ++ t.walk e ++ after := by
    rintro rfl
    exact ⟨[], [], by rw [walkUpTo_eq_walk h hd]; simp⟩
  cases r with
  | token tok => exact hself (holds_token.mp he)
  | node label children =>
    rcases holds_node.mp he with he | he
    · exact hself he
    · have hinside : (labelsAll children).length < depth := by simpa [labels] using hd
      obtain ⟨before, after, hsteps⟩ :=
        exists_stretch_walkUpTo_elements children h.children depth hinside he
      refine ⟨.enter (.node p.node) :: before, after ++ [.leave (.node p.node)], ?_⟩
      rw [element, walkUpTo, elements_of_embeds h, hsteps]
      simp

/-- The walk from an element that an embedded forest holds is a stretch of the walk through
the forest. -/
theorem exists_stretch_walkUpTo_elements {parent : Nat} {p : Place} (rs : List (Rose Token))
    (h : EmbedsAll t parent p rs) (depth : Nat) (hd : (labelsAll rs).length < depth) {e : Element}
    (he : Holds p rs e) :
    ∃ before after, (Rose.elements p rs).flatMap (t.walkUpTo depth) =
      before ++ t.walk e ++ after := by
  cases rs with
  | nil => exact absurd he not_holds_nil
  | cons r rs =>
    rw [labelsAll, List.length_append] at hd
    rw [Rose.elements, List.flatMap_cons]
    rcases holds_cons.mp he with he | he
    · obtain ⟨before, after, hsteps⟩ := exists_stretch_walkUpTo r h.first depth (by omega) he
      exact ⟨before, after ++ _, by rw [hsteps, List.append_assoc]⟩
    · obtain ⟨before, after, hsteps⟩ :=
        exists_stretch_walkUpTo_elements rs h.others depth (by omega) he
      refine ⟨t.walkUpTo depth (element p r) ++ before, after, ?_⟩
      rw [hsteps, List.append_assoc, List.append_assoc, List.append_assoc]

end

theorem descendants_of_embeds {q : Option Nat} {p : Place} {label : Label}
    {children : List (Rose Token)} (h : Embeds t q p (.node label children)) :
    t.descendants p.node = List.range' p.node ((labelsAll children).length + 1) := by
  have hsize := h.nodes.length_le
  rw [length_nodeRecords] at hsize
  exact enteredNodes_walkUpTo (.node label children) h _ (by omega)

theorem mem_descendants_iff_holds {q : Option Nat} {p : Place} {label : Label}
    {children : List (Rose Token)} (h : Embeds t q p (.node label children)) {m : Nat} :
    m ∈ t.descendants p.node ↔ Holds p [.node label children] (.node m) := by
  rw [descendants_of_embeds h, List.mem_range'_1]
  simp [Holds, labelsAll, labels]

mutual

theorem ancestors_of_embeds (ht : t.Descends) {parent : Nat} {p : Place} (r : Rose Token)
    (h : Embeds t (some parent) p r) {m : Nat} (hm : Holds p [r] (.node m)) :
    ∃ inner, t.ancestors m = inner ++ t.ancestors parent ∧ ∀ n ∈ inner, m ∈ t.descendants n := by
  cases r with
  | token tok => cases holds_token.mp hm
  | node label children =>
    have habove : t.ancestors p.node = p.node :: t.ancestors parent :=
      ancestors_eq_cons ht (by rw [h.node_eq])
    have hbelow := (mem_descendants_iff_holds h).mpr hm
    rcases holds_node.mp hm with hself | hinside
    · obtain rfl := Element.node.inj hself
      exact ⟨[p.node], habove, by simpa using hbelow⟩
    · obtain ⟨inner, hancestors, hinner⟩ := ancestors_of_embedsAll ht children h.children hinside
      refine ⟨inner ++ [p.node], ?_, ?_⟩
      · rw [hancestors, habove]
        simp
      · intro n hn
        rcases List.mem_append.mp hn with hn | hn
        · exact hinner n hn
        · rwa [List.mem_singleton.mp hn]

/-- Above a node of an embedded forest there are, in this order, nodes that it is below, and
the nodes above the forest. -/
theorem ancestors_of_embedsAll (ht : t.Descends) {parent : Nat} {p : Place}
    (rs : List (Rose Token)) (h : EmbedsAll t parent p rs) {m : Nat} (hm : Holds p rs (.node m)) :
    ∃ inner, t.ancestors m = inner ++ t.ancestors parent ∧ ∀ n ∈ inner, m ∈ t.descendants n := by
  cases rs with
  | nil => exact absurd hm not_holds_nil
  | cons r rs =>
    rcases holds_cons.mp hm with hm | hm
    · exact ancestors_of_embeds ht r h.first hm
    · exact ancestors_of_embedsAll ht rs h.others hm

end

theorem span_element {q : Option Nat} {p : Place} {r : Rose Token} (h : Embeds t q p r) :
    t.span (element p r) = ⟨p.offset, (placeAfter p [r]).offset⟩ := by
  cases r with
  | token tok => simp [element, span, h.token_eq, placeAfter, leavesAll, leaves, Rose.extent]
  | node label children => simp [element, span, h.node_eq, placeAfter, leavesAll, leaves]

/-- The elements of an embedded forest are laid end to end. -/
theorem tiles_elements {parent : Nat} {p : Place} {rs : List (Rose Token)}
    (h : EmbedsAll t parent p rs) :
    Tiles p.offset ((Rose.elements p rs).map t.span) (placeAfter p rs).offset := by
  induction rs generalizing p with
  | nil => simp [Rose.elements, Tiles, placeAfter, leavesAll]
  | cons r rs ih =>
    rw [Rose.elements, List.map_cons, span_element h.first, placeAfter_cons p r rs]
    exact ⟨rfl, Nat.le_add_right _ _, ih h.others⟩

end

section

variable {text : String} {label : Label} {children : List (Rose Token)}

theorem mem_descendants_arena_iff {n m : Nat}
    (hn : n < (arena text (.node label children)).nodes.size) :
    m ∈ (arena text (.node label children)).descendants n ↔
      m < (arena text (.node label children)).nodes.size ∧
        n ∈ (arena text (.node label children)).ancestors m := by
  have hdescends : (arena text (.node label children)).Descends := descends_arena
  have hall : ∀ {m}, m ∈ (arena text (.node label children)).descendants 0 ↔
      m < (arena text (.node label children)).nodes.size := by
    intro m
    rw [descendants_arena, List.mem_range]
  obtain ⟨q, p, l, cs, rfl, hembeds⟩ := exists_embeds_arena hn
  constructor
  · intro hm
    rcases holds_node.mp ((mem_descendants_iff_holds hembeds).mp hm) with hself | hinside
    · obtain rfl := Element.node.inj hself
      exact ⟨hn, self_mem_ancestors _ _⟩
    · obtain ⟨inner, hancestors, -⟩ := ancestors_of_embedsAll hdescends cs hembeds.children hinside
      refine ⟨has_of_holds hembeds.children hinside, ?_⟩
      rw [hancestors]
      exact List.mem_append_right _ (self_mem_ancestors _ _)
  · rintro ⟨hm, habove⟩
    have hroot := (climbs_ancestors hdescends 0).unique (.top parent_root_arena)
    rcases holds_node.mp (has_arena_iff.mp (show Has _ (.node m) from hm)) with hself | hinside
    · obtain rfl := Element.node.inj hself
      rw [show Place.front.node = 0 from rfl, hroot, List.mem_singleton] at habove
      rw [habove, hall]
      exact hm
    · obtain ⟨inner, hancestors, hinner⟩ := ancestors_of_embedsAll hdescends children
        (embeds_arena text (.node label children)).children hinside
      rw [hancestors, show Place.front.node = 0 from rfl, hroot, List.mem_append,
        List.mem_singleton] at habove
      rcases habove with habove | habove
      · exact hinner _ habove
      · rwa [habove, hall]

theorem endBefore_arena {n : Nat} {before after : List Token}
    (hsplit : leavesAll children = before ++ after)
    (hbefore : (arena text (.node label children)).tokensBefore n = List.range before.length) :
    (arena text (.node label children)).endBefore n = extent before := by
  rw [endBefore, hbefore]
  rcases List.eq_nil_or_concat before with rfl | ⟨front, tok, rfl⟩
  · rfl
  · rw [List.concat_eq_append] at hsplit ⊢
    have htok : (Rose.node label children).leaves[front.length]? = some tok := by
      rw [leaves, hsplit]
      simp
    have htake : (leavesAll children).take (front.length + 1) = front ++ [tok] := by
      rw [hsplit]
      exact List.take_left' (by simp)
    rw [List.length_append, List.length_singleton, List.range_succ, List.getLast?_concat,
      Option.map_some, Option.getD_some, (token_arena text (.node label children) htok).2, leaves,
      htake]

/-- The walk from an element of an arena is a stretch of the walk from the root. -/
theorem exists_stretch_walk_arena {e : Element}
    (he : (arena text (.node label children)).Has e) :
    ∃ before after, (arena text (.node label children)).walk root =
      before ++ (arena text (.node label children)).walk e ++ after := by
  have hsize := size_nodes_arena text (.node label children)
  exact exists_stretch_walkUpTo (.node label children) (embeds_arena text (.node label children)) _
    (by omega) (has_arena_iff.mp he)

theorem nodup_walk_arena : ((arena text (.node label children)).walk root).Nodup :=
  nodup_walkUpTo (.node label children) (embeds_arena text (.node label children)) _

theorem contiguous_arena : (arena text (.node label children)).Contiguous := by
  constructor
  · intro n hn
    obtain ⟨q, p, l, cs, rfl, hnode⟩ := exists_embeds_arena hn
    exact ⟨⟨_, descendants_of_embeds hnode⟩, fun m => mem_descendants_arena_iff hn⟩
  · intro n hn
    obtain ⟨before, inside, after, hsplit, -, -, hbelow⟩ := exists_stretch_arena hn
    refine ⟨before.length, inside.length, hbelow, ?_⟩
    rw [size_tokens_arena, leaves, hsplit, List.length_append, List.length_append]
    omega
  · exact nodup_walk_arena
  · exact fun n hn => exists_stretch_walk_arena (show Has _ (.node n) from hn)
  · exact fun n => ⟨_, rfl⟩
  · intro n hn
    obtain ⟨q, p, l, cs, rfl, hnode⟩ := exists_embeds_arena hn
    rw [elements_of_embeds hnode, hnode.node_eq]
    exact tiles_elements hnode.children
  · intro n hn hnone
    obtain ⟨before, inside, after, hsplit, hspan, hbefore, hbelow⟩ := exists_stretch_arena hn
    rw [hbelow, List.range'_eq_nil_iff, List.length_eq_zero_iff] at hnone
    subst hnone
    rw [List.append_assoc] at hsplit
    rw [hspan, endBefore_arena hsplit hbefore]
    rfl

end

end Tree

open Builder in
/-- In every tree that a builder finishes, each node has a stretch of the tables below it: the
nodes that have it among their ancestors, numbered on from it, and tokens that follow on each
other. The walk from it is a stretch of the walk from the root, its children are laid end to end
over its span, and if it has no tokens it stands where the token before it ends. -/
theorem build_contiguous {text : String} {ss : List BuildStep} {t : Tree}
    (h : build text ss = .ok t) : t.Contiguous := by
  obtain ⟨label, children, rfl, hextent, hlimit⟩ := exists_node_of_build h
  rw [build_steps hextent hlimit] at h
  obtain rfl := Except.ok.inj h
  exact Tree.contiguous_arena

open Builder in
/-- Between two tokens, an empty node in a node whose only token has no length. -/
theorem build_contiguous_empty :
    ∃ t, build "ab" [.start (.plain .template), .token ⟨.content, 1⟩, .start (.plain .params),
        .token ⟨.blank, 0⟩, .start (.failure "expected a parameter"), .finish, .finish,
        .token ⟨.content, 1⟩, .finish] = .ok t ∧
      t.descendants 1 = [1, 2] ∧ t.tokensBelow 1 = [1] ∧ t.tokensBefore 2 = [0, 1] ∧
      (t.node 2).span = ⟨1, 1⟩ ∧ t.Contiguous := by
  have hbuild : build "ab" [.start (.plain .template), .token ⟨.content, 1⟩,
      .start (.plain .params), .token ⟨.blank, 0⟩, .start (.failure "expected a parameter"),
      .finish, .finish, .token ⟨.content, 1⟩, .finish] = .ok _ := rfl
  exact ⟨_, hbuild, rfl, rfl, by decide, rfl, build_contiguous hbuild⟩

end TemplateTree
