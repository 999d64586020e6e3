import TemplateTree.Proofs.Rose.Placing
import TemplateTree.Proofs.Tree.Coverage

/-!
# Looking up nodes and tokens

What can be found in the tables of a tree in which a rose tree is embedded. A walk
meets every node, and before that it has entered exactly the tokens before the
place of the node. A node has a range of tokens below it, and it stands above
every node from which one of these tokens hangs. A condition that holds
everywhere in the rose tree is handed on to the node that was looked up.
-/

namespace TemplateTree

open Rose

theorem StandsAt.length_le {α : Type} {table : Array α} {n : Nat} {xs : List α}
    (h : StandsAt table n xs) : n + xs.length ≤ table.size := by
  obtain ⟨before, after, he, rfl⟩ := h
  have hsize := congrArg List.length he
  simp only [Array.length_toList, List.length_append] at hsize
  omega

namespace Rose

/-- The element has its record among those of a forest at this place. -/
def Holds (p : Place) (rs : List (Rose Token)) : Element → Prop
  | .node n => p.node ≤ n ∧ n < p.node + (labelsAll rs).length
  | .token i => p.token ≤ i ∧ i < p.token + (leavesAll rs).length

section

variable {p : Place} {e : Element} {r : Rose Token} {rs : List (Rose Token)}

theorem not_holds_nil : ¬ Holds p [] e := by
  cases e <;> simp [Holds, labelsAll, leavesAll]

theorem holds_cons : Holds p (r :: rs) e ↔ Holds p [r] e ∨ Holds (placeAfter p [r]) rs e := by
  cases e <;> simp [Holds, placeAfter, labelsAll, leavesAll] <;> omega

theorem holds_node {label : Label} {children : List (Rose Token)} :
    Holds p [.node label children] e ↔ e = .node p.node ∨ Holds (placeInside p) children e := by
  cases e <;> simp [Holds, placeInside, labelsAll, labels, leavesAll, leaves]
  omega

theorem holds_token {tok : Token} : Holds p [.token tok] e ↔ e = .token p.token := by
  cases e <;> simp [Holds, labelsAll, labels, leavesAll, leaves]
  omega

/-- What a forest holds comes behind the trees before it. -/
theorem Holds.not_first (h : Holds (placeAfter p [r]) rs e) : ¬ Holds p [r] e := by
  cases e <;> simp only [Holds, placeAfter] at h ⊢ <;> omega

theorem Holds.ne_node {children : List (Rose Token)} (h : Holds (placeInside p) children e) :
    e ≠ .node p.node := by
  rintro rfl
  simp only [Holds, placeInside] at h
  omega

theorem holds_element : Holds p [r] (element p r) := by
  cases r with
  | token tok => exact holds_token.mpr rfl
  | node label children => exact holds_node.mpr (.inl rfl)

theorem holds_of_mem_elements (h : e ∈ elements p rs) : Holds p rs e := by
  induction rs generalizing p with
  | nil => cases h
  | cons r rs ih =>
    rcases List.mem_cons.mp h with rfl | h
    · exact holds_cons.mpr (.inl holds_element)
    · exact holds_cons.mpr (.inr (ih h))

theorem nodup_elements (p : Place) (rs : List (Rose Token)) : (elements p rs).Nodup := by
  induction rs generalizing p with
  | nil => exact .nil
  | cons r rs ih =>
    refine List.nodup_cons.mpr ⟨fun h => ?_, ih _⟩
    exact (holds_of_mem_elements h).not_first holds_element

end

end Rose

/-- The element that a step of a walk enters or leaves. -/
def WalkStep.element : WalkStep → Element
  | enter e => e
  | leave e => e

namespace Tree

/-- The tokens that a walk from the root enters before it enters a node. -/
def tokensBefore (t : Tree) (n : Nat) : List Nat :=
  enteredTokens ((t.walk root).takeWhile fun s => s ≠ .enter (.node n))

variable {t : Tree}

theorem tokensBelow_of_embeds {q : Option Nat} {p : Place} {label : Label}
    {children : List (Rose Token)} (h : Embeds t q p (.node label children)) :
    t.tokensBelow p.node = List.range' p.token (leavesAll children).length := by
  have hsize := h.nodes.length_le
  rw [length_nodeRecords] at hsize
  exact enteredTokens_walkUpTo (.node label children) h _ (by omega)

mutual

theorem holds_of_mem_walkUpTo {parent : Option Nat} {p : Place} (r : Rose Token)
    (h : Embeds t parent p r) (depth : Nat) {s : WalkStep}
    (hs : s ∈ t.walkUpTo depth (element p r)) : Holds p [r] s.element := by
  cases depth with
  | zero => cases hs
  | succ depth =>
    cases r with
    | token tok =>
      simp only [element, walkUpTo, List.mem_cons, List.not_mem_nil, or_false] at hs
      rcases hs with rfl | rfl
      · exact holds_element
      · exact holds_element
    | node label children =>
      have hchildren := holds_of_mem_elements_walkUpTo children h.children depth (s := s)
      simp only [element, walkUpTo, elements, h.node_eq, List.mem_cons, List.mem_append,
        List.not_mem_nil, or_false] at hs
      rcases hs with rfl | hs | rfl
      · exact holds_element
      · exact holds_node.mpr (.inr (hchildren hs))
      · exact holds_element

/-- A walk below an embedded forest comes by no elements but those that the forest holds. -/
theorem holds_of_mem_elements_walkUpTo {parent : Nat} {p : Place} (rs : List (Rose Token))
    (h : EmbedsAll t parent p rs) (depth : Nat) {s : WalkStep}
    (hs : s ∈ (Rose.elements p rs).flatMap (t.walkUpTo depth)) : Holds p rs s.element := by
  cases rs with
  | nil => cases hs
  | cons r rs =>
    rw [Rose.elements, List.flatMap_cons, List.mem_append] at hs
    rcases hs with hs | hs
    · exact holds_cons.mpr (.inl (holds_of_mem_walkUpTo r h.first depth hs))
    · exact holds_cons.mpr (.inr (holds_of_mem_elements_walkUpTo rs h.others depth hs))

end

/-- Among the steps of a walk that enters the tokens from `start` on is the entrance
of a node, before which the walk enters exactly the tokens before the place of
the node. -/
def Meets (t : Tree) (P : Place → List (Rose Token) → Prop) (start n : Nat)
    (steps : List WalkStep) : Prop :=
  ∃ q p label children before after, p.node = n ∧ Embeds t q p (.node label children) ∧
    (∀ a, q = some a → a < n) ∧ P p children ∧
    steps = before ++ .enter (.node n) :: after ∧ .enter (.node n) ∉ before ∧
    start ≤ p.token ∧ enteredTokens before = List.range' start (p.token - start)

variable {P : Place → List (Rose Token) → Prop}

theorem Meets.early {start n : Nat} {steps : List WalkStep} (h : t.Meets P start n steps)
    (later : List WalkStep) : t.Meets P start n (steps ++ later) := by
  obtain ⟨q, p, label, children, before, after, hn, he, hq, hP, rfl, hrest⟩ := h
  exact ⟨q, p, label, children, before, after ++ later, hn, he, hq, hP, by simp, hrest⟩

/-- A walk goes on to a node behind steps that do not enter it. -/
theorem Meets.behind {start n count : Nat} {steps earlier : List WalkStep}
    (h : t.Meets P (start + count) n steps) (hn : .enter (.node n) ∉ earlier)
    (htokens : enteredTokens earlier = List.range' start count) :
    t.Meets P start n (earlier ++ steps) := by
  obtain ⟨q, p, label, children, before, after, hnode, he, hq, hP, rfl, hbefore, hle, hentered⟩ := h
  refine ⟨q, p, label, children, earlier ++ before, after, hnode, he, hq, hP, by simp, ?_,
    by omega, ?_⟩
  · simp [hn, hbefore]
  · have hsum : p.token - start = count + (p.token - (start + count)) := by omega
    rw [enteredTokens_append, htokens, hentered, hsum, ← List.range'_append_1]

mutual

theorem meets_walkUpTo {parent : Option Nat} {p : Place} (r : Rose Token)
    (h : Embeds t parent p r) (hparent : ∀ a, parent = some a → a < p.node)
    (hP : Everywhere P p r) (depth : Nat) (hd : r.labels.length < depth) {n : Nat}
    (hn : p.node ≤ n) (hn' : n < p.node + r.labels.length) :
    t.Meets P p.token n (t.walkUpTo depth (element p r)) := by
  obtain ⟨depth, rfl⟩ := Nat.exists_eq_succ_of_ne_zero (Nat.ne_zero_of_lt hd)
  cases r with
  | token tok =>
    rw [labels, List.length_nil] at hn'
    omega
  | node label children =>
    rw [labels, List.length_cons] at hd hn'
    rw [element, walkUpTo, elements, h.node_eq]
    by_cases heq : n = p.node
    · subst heq
      exact ⟨parent, p, label, children, [], _, rfl, h, hparent, hP.1, rfl, by simp,
        Nat.le_refl _, by simp [enteredTokens, entered]⟩
    · have hinside := meets_walkUpTo_elements children h.children (Nat.lt_succ_self _) hP.2 depth
        (by omega) (n := n) (by show p.node + 1 ≤ n; omega) (by show n < p.node + 1 + _; omega)
      refine @Meets.behind t P p.token n 0 _ [.enter (.node p.node)]
        (hinside.early [.leave (.node p.node)]) ?_ rfl
      simpa using heq

/-- A walk below an embedded forest meets each node of the forest. -/
theorem meets_walkUpTo_elements {parent : Nat} {p : Place} (rs : List (Rose Token))
    (h : EmbedsAll t parent p rs) (hparent : parent < p.node) (hP : EverywhereAll P p rs)
    (depth : Nat) (hd : (labelsAll rs).length < depth) {n : Nat} (hn : p.node ≤ n)
    (hn' : n < p.node + (labelsAll rs).length) :
    t.Meets P p.token n ((Rose.elements p rs).flatMap (t.walkUpTo depth)) := by
  cases rs with
  | nil =>
    rw [labelsAll, List.length_nil] at hn'
    omega
  | cons r rs =>
    rw [labelsAll, List.length_append] at hd hn'
    rw [Rose.elements, List.flatMap_cons]
    have hafter : (placeAfter p [r]).node = p.node + r.labels.length := by
      simp [placeAfter, labelsAll]
    by_cases hfirst : n < p.node + r.labels.length
    · refine (meets_walkUpTo r h.first ?_ hP.1 depth (by omega) hn hfirst).early _
      rintro a ⟨⟩
      exact hparent
    · have hothers := meets_walkUpTo_elements rs h.others (by omega) hP.2 depth (by omega)
        (n := n) (by omega) (by omega)
      have htokens := enteredTokens_walkUpTo r h.first depth (by omega)
      have hstart : (placeAfter p [r]).token = p.token + r.leaves.length := by
        simp [placeAfter, leavesAll]
      rw [hstart] at hothers
      refine hothers.behind (fun hmem => ?_) htokens
      have hmem := (holds_of_mem_walkUpTo r h.first depth hmem).2
      rw [labelsAll, labelsAll, List.append_nil] at hmem
      exact hfirst hmem

end

/-- Every node has a greater number than the node above it. -/
def Descends (t : Tree) : Prop := ∀ i a, (t.node i).parent = some a → a < i

theorem self_mem_ancestors (t : Tree) (i : Nat) : i ∈ t.ancestors i := by
  rw [ancestors, ancestorsUpTo]
  split <;> simp

/-- Going from a node to its parent and on from there, the nodes that are met up to one
that has no parent. -/
inductive Climbs (t : Tree) : Nat → List Nat → Prop
  | top {i : Nat} : (t.node i).parent = none → Climbs t i [i]
  | step {i a : Nat} {above : List Nat} :
      (t.node i).parent = some a → Climbs t a above → Climbs t i (i :: above)

theorem Climbs.head?_eq {i : Nat} {l : List Nat} (h : t.Climbs i l) : l.head? = some i := by
  cases h <;> rfl

theorem Climbs.mem_of_parent {i j a : Nat} {l : List Nat} (h : t.Climbs i l) (hj : j ∈ l)
    (ha : (t.node j).parent = some a) : a ∈ l := by
  induction h with
  | top hi =>
    obtain rfl := List.mem_singleton.mp hj
    rw [hi] at ha
    cases ha
  | step hi hrest ih =>
    rcases List.mem_cons.mp hj with rfl | hj
    · obtain rfl := Option.some.inj (hi.symm.trans ha)
      exact List.mem_cons_of_mem _ (List.mem_of_mem_head? hrest.head?_eq)
    · exact List.mem_cons_of_mem _ (ih hj)

theorem climbs_ancestorsUpTo (ht : t.Descends) {bound i : Nat} (hi : i < bound) :
    t.Climbs i (t.ancestorsUpTo bound i) := by
  induction bound generalizing i with
  | zero => cases hi
  | succ bound ih =>
    rw [ancestorsUpTo]
    cases ha : (t.node i).parent with
    | none => exact .top ha
    | some a =>
      have hlt := ht i a ha
      exact .step ha (ih (by omega))

/-- The bound on the number of ancestors is never the reason to stop. -/
theorem climbs_ancestors (ht : t.Descends) (i : Nat) : t.Climbs i (t.ancestors i) :=
  climbs_ancestorsUpTo ht (Nat.lt_succ_self i)

/-- The nodes above a node above a node are above that node. -/
theorem mem_ancestors_of_parent (ht : t.Descends) {i j a : Nat} (h : j ∈ t.ancestors i)
    (ha : (t.node j).parent = some a) : a ∈ t.ancestors i :=
  (climbs_ancestors ht i).mem_of_parent h ha

/-- The node from which a token hangs, where the token is below a node: it is that node
or one below it. -/
def HangsBelow (t : Tree) (P : Place → List (Rose Token) → Prop) (parent x : Nat) : Prop :=
  parent ∈ t.ancestors (t.token x).parent ∧
    ((t.token x).parent = parent ∨
      ∃ q p label children, p.node = (t.token x).parent ∧ Embeds t q p (.node label children) ∧
        P p children ∧ p.token ≤ x ∧ x < p.token + (leavesAll children).length)

mutual

theorem hangsBelow_of_embeds (ht : t.Descends) {parent : Nat} {p : Place} (r : Rose Token)
    (h : Embeds t (some parent) p r) (hP : Everywhere P p r) {x : Nat} (hx : p.token ≤ x)
    (hx' : x < p.token + r.leaves.length) : t.HangsBelow P parent x := by
  cases r with
  | token tok =>
    rw [leaves, List.length_singleton] at hx'
    obtain rfl : x = p.token := by omega
    have hparent : (t.token p.token).parent = parent := by rw [h.token_eq]; rfl
    rw [HangsBelow, hparent]
    exact ⟨t.self_mem_ancestors parent, .inl rfl⟩
  | node label children =>
    obtain ⟨habove, hbelow⟩ := hangsBelow_of_embedsAll ht children h.children hP.2 (x := x) hx hx'
    have hparent : (t.node p.node).parent = some parent := by rw [h.node_eq]
    refine ⟨mem_ancestors_of_parent ht habove hparent, .inr ?_⟩
    rcases hbelow with hbelow | hbelow
    · exact ⟨_, p, label, children, hbelow.symm, h, hP.1, hx, hx'⟩
    · exact hbelow

/-- The tokens of an embedded forest hang from the node around it or from its nodes. -/
theorem hangsBelow_of_embedsAll (ht : t.Descends) {parent : Nat} {p : Place}
    (rs : List (Rose Token)) (h : EmbedsAll t parent p rs) (hP : EverywhereAll P p rs) {x : Nat}
    (hx : p.token ≤ x) (hx' : x < p.token + (leavesAll rs).length) : t.HangsBelow P parent x := by
  cases rs with
  | nil =>
    rw [leavesAll, List.length_nil] at hx'
    omega
  | cons r rs =>
    rw [leavesAll, List.length_append] at hx'
    have hstart : (placeAfter p [r]).token = p.token + r.leaves.length := by
      simp [placeAfter, leavesAll]
    by_cases hfirst : x < p.token + r.leaves.length
    · exact hangsBelow_of_embeds ht r h.first hP.1 hx hfirst
    · exact hangsBelow_of_embedsAll ht rs h.others hP.2 (by omega) (by omega)

end

section

variable {text : String} {label : Label} {children : List (Rose Token)}

theorem walk_root_arena :
    (arena text (.node label children)).walk root = .enter (.node 0) ::
      ((Rose.elements (placeInside .front) children).flatMap
        ((arena text (.node label children)).walkUpTo
          (arena text (.node label children)).nodes.size) ++ [.leave (.node 0)]) := by
  have hroot := congrArg NodeRecord.children
    (embeds_arena text (.node label children)).node_eq
  rw [walk, root, walkUpTo, elements, show (0 : Nat) = Place.front.node from rfl, hroot]

/-- The walk from the root of an arena meets every node. -/
theorem meets_arena (hP : EverywhereAll P (placeInside .front) children) {n : Nat} (hn : n ≠ 0)
    (hn' : n < (arena text (.node label children)).nodes.size) :
    (arena text (.node label children)).Meets P 0 n
      ((Rose.elements (placeInside .front) children).flatMap
        ((arena text (.node label children)).walkUpTo
          (arena text (.node label children)).nodes.size)) := by
  have hsize := size_nodes_arena text (.node label children)
  rw [labels, List.length_cons] at hsize
  have hembeds := (embeds_arena text (.node label children)).children
  exact meets_walkUpTo_elements children hembeds (Nat.lt_succ_self _) hP _ (by omega)
    (by show 0 + 1 ≤ n; omega) (by show n < 0 + 1 + _; omega)

theorem node_of_size_le {n : Nat} (h : t.nodes.size ≤ n) : t.node n = default := by
  simp [node, h]

theorem descends_arena : (arena text (.node label children)).Descends := by
  intro i a ha
  by_cases hi : i = 0
  · subst hi
    have hroot := congrArg NodeRecord.parent (embeds_arena text (.node label children)).node_eq
    rw [show (0 : Nat) = Place.front.node from rfl, hroot] at ha
    cases ha
  · by_cases hsize : i < (arena text (.node label children)).nodes.size
    · obtain ⟨q, p, _, _, _, _, hp, hembeds, hq, -⟩ := meets_arena
        (everywhereAll_of_forall (P := fun _ _ => True) (fun _ _ => trivial) _ children) hi hsize
      refine hq a ?_
      rw [← ha, ← hp, hembeds.node_eq]
    · rw [node_of_size_le (Nat.not_lt.mp hsize)] at ha
      cases ha

/-- What has a token below it is a node of the tree. -/
theorem embeds_of_mem_tokensBelow (hP : EverywhereAll P (placeInside .front) children)
    {n x : Nat} (hx : x ∈ (arena text (.node label children)).tokensBelow n) :
    ∃ q p l cs, p.node = n ∧ Embeds (arena text (.node label children)) q p (.node l cs) ∧
      (n = 0 ∨ P p cs) ∧ p.token ≤ x ∧ x < p.token + (leavesAll cs).length := by
  have hrange : ∀ {q p l cs}, p.node = n →
      Embeds (arena text (.node label children)) q p (.node l cs) →
        p.token ≤ x ∧ x < p.token + (leavesAll cs).length := by
    intro q p l cs hp hembeds
    rw [← hp, tokensBelow_of_embeds hembeds, List.mem_range'_1] at hx
    exact hx
  by_cases hn : n = 0
  · have hembeds := embeds_arena text (.node label children)
    exact ⟨_, _, _, _, hn.symm, hembeds, .inl hn, hrange hn.symm hembeds⟩
  · by_cases hsize : n < (arena text (.node label children)).nodes.size
    · obtain ⟨q, p, l, cs, _, _, hp, hembeds, -, hcs, -⟩ := meets_arena hP hn hsize
      exact ⟨q, p, l, cs, hp, hembeds, .inr hcs, hrange hp hembeds⟩
    · have hnode := node_of_size_le (Nat.not_lt.mp hsize)
      rw [tokensBelow, walk, walkUpTo, elements, hnode] at hx
      simp [entered, show (default : NodeRecord).children = [] from rfl] at hx

theorem ancestor_of_mem_tokensBelow {m x : Nat}
    (hx : x ∈ (arena text (.node label children)).tokensBelow m) :
    m ∈ (arena text (.node label children)).ancestors
      ((arena text (.node label children)).token x).parent := by
  have htrivial := fun p rs => everywhereAll_of_forall (P := fun _ _ => True) (fun _ _ => trivial) p rs
  obtain ⟨q, p, l, cs, rfl, hembeds, -, hfirst, hlast⟩ :=
    embeds_of_mem_tokensBelow (htrivial _ children) hx
  exact (hangsBelow_of_embedsAll descends_arena cs hembeds.children (htrivial _ cs) hfirst hlast).1

theorem mem_tokensBelow_of_between {m i j k : Nat}
    (hj : j ∈ (arena text (.node label children)).tokensBelow m)
    (hk : k ∈ (arena text (.node label children)).tokensBelow m) (hji : j ≤ i) (hik : i ≤ k) :
    i ∈ (arena text (.node label children)).tokensBelow m := by
  have htrivial := everywhereAll_of_forall (P := fun _ _ => True) (fun _ _ => trivial)
    (placeInside .front) children
  obtain ⟨q, p, l, cs, rfl, hembeds, -, hfirst, hlast⟩ := embeds_of_mem_tokensBelow htrivial hj
  rw [tokensBelow_of_embeds hembeds, List.mem_range'_1] at hk ⊢
  omega

theorem takeWhile_ne_of_notMem {steps later : List WalkStep} {s : WalkStep} (h : s ∉ steps) :
    (steps ++ s :: later).takeWhile (fun u => u ≠ s) = steps := by
  exact takeWhile_append_eq (decide_ne_of_notMem h) (by simp)

/-- A node stands behind the tokens that a walk enters before it. -/
theorem exists_place_of_lt
    (hP : EverywhereAll P (placeInside .front) children) {n : Nat} (hn : n ≠ 0)
    (hsize : n < (arena text (.node label children)).nodes.size) :
    ∃ q p l cs, p.node = n ∧ Embeds (arena text (.node label children)) q p (.node l cs) ∧
      P p cs ∧ (arena text (.node label children)).tokensBefore n = List.range p.token := by
  obtain ⟨q, p, l, cs, before, after, hp, hembeds, -, hcs, hsteps, hbefore, -, htokens⟩ :=
    meets_arena hP hn hsize
  have hwalk : (arena text (.node label children)).walk root =
      (.enter (.node 0) :: before) ++ .enter (.node n) :: (after ++ [.leave (.node 0)]) := by
    rw [walk_root_arena, hsteps]
    simp
  have hnotMem : .enter (.node n) ∉ .enter (.node 0) :: before := by
    simpa [hn] using hbefore
  refine ⟨q, p, l, cs, hp, hembeds, hcs, ?_⟩
  rw [tokensBefore, hwalk, takeWhile_ne_of_notMem hnotMem, List.range_eq_range']
  exact htokens

end

end Tree

end TemplateTree
