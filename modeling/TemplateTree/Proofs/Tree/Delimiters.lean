import TemplateTree.Proofs.Grammar.Order
import TemplateTree.Proofs.Tree.Blanks

/-!
# Delimiters and content in trees

Where the opening delimiters and the content of a tree stand, said with the links of
the tree. Laying an orderly tree over tokens keeps it orderly, and an orderly tree in
the tables of a tree has each delimiter at the front of a tag. At the top of a
template the delimiter of an else tag may also stand alone; then the next token that
is not blank is a closing delimiter.
-/

namespace TemplateTree

open Rose Token Grammar

namespace Rose

theorem orderly_blank {t : Token} (ht : t.isTrivia = true) : Orderly Token.kind (.token t) := by
  refine .token t ?_
  rw [Token.isTrivia] at ht
  generalize t.kind = k at ht
  cases k <;> first | rfl | cases ht

/-- Blank tokens in front of an orderly tree do no harm. -/
theorem orderly_behind_blanks {ts : List Token} (hts : ∀ t ∈ ts, t.isTrivia = true)
    {r : Rose Token} (hr : Orderly Token.kind r) :
    ∀ r' ∈ ts.map .token ++ [r], Orderly Token.kind r' := by
  intro r' hmem
  rcases List.mem_append.mp hmem with hmem | hmem
  · obtain ⟨t, ht, rfl⟩ := List.mem_map.mp hmem
    exact orderly_blank (hts t ht)
  · rwa [List.mem_singleton.mp hmem]

/-- A forest over all of the tokens, those at the end that it does not need included. -/
def layOut (rs : List (Rose Kind)) (ts : List Token) : List (Rose Token) :=
  (layAll rs ts).1 ++ (layAll rs ts).2.map .token

theorem layOut_cons (r : Rose Kind) (rs : List (Rose Kind)) (ts : List Token) :
    layOut (r :: rs) ts = (lay r ts).1 ++ layOut rs (lay r ts).2 := by
  rw [layOut, layAll, List.append_assoc]
  rfl

theorem leavesAll_layOut (rs : List (Rose Kind)) (ts : List Token) :
    leavesAll (layOut rs ts) = ts := by
  rw [layOut, leavesAll_append, leavesAll_map_token, leavesAll_layAll]

/-- Laying keeps delimiters and content where they belong. -/
theorem Orderly.lay {r : Rose Kind} (hr : Orderly id r) {ts : List Token} {more : List Kind}
    (h : significantKinds ts = r.leaves ++ more) :
    ∀ r' ∈ (lay r ts).1, Orderly Token.kind r' := by
  induction hr generalizing ts more with
  | token k hk =>
    obtain ⟨blanks, t, us, hblanks, -, rfl, -, hlay⟩ := lay_token h
    rw [hlay]
    exact orderly_behind_blanks hblanks (.token t hk)
  | node label children _ ih =>
    obtain ⟨blanks, us, hblanks, hus, hlay⟩ := lay_node label children ts
    rw [hlay]
    refine orderly_behind_blanks hblanks (.node label _ fun r' hr' hnotFree => ?_)
    obtain ⟨r, hr, us', later, hus', hmem⟩ := exists_mem_lay (hus.trans h) hr'
    by_cases hfree : IsFreeContent id label r
    · obtain ⟨hlabel, k, rfl, hk⟩ := hfree
      obtain ⟨blanks, t, _, hblanks, -, rfl, -, hlay'⟩ := lay_token hus'
      rw [hlay'] at hmem
      rcases List.mem_append.mp hmem with hmem | hmem
      · obtain ⟨b, hb, rfl⟩ := List.mem_map.mp hmem
        exact orderly_blank (hblanks b hb)
      · exact absurd ⟨hlabel, t, List.mem_singleton.mp hmem, hk⟩ hnotFree
    · exact ih r hr hfree hus' r' hmem
  | tag label inside k others hk _ ih =>
    obtain ⟨blanks, t, us, hblanks, ht, rfl, hus, hlay⟩ := lay_node_of_leaves label
      (.node inside [.token k] :: others) (by simp [leavesAll, leaves]) h
    rw [hlay, layAll, lay_node_leaf inside t.kind ht]
    refine orderly_behind_blanks hblanks (.tag label inside t _ hk fun r' hr' => ?_)
    obtain ⟨r, hr, us', later, hus', hmem⟩ := exists_mem_lay hus hr'
    exact ih r hr hus' r' hmem

end Rose

namespace Tree

variable {t : Tree} {i : Nat}

/-- A token is all there is in the first child of a node of this kind. -/
structure Heads (t : Tree) (i : Nat) (node : Kind) : Prop where
  only : t.elements (t.token i).parent = [.token i]
  first : ∃ n < t.nodes.size, (t.node n).label = .plain node ∧
    (t.elements n).head? = some (.node (t.token i).parent)

/-- A token is all there is in an error over an invalid token, and the next token that
is not blank is a closing delimiter. -/
structure IsStray (t : Tree) (i : Nat) : Prop where
  only : t.elements (t.token i).parent = [.token i]
  label : (t.node (t.token i).parent).label = .failure Problem.invalidToken.message
  close : ∃ j, t.NearestBehind i j ∧ (t.token j).kind = .close

/-- A token is where tokens of its kind belong. -/
def InPlace (t : Tree) (i : Nat) : Prop :=
  match (t.token i).kind with
  | .openValue | .openRaw => t.Heads i .mustache
  | .openPartial => t.Heads i .partialTag
  | .openBlock => t.Heads i .blockTag
  | .openEnd => t.Heads i .endTag
  | .openInverse => t.Heads i .inverseTag ∨ t.Heads i .elseTag ∨ t.IsStray i
  | .content => .token i ∈ t.elements (t.token i).parent ∧
      (t.node (t.token i).parent).label = .plain .statements
  | _ => True

theorem inPlace_of_not_sync (h : isSync (t.token i).kind = false) : t.InPlace i := by
  unfold InPlace
  generalize (t.token i).kind = k at h
  cases k <;> trivial

/-- The delimiter of a tag is in place at the front of the tag. -/
theorem Heads.inPlace {node : Kind} (h : t.Heads i node)
    (hk : StartsWith (.plain node) (t.token i).kind) : t.InPlace i := by
  obtain ⟨hopens, hnode⟩ := hk
  unfold InPlace
  generalize (t.token i).kind = k at hopens hnode
  rcases hnode with hnode | ⟨rfl, hnode⟩
  · obtain rfl := Label.plain.inj hnode
    cases k <;> first | exact h | exact .inl h | cases hopens
  · obtain rfl := Label.plain.inj hnode
    exact .inr (.inl h)

theorem IsStray.inPlace (h : t.IsStray i) (hk : (t.token i).kind = .openInverse) :
    t.InPlace i := by
  rw [InPlace, hk]
  exact .inr (.inr h)

/-- The token in the first child of an embedded node stands at the front of that node. -/
theorem heads_of_embeds {parent : Option Nat} {p : Place} {node : Kind} {inside : Label}
    {tok : Token} {others : List (Rose Token)}
    (h : Embeds t parent p (.node (.plain node) (.node inside [.token tok] :: others))) :
    t.Heads p.token node ∧ (t.token p.token).kind = tok.kind := by
  have hnode := h.node_eq
  have hinside := h.children.first.node_eq
  have htok : t.token p.token = ⟨tok.kind, _, _⟩ := h.children.first.children.first.token_eq
  have hsize := h.nodes.length_le
  rw [length_nodeRecords, labels, List.length_cons] at hsize
  refine ⟨⟨?_, p.node, by omega, congrArg NodeRecord.label hnode, ?_⟩, by rw [htok]⟩
  · rw [htok]
    exact congrArg NodeRecord.children hinside
  · rw [htok, elements, hnode]
    rfl

/-- The tokens of an orderly tree are in place. -/
theorem inPlace_of_orderly {r : Rose Token} (hr : Orderly Token.kind r) {parent : Option Nat}
    {p : Place} (h : Embeds t parent p r) (hi : p.token ≤ i) (hi' : i < p.token + r.leaves.length) :
    t.InPlace i := by
  induction hr generalizing parent p with
  | token tok htok =>
    rw [leaves, List.length_singleton] at hi'
    obtain rfl : i = p.token := by omega
    exact inPlace_of_not_sync (by rw [h.token_eq]; exact htok)
  | node label children _ ih =>
    obtain ⟨r, hr, p', hembeds, helement, hfirst, hlast⟩ := h.children.exists_mem hi hi'
    by_cases hfree : IsFreeContent Token.kind label r
    · obtain ⟨rfl, tok, rfl, hkind⟩ := hfree
      rw [leaves, List.length_singleton] at hlast
      obtain rfl : i = p'.token := by omega
      rw [InPlace, hembeds.token_eq, hkind]
      show _ ∈ t.elements p.node ∧ (t.node p.node).label = _
      rw [elements, h.node_eq]
      exact ⟨helement, rfl⟩
    · exact ih r hr hfree hembeds hfirst hlast
  | tag label inside tok others hk _ ih =>
    by_cases hi₀ : i = p.token
    · subst hi₀
      obtain ⟨node, rfl⟩ := hk.exists_plain
      obtain ⟨hheads, hkind⟩ := heads_of_embeds h
      exact hheads.inPlace (by rw [hkind]; exact hk)
    · have hone : (placeAfter (placeInside p) [.node inside [.token tok]]).token = p.token + 1 := rfl
      have hlength : (Rose.node label (.node inside [.token tok] :: others)).leaves.length =
          (leavesAll others).length + 1 := by
        simp [leaves, leavesAll]
      obtain ⟨r, hr, p', hembeds, -, hfirst, hlast⟩ :=
        h.children.others.exists_mem (i := i) (by omega) (by omega)
      exact ih r hr hembeds hfirst hlast

theorem inPlace_of_orderlyAll {rs : List (Rose Token)} (hrs : ∀ r ∈ rs, Orderly Token.kind r)
    {parent : Nat} {p : Place} (h : EmbedsAll t parent p rs) (hi : p.token ≤ i)
    (hi' : i < p.token + (leavesAll rs).length) : t.InPlace i := by
  obtain ⟨r, hr, p', hembeds, -, hfirst, hlast⟩ := h.exists_mem hi hi'
  exact inPlace_of_orderly (hrs r hr) hembeds hfirst hlast

/-- Behind a token, the first that is significant, read off an embedded forest. -/
theorem exists_nearestBehind {parent : Nat} {p : Place} {rs : List (Rose Token)}
    (h : EmbedsAll t parent p rs) {k : Kind} {ks : List Kind}
    (hkinds : significantKinds (leavesAll rs) = k :: ks) (hi : i + 1 = p.token) :
    ∃ j, t.NearestBehind i j ∧ (t.token j).kind = k := by
  obtain ⟨tok, us, hdrop, htok, rfl, -⟩ := exists_of_significantKinds_cons hkinds
  have hfound : (leavesAll rs)[leadingBlanks (leavesAll rs)]? = some tok := by
    have hhead := congrArg (·[0]?) hdrop
    simpa using hhead
  obtain ⟨hsize, hkind⟩ := h.kind_eq hfound
  refine ⟨p.token + leadingBlanks (leavesAll rs), ?_, hkind⟩
  constructor
  · omega
  · exact hsize
  · rw [isBlank, hkind]
    exact htok
  · intro x hx hx'
    obtain ⟨j, rfl⟩ := Nat.exists_eq_add_of_le (show p.token ≤ x by omega)
    have hlt := (List.getElem?_eq_some_iff.mp hfound).1
    have hat : (leavesAll rs)[j]? = some (leavesAll rs)[j] := List.getElem?_eq_getElem (by omega)
    have hmem : (leavesAll rs)[j] ∈ (leavesAll rs).take (leadingBlanks (leavesAll rs)) := by
      rw [← List.getElem?_take_of_lt (show j < leadingBlanks (leavesAll rs) by omega)] at hat
      exact List.mem_of_getElem? hat
    rw [isBlank, (h.kind_eq hat).2]
    exact isTrivia_of_mem_take hmem

/-- A delimiter that stands alone before a closing one is in place. -/
theorem inPlace_of_stray {parent : Nat} {p : Place} {tok : Token} {rs : List (Rose Token)}
    (h : EmbedsAll t parent p
      ([.node (.failure Problem.invalidToken.message) [.token tok]] ++ rs))
    (htok : tok.kind = .openInverse) {ks : List Kind}
    (hclose : significantKinds (leavesAll rs) = .close :: ks) : t.InPlace p.token := by
  have hnode := h.first.node_eq
  have hkind : t.token p.token = ⟨tok.kind, _, _⟩ := h.first.children.first.token_eq
  have hbehind := exists_nearestBehind (i := p.token) h.others hclose rfl
  refine IsStray.inPlace ⟨?_, ?_, hbehind⟩ (by rw [hkind]; exact htok)
  · rw [hkind]
    exact congrArg NodeRecord.children hnode
  · rw [hkind]
    exact congrArg NodeRecord.label hnode

theorem inPlace_of_blanks {ts : List Token} (hts : ∀ t ∈ ts, t.isTrivia = true) {parent : Nat}
    {p : Place} (h : EmbedsAll t parent p (ts.map .token)) (hi : p.token ≤ i)
    (hi' : i < p.token + ts.length) : t.InPlace i := by
  refine inPlace_of_orderlyAll (fun r hr => ?_) h hi (by rwa [leavesAll_map_token])
  obtain ⟨tok, htok, rfl⟩ := List.mem_map.mp hr
  exact orderly_blank (hts tok htok)

/-- What programs and recovery leave in turn, laid over tokens, has its tokens in place. -/
theorem inPlace_of_resumed {f : List (Rose Kind)} (hf : Resumed f []) {ts : List Token}
    (hkinds : significantKinds ts = leavesAll f) {parent : Nat} {p : Place}
    (h : EmbedsAll t parent p (layOut f ts)) (hi : p.token ≤ i) (hi' : i < p.token + ts.length) :
    t.InPlace i := by
  induction f generalizing p ts with
  | nil => exact inPlace_of_blanks (fun _ => isTrivia_of_mem_layAll_rest hkinds) h hi hi'
  | cons r rs ih =>
    obtain ⟨hr, hrs⟩ := hf
    rw [leavesAll] at hkinds
    rw [layOut_cons] at h
    have hused := congrArg List.length (leavesAll_lay r ts)
    rw [List.length_append] at hused
    by_cases hfirst : i < p.token + (leavesAll (lay r ts).1).length
    · rcases hr with hr | ⟨rfl, hclose⟩
      · exact inPlace_of_orderlyAll (hr.lay hkinds) h.append_left hi hfirst
      · obtain ⟨blanks, tok, us, hblanks, htok, hus, hlay⟩ := lay_single _ hkinds
        rw [hlay, List.append_assoc] at h
        rw [hlay, leavesAll_append, leavesAll_map_token, List.length_append] at hfirst
        by_cases hblank : i < p.token + blanks.length
        · exact inPlace_of_blanks hblanks h.append_left hi hblank
        · have hplace : (placeAfter p (blanks.map .token)).token = p.token + blanks.length := by
            rw [placeAfter, leavesAll_map_token]
          have hone : (leavesAll [Rose.node (.failure Problem.invalidToken.message)
              [.token tok]]).length = 1 := rfl
          obtain rfl : i = (placeAfter p (blanks.map .token)).token := by omega
          rw [List.append_nil] at hclose
          obtain ⟨ks, hks⟩ := exists_eq_cons_of_headD hclose (by decide)
          have hnext : significantKinds (leavesAll (layOut rs us)) = .close :: ks := by
            rw [leavesAll_layOut, hus]
            exact hks
          exact inPlace_of_stray h.append_right htok hnext
    · have hstart : (placeAfter p (lay r ts).1).token =
          p.token + (leavesAll (lay r ts).1).length := rfl
      have hrest := (significantAll_lay r ts (leavesAll rs) hkinds).2
      exact ih hrs hrest h.append_right (by omega) (by omega)

/-- A root laid over tokens has its tokens in place. -/
theorem inPlace_layRoot {text : String} {root : Label} {f : List (Rose Kind)}
    {tokens : List Token} (hkinds : significantKinds tokens = leavesAll f) (hf : Resumed f []) :
    ∀ i < (arena text (layRoot root f tokens)).tokens.size,
      (arena text (layRoot root f tokens)).InPlace i := by
  intro i hi
  rw [size_tokens_arena, leaves_layRoot] at hi
  have hembeds := (embeds_arena text (layRoot root f tokens)).children
  exact inPlace_of_resumed hf hkinds hembeds (Nat.zero_le i) (by show i < 0 + _; omega)

end Tree

end TemplateTree
