import TemplateTree.Proofs.Tree.Lookup

/-!
# Blank tokens in trees

Where the blank tokens of a tree hang, said with the links and walks of the tree. A
blank token belongs to the lowest node around its significant neighbours, or to
the root if one of them is missing, and a node without tokens stands right behind
a significant token. Both follow from what is known of every single node of a
root that is laid over tokens: a node other than the root starts and ends with
significant tokens, or stands behind one.
-/

namespace TemplateTree

open Rose Token

namespace Tree

def isBlank (t : Tree) (i : Nat) : Bool := (t.token i).kind.isTrivia

/-- Of the tokens before a token, the last that is significant. -/
structure NearestBefore (t : Tree) (i j : Nat) : Prop where
  lt : j < i
  significant : t.isBlank j = false
  between : ∀ x, j < x → x < i → t.isBlank x = true

/-- Of the tokens behind a token, the first that is significant. -/
structure NearestBehind (t : Tree) (i k : Nat) : Prop where
  lt : i < k
  size : k < t.tokens.size
  significant : t.isBlank k = false
  between : ∀ x, i < x → x < k → t.isBlank x = true

/-- The node has both tokens below it, and so has no node that is not above it. -/
structure IsLowestAround (t : Tree) (n j k : Nat) : Prop where
  left : j ∈ t.tokensBelow n
  right : k ∈ t.tokensBelow n
  lowest : ∀ m, j ∈ t.tokensBelow m → k ∈ t.tokensBelow m → m ∈ t.ancestors n

/-- How the blank tokens of a tree are placed. -/
structure PlacesBlanks (t : Tree) : Prop where
  /-- A blank token with significant ones on both sides hangs from the lowest node
  around the nearest of them. -/
  between : ∀ i j k, t.isBlank i = true → t.NearestBefore i j → t.NearestBehind i k →
    t.IsLowestAround (t.token i).parent j k
  /-- A blank token without a significant one on one of the sides hangs from the root. -/
  outside : ∀ i, t.isBlank i = true →
    (∀ j < i, t.isBlank j = true) ∨ (∀ k, i < k → k < t.tokens.size → t.isBlank k = true) →
      (t.token i).parent = 0
  /-- No node but the root starts or ends with a blank token. -/
  edges : ∀ n, n ≠ 0 → ∀ i, (t.tokensBelow n).head? = some i ∨ (t.tokensBelow n).getLast? = some i →
    t.isBlank i = false
  /-- A node without tokens, other than the root, stands at the end of a significant
  token, the last before it, or at the front of the text. -/
  empty : ∀ n, n ≠ 0 → n < t.nodes.size → t.tokensBelow n = [] →
    match (t.tokensBefore n).getLast? with
    | none => (t.node n).span = ⟨0, 0⟩
    | some i => t.isBlank i = false ∧
      (t.node n).span = ⟨(t.token i).span.stop, (t.token i).span.stop⟩

section

variable {t : Tree}

theorem lt_size_of_isBlank {i : Nat} (h : t.isBlank i = true) : i < t.tokens.size := by
  apply Nat.lt_of_not_le
  intro hsize
  rw [isBlank, token, Array.getElem?_eq_none hsize] at h
  cases h

theorem ne_of_isBlank {i j : Nat} (hi : t.isBlank i = true) (hj : t.isBlank j = false) :
    i ≠ j := by
  rintro rfl
  exact Bool.false_ne_true (hj.symm.trans hi)

theorem NearestBefore.le {i j x : Nat} (h : t.NearestBefore i j) (hx : x < i)
    (hblank : t.isBlank x = false) : x ≤ j := by
  apply Nat.le_of_not_lt
  intro hlt
  exact Bool.false_ne_true (hblank.symm.trans (h.between x hlt hx))

theorem NearestBehind.le {i k x : Nat} (h : t.NearestBehind i k) (hx : i < x)
    (hblank : t.isBlank x = false) : k ≤ x := by
  apply Nat.le_of_not_lt
  intro hlt
  exact Bool.false_ne_true (hblank.symm.trans (h.between x hx hlt))

end

section

variable {text : String} {label : Label} {children : List (Rose Token)}

theorem isBlank_arena {i : Nat} {tok : Token} (h : (leavesAll children)[i]? = some tok) :
    (arena text (.node label children)).isBlank i = tok.isTrivia := by
  rw [isBlank, (token_arena text (.node label children) h).1]
  rfl

/-- The first and the last token of a snug node are not blank. -/
theorem not_isBlank_of_snug {p : Place} {cs : List (Rose Token)}
    (h : Snug (leavesAll children) p cs) (hne : leavesAll cs ≠ []) :
    (arena text (.node label children)).isBlank p.token = false ∧
      (arena text (.node label children)).isBlank (p.token + (leavesAll cs).length - 1) = false := by
  have hlength : 0 < (leavesAll cs).length := List.length_pos_iff.mpr hne
  have hread : ∀ i < (leavesAll cs).length,
      (leavesAll children)[p.token + i]? = (leavesAll cs)[i]? := by
    intro i hi
    obtain ⟨rest, hrest⟩ := h.tokens
    rw [← List.getElem?_drop, ← hrest, List.getElem?_append_left hi]
  constructor
  · obtain ⟨tok, htok⟩ := Option.isSome_iff_exists.mp (List.isSome_head?.mpr hne)
    have hat := hread 0 hlength
    rw [← List.head?_eq_getElem?, htok, Nat.add_zero] at hat
    rw [isBlank_arena hat]
    exact h.first tok htok
  · have htok := List.getLast?_eq_some_getLast hne
    have hat := hread ((leavesAll cs).length - 1) (by omega)
    rw [← List.getLast?_eq_getElem?, htok, ← Nat.add_sub_assoc hlength] at hat
    rw [isBlank_arena hat]
    exact h.last _ htok

/-- A blank token hangs from the root, or from a node that starts before it and ends
behind it, with a significant token on both sides. -/
theorem hangsFrom_of_isBlank
    (hP : EverywhereAll (Snug (leavesAll children)) (placeInside .front) children) {i : Nat}
    (hi : (arena text (.node label children)).isBlank i = true) :
    let t := arena text (.node label children)
    (t.token i).parent = 0 ∧ t.tokensBelow 0 = List.range t.tokens.size ∨
      ∃ first last, first < i ∧ i < last ∧ last < t.tokens.size ∧ t.isBlank first = false ∧
        t.isBlank last = false ∧
        t.tokensBelow (t.token i).parent = List.range' first (last + 1 - first) := by
  intro t
  have hsize : i < t.tokens.size := lt_size_of_isBlank hi
  have hlength : t.tokens.size = (leavesAll children).length :=
    size_tokens_arena text (.node label children)
  have hembeds := (embeds_arena text (.node label children)).children
  obtain ⟨-, hparent⟩ := hangsBelow_of_embedsAll descends_arena children hembeds hP
    (x := i) (Nat.zero_le _) (by show i < 0 + _; omega)
  rcases hparent with hparent | ⟨q, p, l, cs, hp, hnode, hsnug, hfirst, hlast⟩
  · refine .inl ⟨hparent, ?_⟩
    rw [hlength]
    exact tokensBelow_arena text label children
  · have hne : leavesAll cs ≠ [] := List.length_pos_iff.mp (by omega)
    obtain ⟨hopens, hcloses⟩ := @not_isBlank_of_snug text label children p cs hsnug hne
    have hne₁ := ne_of_isBlank hi hopens
    have hne₂ := ne_of_isBlank hi hcloses
    have hbound := hnode.tokens.length_le
    rw [tokenRecords, length_tokenRecordsAll] at hbound
    refine .inr ⟨p.token, p.token + (leavesAll cs).length - 1, by omega, by omega, ?_, hopens,
      hcloses, ?_⟩
    · show _ < (arena text (.node label children)).tokens.size
      omega
    · rw [← hp, tokensBelow_of_embeds hnode]
      congr 1
      omega

theorem isLowestAround_arena
    (hP : EverywhereAll (Snug (leavesAll children)) (placeInside .front) children) {i j k : Nat}
    (hi : (arena text (.node label children)).isBlank i = true)
    (hj : (arena text (.node label children)).NearestBefore i j)
    (hk : (arena text (.node label children)).NearestBehind i k) :
    (arena text (.node label children)).IsLowestAround
      ((arena text (.node label children)).token i).parent j k := by
  have hji := hj.lt
  have hik := hk.lt
  have hlowest : ∀ m, j ∈ (arena text (.node label children)).tokensBelow m →
      k ∈ (arena text (.node label children)).tokensBelow m →
        m ∈ (arena text (.node label children)).ancestors
          ((arena text (.node label children)).token i).parent :=
    fun m hjm hkm => ancestor_of_mem_tokensBelow
      (mem_tokensBelow_of_between hjm hkm (Nat.le_of_lt hji) (Nat.le_of_lt hik))
  rcases hangsFrom_of_isBlank hP hi with ⟨hparent, hbelow⟩ |
    ⟨first, last, hfirst, hlast, -, hopens, hcloses, hbelow⟩
  · have hsize := hk.size
    refine ⟨?_, ?_, hlowest⟩
    · rw [hparent, hbelow, List.mem_range]
      omega
    · rw [hparent, hbelow, List.mem_range]
      omega
  · have hle := hj.le hfirst hopens
    have hge := hk.le hlast hcloses
    refine ⟨?_, ?_, hlowest⟩
    · rw [hbelow, List.mem_range'_1]
      omega
    · rw [hbelow, List.mem_range'_1]
      omega

theorem not_isBlank_of_edge
    (hP : EverywhereAll (Snug (leavesAll children)) (placeInside .front) children) {n i : Nat}
    (hn : n ≠ 0)
    (hi : ((arena text (.node label children)).tokensBelow n).head? = some i ∨
      ((arena text (.node label children)).tokensBelow n).getLast? = some i) :
    (arena text (.node label children)).isBlank i = false := by
  have hmem : i ∈ (arena text (.node label children)).tokensBelow n :=
    hi.elim List.mem_of_mem_head? List.mem_of_getLast?
  obtain ⟨q, p, l, cs, rfl, hembeds, hsnug, hfirst, hlast⟩ := embeds_of_mem_tokensBelow hP hmem
  have hne : leavesAll cs ≠ [] := List.length_pos_iff.mp (by omega)
  obtain ⟨hopens, hcloses⟩ := @not_isBlank_of_snug text label children p cs
    (hsnug.resolve_left hn) hne
  have hlength : (leavesAll cs).length ≠ 0 := fun h => hne (List.length_eq_zero_iff.mp h)
  rw [tokensBelow_of_embeds hembeds, List.head?_range', List.getLast?_range', if_neg hlength,
    if_neg hlength] at hi
  rcases hi with hi | hi
  · rwa [← Option.some.inj hi]
  · rwa [← Option.some.inj hi]

/-- A node without tokens stands at the end of the token before it. -/
theorem span_of_tokensBelow_eq_nil
    (hP : EverywhereAll (Snug (leavesAll children)) (placeInside .front) children) {n : Nat}
    (hn : n ≠ 0) (hsize : n < (arena text (.node label children)).nodes.size)
    (hnone : (arena text (.node label children)).tokensBelow n = []) :
    let t := arena text (.node label children)
    match (t.tokensBefore n).getLast? with
    | none => (t.node n).span = ⟨0, 0⟩
    | some i => t.isBlank i = false ∧
      (t.node n).span = ⟨(t.token i).span.stop, (t.token i).span.stop⟩ := by
  intro t
  obtain ⟨q, p, l, cs, rfl, hembeds, hsnug, hbefore⟩ := exists_place_of_lt hP hn hsize
  have hnil : leavesAll cs = [] := by
    rw [tokensBelow_of_embeds hembeds, List.range'_eq_nil_iff] at hnone
    exact List.length_eq_zero_iff.mp hnone
  have hbound := hembeds.tokens.length_le
  have hlength : (arena text (.node label children)).tokens.size = (leavesAll children).length :=
    size_tokens_arena text (.node label children)
  have hspan : (t.node p.node).span =
      ⟨extent ((leavesAll children).take p.token), extent ((leavesAll children).take p.token)⟩ := by
    rw [hembeds.node_eq, hnil, ← hsnug.offset]
    rfl
  rw [hbefore, hspan]
  cases htoken : p.token with
  | zero => rfl
  | succ i =>
    have hi : i < (leavesAll children).length := by omega
    have htok := List.getElem?_eq_getElem hi
    have htidy := hsnug.empty hnil
    rw [htoken, List.take_add_one, htok, Option.toList_some] at htidy
    rw [List.range_succ, List.getLast?_concat]
    refine ⟨?_, ?_⟩
    · rw [isBlank_arena htok]
      exact htidy _ List.getLast?_concat
    · rw [(token_arena text (.node label children) htok).2]
      rfl

/-- Over a root whose nodes are snug, blank tokens are placed as they should be. -/
theorem placesBlanks_arena
    (hP : EverywhereAll (Snug (leavesAll children)) (placeInside .front) children) :
    (arena text (.node label children)).PlacesBlanks := by
  refine ⟨fun i j k => isLowestAround_arena hP, fun i hi hside => ?_,
    fun n hn i => not_isBlank_of_edge hP hn, fun n => span_of_tokensBelow_eq_nil hP⟩
  rcases hangsFrom_of_isBlank hP hi with ⟨hparent, -⟩ |
    ⟨first, last, hfirst, hlast, hsize, hopens, hcloses, -⟩
  · exact hparent
  · rcases hside with hside | hside
    · exact absurd (hopens.symm.trans (hside first hfirst)) Bool.false_ne_true
    · exact absurd (hcloses.symm.trans (hside last hlast hsize)) Bool.false_ne_true

end

/-- A root with a firm forest laid over tokens places blank tokens as it should. -/
theorem placesBlanks_layRoot {text : String} {root : Label} {f : List (Rose Kind)}
    {tokens : List Token} (hkinds : significantKinds tokens = leavesAll f) (hfirm : FirmAll f) :
    (arena text (layRoot root f tokens)).PlacesBlanks := by
  have hleaves := leaves_layRoot root f tokens
  rw [layRoot, leaves] at hleaves
  have hsnug := everywhereAll_snug_layAll tokens f [] tokens [] (placeInside .front) rfl
    ⟨rfl, rfl⟩ (by rw [hkinds, List.append_nil]) hfirm (.inr .nil)
  refine placesBlanks_arena ?_
  rw [hleaves]
  exact everywhereAll_append.mpr ⟨hsnug, everywhereAll_map_token _ _ _⟩

end Tree

end TemplateTree
