import TemplateTree.Proofs.Rose.Laying
import TemplateTree.Proofs.Tree.Embedding
import TemplateTree.Tree.Walk

/-!
# Coverage

A tree covers a list of tokens if a walk from its root meets exactly these
tokens, in their order, and each stands where the ones before it end. The
tables of a rose tree cover the leaves of the rose tree. If the rose tree is a
root laid over the tokens and everything below the root is a node, then no
token but a blank one hangs directly from the root.
-/

namespace TemplateTree

open Rose

/-- The spans follow each other without gap or overlap from one offset to another. -/
def Tiles (start : Nat) : List Span → Nat → Prop
  | [], stop => start = stop
  | s :: rest, stop => s.start = start ∧ s.start ≤ s.stop ∧ Tiles s.stop rest stop

namespace Token

/-- Tokens as pairs of a kind and a span, laid end to end. -/
def spread (offset : Nat) : List Token → List (Kind × Span)
  | [] => []
  | t :: ts => (t.kind, ⟨offset, offset + t.length⟩) :: spread (offset + t.length) ts

theorem spread_append (offset : Nat) (ts us : List Token) :
    spread offset (ts ++ us) = spread offset ts ++ spread (offset + extent ts) us := by
  induction ts generalizing offset with
  | nil => rfl
  | cons t ts ih => simp [spread, ih, extent, Nat.add_assoc]

theorem map_fst_spread (offset : Nat) (ts : List Token) :
    (spread offset ts).map (·.1) = ts.map (·.kind) := by
  induction ts generalizing offset with
  | nil => rfl
  | cons t ts ih => rw [spread, List.map_cons, List.map_cons, ih]

theorem getElem?_spread (offset : Nat) (ts : List Token) (i : Nat) :
    (spread offset ts)[i]? = ts[i]?.map fun t =>
      (t.kind, ⟨offset + extent (ts.take i), offset + extent (ts.take (i + 1))⟩) := by
  induction ts generalizing offset i with
  | nil => rfl
  | cons t ts ih =>
    cases i with
    | zero => simp [spread, extent]
    | succ i =>
      rw [spread, List.getElem?_cons_succ, ih, List.getElem?_cons_succ]
      simp [extent, Nat.add_assoc]

theorem tiles_spread (offset : Nat) (ts : List Token) :
    Tiles offset ((spread offset ts).map (·.2)) (offset + extent ts) := by
  induction ts generalizing offset with
  | nil => rfl
  | cons t ts ih =>
    refine ⟨rfl, Nat.le_add_right _ _, ?_⟩
    have htotal : offset + extent (t :: ts) = offset + t.length + extent ts := by
      simp [extent, Nat.add_assoc]
    rw [htotal]
    exact ih (offset + t.length)

/-- The spans are as long as the tokens. -/
theorem map_length_spread (offset : Nat) (ts : List Token) :
    (spread offset ts).map (fun p => (⟨p.1, p.2.length⟩ : Token)) = ts := by
  induction ts generalizing offset with
  | nil => rfl
  | cons t ts ih =>
    rw [spread, List.map_cons, ih]
    simp [Span.length]

end Token

namespace Rose

mutual

theorem map_tokenRecords (parent : Nat) (p : Place) (r : Rose Token) :
    (tokenRecords parent p r).map (fun x => (x.kind, x.span)) = Token.spread p.offset r.leaves := by
  cases r with
  | token t => rfl
  | node label children =>
    have h := map_tokenRecordsAll p.node (placeInside p) children
    simpa [tokenRecords, leaves, placeInside] using h

/-- The records of the tokens of a forest are its leaves, laid end to end. -/
theorem map_tokenRecordsAll (parent : Nat) (p : Place) (rs : List (Rose Token)) :
    (tokenRecordsAll parent p rs).map (fun x => (x.kind, x.span)) =
      Token.spread p.offset (leavesAll rs) := by
  cases rs with
  | nil => rfl
  | cons r rs =>
    have hr := map_tokenRecords parent p r
    have hrs := map_tokenRecordsAll parent (placeAfter p [r]) rs
    have hoffset : (placeAfter p [r]).offset = p.offset + extent r.leaves := by
      simp [placeAfter, leavesAll]
    rw [hoffset] at hrs
    rw [tokenRecordsAll, List.map_append, hr, hrs, leavesAll, Token.spread_append]

end

theorem map_tokens_arena (text : String) (r : Rose Token) :
    (arena text r).tokens.toList.map (fun x => (x.kind, x.span)) = Token.spread 0 r.leaves :=
  map_tokenRecords 0 .front r

/-- What an arena shows of a token. -/
theorem token_arena (text : String) (r : Rose Token) {i : Nat} {tok : Token}
    (h : r.leaves[i]? = some tok) :
    ((arena text r).token i).kind = tok.kind ∧ ((arena text r).token i).span =
      ⟨extent (r.leaves.take i), extent (r.leaves.take (i + 1))⟩ := by
  have hrecord := congrArg (·[i]?) (map_tokens_arena text r)
  simp only [Token.getElem?_spread, List.getElem?_map, h, Option.map_some, Nat.zero_add] at hrecord
  obtain ⟨record, hrec, heq⟩ := Option.map_eq_some_iff.mp hrecord
  have htoken : (arena text r).token i = record := by
    rw [Tree.token, ← Array.getElem?_toList, hrec]
    rfl
  rw [htoken]
  exact ⟨congrArg Prod.fst heq, congrArg Prod.snd heq⟩

theorem size_tokens_arena (text : String) (r : Rose Token) :
    (arena text r).tokens.size = r.leaves.length :=
  length_tokenRecords 0 .front r

end Rose

/-- What a tree shows of the tokens of an embedded forest. -/
theorem EmbedsAll.kind_eq {t : Tree} {parent : Nat} {p : Place} {rs : List (Rose Token)}
    (h : EmbedsAll t parent p rs) {j : Nat} {tok : Token} (hj : (leavesAll rs)[j]? = some tok) :
    p.token + j < t.tokens.size ∧ (t.token (p.token + j)).kind = tok.kind := by
  have hrecords := congrArg (·[j]?) (map_tokenRecordsAll parent p rs)
  simp only [Token.getElem?_spread, List.getElem?_map, hj, Option.map_some] at hrecords
  obtain ⟨record, hrec, heq⟩ := Option.map_eq_some_iff.mp hrecords
  have hat := h.tokens.getElem?_add hrec
  refine ⟨(Array.getElem?_eq_some_iff.mp hat).1, ?_⟩
  rw [Tree.token, hat]
  exact congrArg Prod.fst heq

namespace Tree

/-- The tokens that a walk enters. -/
def enteredTokens (steps : List WalkStep) : List Nat :=
  (entered steps).filterMap fun
    | .node _ => none
    | .token j => some j

@[simp] theorem enteredTokens_append (ss ts : List WalkStep) :
    enteredTokens (ss ++ ts) = enteredTokens ss ++ enteredTokens ts := by
  simp [enteredTokens, entered]

mutual

theorem enteredTokens_walkUpTo {t : Tree} {parent : Option Nat} {p : Place} (r : Rose Token)
    (h : Embeds t parent p r) (depth : Nat) (hd : r.labels.length < depth) :
    enteredTokens (t.walkUpTo depth (element p r)) = List.range' p.token r.leaves.length := by
  obtain ⟨depth, rfl⟩ := Nat.exists_eq_succ_of_ne_zero (Nat.ne_zero_of_lt hd)
  cases r with
  | token tok => rfl
  | node label children =>
    have hinside : (labelsAll children).length < depth := by simpa [labels] using hd
    have hchildren := enteredTokens_walkUpTo_elements children h.children depth hinside
    have hnode : ∀ steps : List WalkStep, enteredTokens (.enter (.node p.node) ::
        (steps ++ [.leave (.node p.node)])) = enteredTokens steps := by
      intro steps
      simp [enteredTokens, entered]
    rw [element, walkUpTo, elements, h.node_eq, hnode]
    exact hchildren

/-- A walk below an embedded forest enters its tokens by their numbers. -/
theorem enteredTokens_walkUpTo_elements {t : Tree} {parent : Nat} {p : Place}
    (rs : List (Rose Token)) (h : EmbedsAll t parent p rs) (depth : Nat)
    (hd : (labelsAll rs).length < depth) :
    enteredTokens ((Rose.elements p rs).flatMap (t.walkUpTo depth)) =
      List.range' p.token (leavesAll rs).length := by
  cases rs with
  | nil => rfl
  | cons r rs =>
    rw [labelsAll, List.length_append] at hd
    have hr := enteredTokens_walkUpTo r h.first depth (by omega)
    have hrs := enteredTokens_walkUpTo_elements rs h.others depth (by omega)
    rw [Rose.elements, List.flatMap_cons, enteredTokens_append, hr, hrs, leavesAll,
      List.length_append, ← List.range'_append_1]
    simp [placeAfter, leavesAll]

end

/-- A walk from the root of an arena meets every token once, in the order of the table. -/
theorem tokensBelow_arena (text : String) (label : Label) (children : List (Rose Token)) :
    (arena text (.node label children)).tokensBelow 0 =
      List.range (leavesAll children).length := by
  have hsize := size_nodes_arena text (.node label children)
  have h := enteredTokens_walkUpTo _ (embeds_arena text (.node label children))
    ((arena text (.node label children)).nodes.size + 1) (by omega)
  rw [leaves] at h
  exact h.trans List.range_eq_range'.symm

/-- What a tree shows of its tokens, in the order in which a walk from the root
meets them. -/
def tokenList (t : Tree) : List Token :=
  (t.tokensBelow 0).map fun i => ⟨(t.token i).kind, (t.token i).span.length⟩

/-- The tree has a root of the given kind over exactly the given tokens. -/
structure Covers (t : Tree) (root : Kind) (tokens : List Token) : Prop where
  /-- A walk meets the tokens, none dropped and none repeated. -/
  tokenList_eq : t.tokenList = tokens
  /-- It meets every token of the table in the order of the table. -/
  tokensBelow_eq : t.tokensBelow 0 = List.range t.tokens.size
  tiles : Tiles 0 (t.tokens.toList.map (·.span)) t.text.utf8ByteSize
  label_eq : (t.node 0).label = .plain root
  span_eq : (t.node 0).span = ⟨0, t.text.utf8ByteSize⟩
  blank : ∀ i, .token i ∈ t.elements 0 → (t.token i).kind = .blank

theorem map_range_getD {α β : Type} [Inhabited α] (xs : Array α) (f : α → β) :
    (List.range xs.size).map (fun i => f (xs[i]?.getD default)) = xs.toList.map f := by
  apply List.ext_getElem
  · simp
  · intro i h₁ h₂
    have hi : i < xs.size := by simpa using h₁
    simp [hi]

/-- An arena shows the leaves of its rose tree. -/
theorem tokenList_arena (text : String) (label : Label) (children : List (Rose Token)) :
    (arena text (.node label children)).tokenList = leavesAll children := by
  have hrecords := congrArg (List.map fun p => (⟨p.1, p.2.length⟩ : Token))
    (map_tokens_arena text (.node label children))
  have hsize : (leavesAll children).length = (arena text (.node label children)).tokens.size :=
    (size_tokens_arena text (.node label children)).symm
  have hread := map_range_getD (arena text (.node label children)).tokens
    fun x => (⟨x.kind, x.span.length⟩ : Token)
  rw [List.map_map, Token.map_length_spread] at hrecords
  rw [tokenList, tokensBelow_arena, hsize]
  exact hread.trans hrecords

/-- Tokens that hang directly from a place are among the trees there. -/
theorem token_mem_elements {t : Tree} {parent : Nat} {p : Place} {rs : List (Rose Token)}
    (h : EmbedsAll t parent p rs) {i : Nat} (hi : .token i ∈ Rose.elements p rs) :
    ∃ tok, .token tok ∈ rs ∧ (t.token i).kind = tok.kind := by
  induction rs generalizing p with
  | nil => simp [Rose.elements] at hi
  | cons r rs ih =>
    rw [Rose.elements, List.mem_cons] at hi
    rcases hi with hi | hi
    · cases r with
      | token tok =>
        obtain rfl := Element.token.inj hi
        exact ⟨tok, by simp, by rw [h.first.token_eq]⟩
      | node label children => cases hi
    · obtain ⟨tok, hmem, hkind⟩ := ih h.others hi
      exact ⟨tok, by simp [hmem], hkind⟩

/-- A root laid over the tokens of a text covers them. -/
theorem covers_layRoot {text : String} {root : Kind} {f : List (Rose Kind)} {tokens : List Token}
    (hextent : extent tokens = text.utf8ByteSize)
    (hkinds : Token.significantKinds tokens = leavesAll f)
    (hnodes : ∀ r ∈ f, ∃ label children, r = .node label children) :
    (arena text (layRoot (.plain root) f tokens)).Covers root tokens := by
  have hleaves := leaves_layRoot (.plain root) f tokens
  have hroot := embeds_arena text (layRoot (.plain root) f tokens)
  have hrecords := map_tokens_arena text (layRoot (.plain root) f tokens)
  have hsize := size_tokens_arena text (layRoot (.plain root) f tokens)
  have hbelow : (arena text (layRoot (.plain root) f tokens)).tokensBelow 0 =
      List.range (arena text (layRoot (.plain root) f tokens)).tokens.size := by
    rw [hsize]
    exact tokensBelow_arena text _ _
  rw [hleaves] at hrecords
  have hspans := congrArg (List.map Prod.snd) hrecords
  rw [List.map_map] at hspans
  constructor
  · exact (tokenList_arena text _ _).trans hleaves
  · exact hbelow
  · show Tiles 0 _ text.utf8ByteSize
    have htiles := Token.tiles_spread 0 tokens
    rw [← hspans, Nat.zero_add, hextent] at htiles
    exact htiles
  · exact congrArg NodeRecord.label hroot.node_eq
  · have hspan := congrArg NodeRecord.span hroot.node_eq
    rw [layRoot, leaves] at hleaves
    rw [hleaves, hextent] at hspan
    show _ = (⟨0, text.utf8ByteSize⟩ : Span)
    simpa [Place.front] using hspan
  · intro i hi
    have helements := congrArg NodeRecord.children hroot.node_eq
    rw [elements, show (0 : Nat) = Place.front.node from rfl, helements] at hi
    obtain ⟨tok, hmem, hkind⟩ := token_mem_elements hroot.children hi
    have htrivia : tok.isTrivia = true := by
      rcases List.mem_append.mp hmem with hmem | hmem
      · exact isTrivia_of_token_mem_layAll tokens hnodes hmem
      · obtain ⟨u, hu, he⟩ := List.mem_map.mp hmem
        obtain rfl := Rose.token.inj he
        exact isTrivia_of_mem_layAll_rest hkinds hu
    rw [hkind]
    simpa [Token.isTrivia, Kind.isTrivia] using htrivia

end Tree

end TemplateTree
