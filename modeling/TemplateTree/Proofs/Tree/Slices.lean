import TemplateTree.Proofs.Text.Pieces
import TemplateTree.Proofs.Tree.Lookup
import TemplateTree.Tree.Outline

/-!
# Texts of the parts of a tree

A node stands over a stretch of the tokens of its tree, and its span runs from where
they start to where they end. If the tokens cut the text of the tree into pieces, then
every span cuts out the pieces of the tokens below, so nothing that asks for the text
of an element fails, and the text of a node is what the texts of its tokens make up.
-/

namespace TemplateTree

open Rose

namespace Rose

/-- A node at this place stands over a stretch of these tokens, with the others before
and behind it. -/
def Over (tokens : List Token) (p : Place) (children : List (Rose Token)) : Prop :=
  ∃ before after, tokens = before ++ leavesAll children ++ after ∧ p.token = before.length ∧
    p.offset = extent before

mutual

theorem everywhere_over {tokens before after : List Token} {p : Place} (r : Rose Token)
    (h : tokens = before ++ r.leaves ++ after) (htoken : p.token = before.length)
    (hoffset : p.offset = extent before) : Everywhere (Over tokens) p r := by
  cases r with
  | token t => trivial
  | node label children =>
    exact ⟨⟨before, after, h, htoken, hoffset⟩, everywhereAll_over children h htoken hoffset⟩

/-- All nodes of a forest stand over its tokens, wherever the forest stands. -/
theorem everywhereAll_over {tokens before after : List Token} {p : Place} (rs : List (Rose Token))
    (h : tokens = before ++ leavesAll rs ++ after) (htoken : p.token = before.length)
    (hoffset : p.offset = extent before) : EverywhereAll (Over tokens) p rs := by
  cases rs with
  | nil => trivial
  | cons r rs =>
    have hfirst : tokens = before ++ r.leaves ++ (leavesAll rs ++ after) := by
      simp [h, leavesAll]
    have hothers : tokens = (before ++ r.leaves) ++ leavesAll rs ++ after := by
      simp [h, leavesAll]
    exact ⟨everywhere_over r hfirst htoken hoffset,
      everywhereAll_over rs hothers (by simp [placeAfter, leavesAll, htoken])
        (by simp [placeAfter, leavesAll, hoffset])⟩

end

end Rose

namespace Tree

/-- Every part of a tree has its text. -/
structure Slices (t : Tree) : Prop where
  /-- The spans of all elements cut pieces out of the text. -/
  within : ∀ e, (t.span e).Within t.text
  isSome_textOf : ∀ e, (t.textOf? e).isSome
  isSome_outline : t.outline?.isSome
  /-- The text of a node consists of the texts of the tokens below it. -/
  texts : ∀ n < t.nodes.size, ∃ texts,
    (t.tokensBelow n).map (fun i => t.textOf? (.token i)) = texts.map some ∧
      t.textOf? (.node n) = some (String.join texts)

section

variable {t : Tree}

theorem isSome_textOf?_of_within {e : Element} (h : (t.span e).Within t.text) :
    (t.textOf? e).isSome := h.isSome_slice?

/-- An outline asks for nothing but the texts of tokens. -/
theorem isSome_outline?_of_within (h : ∀ e, (t.span e).Within t.text) : t.outline?.isSome := by
  rw [outline?, Option.isSome_map, lines?]
  refine isSome_mapM fun p _ => ?_
  obtain ⟨depth, e⟩ := p
  rw [line?, Option.isSome_map]
  cases e with
  | node i => rfl
  | token i =>
    rw [remark?, Option.isSome_map]
    exact isSome_textOf?_of_within (h _)

/-- What is out of range reads as an empty record at the front of the text. -/
theorem within_default (source : String) : (default : Span).Within source :=
  ⟨Nat.le_refl _, Nat.zero_le _, isBoundary_zero source, isBoundary_zero source⟩

theorem token_of_size_le {i : Nat} (h : t.tokens.size ≤ i) : t.token i = default := by
  simp [token, h]

end

section

variable {label : Label} {children : List (Rose Token)} {pieces : List (Kind × String)}

/-- The nodes of an arena stand over stretches of the tokens. -/
theorem exists_stretch_arena {text : String} {n : Nat}
    (hn : n < (arena text (.node label children)).nodes.size) :
    ∃ before inside after, leavesAll children = before ++ inside ++ after ∧
      ((arena text (.node label children)).node n).span =
        ⟨extent before, extent before + extent inside⟩ ∧
      (arena text (.node label children)).tokensBefore n = List.range before.length ∧
      (arena text (.node label children)).tokensBelow n =
        List.range' before.length inside.length := by
  have hall : leavesAll children = [] ++ leavesAll children ++ [] := (List.append_nil _).symm
  by_cases hroot : n = 0
  · subst hroot
    have hembeds := embeds_arena text (.node label children)
    refine ⟨[], leavesAll children, [], hall, ?_, ?_, tokensBelow_of_embeds hembeds⟩
    · exact congrArg NodeRecord.span hembeds.node_eq
    · rw [tokensBefore, walk_root_arena]
      simp [enteredTokens, entered]
  · have hover := everywhereAll_over children (p := placeInside .front) hall rfl rfl
    obtain ⟨q, p, l, cs, rfl, hembeds, ⟨before, after, hsplit, htoken, hoffset⟩, hbefore⟩ :=
      exists_place_of_lt hover hroot hn
    refine ⟨before, leavesAll cs, after, hsplit, ?_, ?_, ?_⟩
    · rw [hembeds.node_eq, hoffset]
    · rw [hbefore, htoken]
    · rw [tokensBelow_of_embeds hembeds, htoken]

variable (h : leavesAll children = Pieces.tokens pieces)

include h

/-- The tokens of an arena have the pieces as their texts. -/
theorem textOf?_token_arena {i : Nat} {p : Kind × String} (hp : pieces[i]? = some p) :
    (arena (Pieces.text pieces) (.node label children)).textOf? (.token i) = some p.2 := by
  have hrecords := map_tokens_arena (Pieces.text pieces) (.node label children)
  rw [leaves, h] at hrecords
  have hslices := Pieces.map_slice?_spread [] pieces
  rw [show extent (Pieces.tokens []) = 0 from rfl, ← hrecords, List.map_map] at hslices
  have hat := congrArg (·[i]?) hslices
  simp only [List.getElem?_map, hp, Option.map_some] at hat
  obtain ⟨record, hrecord, hslice⟩ := Option.map_eq_some_iff.mp hat
  rw [Array.getElem?_toList] at hrecord
  rw [textOf?, span, token, hrecord]
  exact hslice

theorem textOf?_node_arena {n : Nat}
    (hn : n < (arena (Pieces.text pieces) (.node label children)).nodes.size) :
    ∃ texts, ((arena (Pieces.text pieces) (.node label children)).tokensBelow n).map
        (fun i => (arena (Pieces.text pieces) (.node label children)).textOf? (.token i)) =
          texts.map some ∧
      (arena (Pieces.text pieces) (.node label children)).textOf? (.node n) =
        some (String.join texts) := by
  obtain ⟨before, inside, after, hsplit, hspan, -, hbelow⟩ := exists_stretch_arena hn
  rw [h] at hsplit
  obtain ⟨front, last, rfl, hfront, rfl⟩ := List.map_eq_append_iff.mp hsplit
  obtain ⟨first, middle, rfl, rfl, rfl⟩ := List.map_eq_append_iff.mp hfront
  refine ⟨middle.map (·.2), ?_, ?_⟩
  · rw [hbelow]
    refine List.ext_getElem (by simp) fun j hj _ => ?_
    have hlt : j < middle.length := by simpa using hj
    have hpiece := getElem?_middle first last (List.getElem?_eq_getElem hlt)
    simpa using textOf?_token_arena h hpiece
  · rw [textOf?, span, hspan]
    exact Pieces.slice?_text first middle last

/-- An arena over the tokens of pieces has all the texts of its parts. -/
theorem slices_arena : (arena (Pieces.text pieces) (.node label children)).Slices := by
  have hwithin : ∀ e, ((arena (Pieces.text pieces) (.node label children)).span e).Within
      (Pieces.text pieces) := by
    intro e
    cases e with
    | node n =>
      by_cases hn : n < (arena (Pieces.text pieces) (.node label children)).nodes.size
      · obtain ⟨texts, -, htext⟩ := textOf?_node_arena h hn
        exact Span.within_of_slice?_eq_some htext
      · rw [span, node_of_size_le (Nat.not_lt.mp hn)]
        exact within_default _
    | token i =>
      by_cases hi : i < (arena (Pieces.text pieces) (.node label children)).tokens.size
      · have hlt : i < pieces.length := by
          rwa [size_tokens_arena, leaves, h, Pieces.tokens, List.length_map] at hi
        exact Span.within_of_slice?_eq_some
          (textOf?_token_arena h (List.getElem?_eq_getElem hlt))
      · rw [span, token_of_size_le (Nat.not_lt.mp hi)]
        exact within_default _
  exact ⟨hwithin, fun e => isSome_textOf?_of_within (hwithin e), isSome_outline?_of_within hwithin,
    fun n hn => textOf?_node_arena h hn⟩

end

end Tree

end TemplateTree
