import TemplateTree.Proofs.Parse
import TemplateTree.Proofs.Tree.Building
import TemplateTree.Proofs.Tree.Nesting
import TemplateTree.Proofs.Tree.Outline

/-!
# What a parse reports

The diagnostics of a parse mirror the errors of its tree in document order, and their
spans nest. The outline of the tree shows everything: parses with the same outline have
the same tree, and so they were given the same text.
-/

namespace TemplateTree

open Rose

namespace Parse

/-- The diagnostics are those of the errors of the tree. -/
structure Mirrors (parse : Parse) : Prop where
  /-- There is one diagnostic for each error that the walk from the root meets, in this order,
  with its message and its span. -/
  matched : List.Forall₂
    (fun n d => parse.tree.message? (.node n) = some d.message ∧
      parse.tree.span (.node n) = d.span)
    ((parse.tree.descendants 0).filter parse.tree.isError) parse.diagnostics
  message_ne : ∀ d ∈ parse.diagnostics, d.message ≠ ""
  /-- Nothing but errors has a message. -/
  isError_of_message : ∀ e message, parse.tree.message? e = some message →
    parse.tree.kind e = .error
  starts : (parse.diagnostics.map (·.span.start)).Pairwise (· ≤ ·)
  nests : parse.diagnostics.Pairwise fun d d' => d.span.Nests d'.span

theorem kind_of_message {t : Tree} {e : Element} {message : String}
    (h : t.message? e = some message) : t.kind e = .error := by
  cases e with
  | token i => cases h
  | node n =>
    rw [Tree.message?] at h
    rw [Tree.kind]
    cases hlabel : (t.node n).label with
    | plain kind => rw [hlabel] at h; cases h
    | failure m => rfl

/-- Where every error has a message, there is a diagnostic for each error that the walk from the
root meets. -/
theorem forall₂_diagnosticsOf {t : Tree} (hwalk : t.descendants 0 = List.range t.nodes.size)
    (hmessages : ∀ n < t.nodes.size, t.isError n = true → (t.message? (.node n)).isSome) :
    List.Forall₂
      (fun n d => t.message? (.node n) = some d.message ∧ t.span (.node n) = d.span)
      ((t.descendants 0).filter t.isError) (diagnosticsOf t) := by
  rw [hwalk, diagnosticsOf, Tree.failures, Tree.errors, List.map_map, List.forall₂_map_right_iff,
    List.forall₂_same]
  intro n hn
  obtain ⟨hsize, herror⟩ := List.mem_filter.mp hn
  obtain ⟨message, hmessage⟩ :=
    Option.isSome_iff_exists.mp (hmessages n (List.mem_range.mp hsize) herror)
  rw [Tree.message?] at hmessage ⊢
  exact ⟨by simp [hmessage], rfl⟩

/-- Diagnostics stand in the order of the records of the errors. -/
theorem pairwise_diagnosticsOf {t : Tree} (h : t.nodes.toList.Pairwise InOrder) :
    (diagnosticsOf t).Pairwise fun d d' =>
      d.span.start ≤ d'.span.start ∧ d.span.Nests d'.span := by
  rw [diagnosticsOf_eq, List.pairwise_map]
  exact h.filter _

theorem isSome_message?_ofForest {text : String} {root : Kind} {f : List (Rose Kind)}
    {tokens : List Token} {R : KindSet} (hroot : isRoot root = true)
    (hlisted : InventoriedAll R true none f) {n : Nat}
    (hn : n < (ofForest text root f tokens).tree.nodes.size)
    (herror : (ofForest text root f tokens).tree.isError n = true) :
    ((ofForest text root f tokens).tree.message? (.node n)).isSome := by
  have hmem : ((ofForest text root f tokens).tree.node n).label ∈ .plain root :: labelsAll f := by
    rw [← map_label_nodes_ofForest text root f tokens, Tree.node, Array.getElem?_eq_getElem hn]
    exact List.mem_map_of_mem (Array.getElem_mem_toList hn)
  obtain ⟨message, -, hlabel⟩ :=
    exists_message_of_error hroot hlisted hmem (of_decide_eq_true herror)
  rw [Tree.message?, hlabel]
  rfl

theorem ne_empty_of_mem_errorMessages : ∀ message ∈ errorMessages, message ≠ "" := by
  decide

/-- The diagnostics mirror the tree, whatever tokens were accepted: they are those of the errors
that the walk from the root meets, in document order, none is without a message, they begin at
offsets that never decrease, and each lies within an earlier one or begins where that has ended. -/
theorem ofStream_mirrors {text : String} {tokens : List Token} {stream : TokenStream} {root : Kind}
    (options : Options) (haccepted : TokenStream.ofTokens text tokens = .ok stream)
    (hroot : isRoot root = true) :
    ∃ parse, ofStream stream root options = .ok parse ∧ parse.Mirrors := by
  obtain ⟨f, houtcome, -, -, hparse⟩ := exists_ofStream_eq options haccepted hroot
  obtain ⟨f', hforest, hlisted⟩ := Script.ensures_iff.mp
    (Grammar.template_inventoried (R := options.recovery) root stream.kinds)
  rw [houtcome] at hforest
  obtain rfl : f = f' := by simpa using hforest
  have hwalk : (ofForest text root f tokens).tree.descendants 0 =
      List.range (ofForest text root f tokens).tree.nodes.size := Tree.descendants_arena text _ _
  have horder := pairwise_diagnosticsOf
    (pairwise_nodes_arena text (layRoot (.plain root) f tokens))
  refine ⟨_, hparse, ?_, fun d hd => ?_, fun e message => kind_of_message, ?_, ?_⟩
  · exact forall₂_diagnosticsOf hwalk fun n => isSome_message?_ofForest hroot hlisted
  · exact ne_empty_of_mem_errorMessages _ (message_mem_ofForest hroot hlisted hd)
  · exact List.pairwise_map.mpr (horder.imp And.left)
  · exact horder.imp And.right

/-- A pair without a value, whose error lies around another, and an end tag that no block waits
for, whose error has three empty ones at its end. -/
theorem ofStream_mirrors_broken :
    ∃ stream parse, TokenStream.ofTokens "\x7b\x7ba b=\x7d\x7d\x7b\x7b/if"
        [⟨.openValue, 2⟩, ⟨.ident, 1⟩, ⟨.blank, 1⟩, ⟨.ident, 1⟩, ⟨.equals, 1⟩, ⟨.close, 2⟩,
          ⟨.openEnd, 3⟩, ⟨.ident, 2⟩] = .ok stream ∧
      isRoot .template = true ∧ ofStream stream .template .standard = .ok parse ∧
      parse.diagnostics.map (·.span) =
        [⟨4, 6⟩, ⟨6, 6⟩, ⟨8, 13⟩, ⟨13, 13⟩, ⟨13, 13⟩, ⟨13, 13⟩] ∧ parse.Mirrors := by
  let stream : TokenStream := ⟨"\x7b\x7ba b=\x7d\x7d\x7b\x7b/if",
    #[⟨.openValue, 2⟩, ⟨.ident, 1⟩, ⟨.blank, 1⟩, ⟨.ident, 1⟩, ⟨.equals, 1⟩, ⟨.close, 2⟩,
      ⟨.openEnd, 3⟩, ⟨.ident, 2⟩], #[0, 1, 3, 4, 5, 6, 7], by decide⟩
  have haccepted : TokenStream.ofTokens "\x7b\x7ba b=\x7d\x7d\x7b\x7b/if"
      [⟨.openValue, 2⟩, ⟨.ident, 1⟩, ⟨.blank, 1⟩, ⟨.ident, 1⟩, ⟨.equals, 1⟩, ⟨.close, 2⟩,
        ⟨.openEnd, 3⟩, ⟨.ident, 2⟩] = .ok stream := rfl
  have hroot : isRoot .template = true := rfl
  have hspans : (ofStream stream .template .standard).toOption.map
      (·.diagnostics.map (·.span)) =
        some [⟨4, 6⟩, ⟨6, 6⟩, ⟨8, 13⟩, ⟨13, 13⟩, ⟨13, 13⟩, ⟨13, 13⟩] := by
    decide +kernel
  obtain ⟨parse, hparse, h⟩ := ofStream_mirrors .standard haccepted hroot
  rw [hparse] at hspans
  exact ⟨stream, parse, haccepted, hroot, hparse, Option.some.inj hspans, h⟩

/-- No token that is accepted is taken for an error. -/
theorem kind_ne_error {text : String} {tokens : List Token} {stream : TokenStream}
    (haccepted : TokenStream.ofTokens text tokens = .ok stream) :
    ∀ tok ∈ tokens, tok.kind ≠ .error := by
  intro tok htok herror
  have hterminal := (TokenStream.allFit_of_ofTokens haccepted).2.1.isTerminal htok
  rw [herror] at hterminal
  cases hterminal

/-- The outline determines the tree, whatever was parsed. It has one line for each node and each
token in document order, indented by two blanks for every node above it, and where two parses have
the same outline their trees are the same in everything, and their texts are. -/
theorem ofStream_outlined {text text' : String} {tokens tokens' : List Token}
    {stream stream' : TokenStream} {root root' : Kind} (options options' : Options)
    (haccepted : TokenStream.ofTokens text tokens = .ok stream)
    (haccepted' : TokenStream.ofTokens text' tokens' = .ok stream')
    (hroot : isRoot root = true) (hroot' : isRoot root' = true) :
    ∃ parse parse' outline outline', ofStream stream root options = .ok parse ∧
      ofStream stream' root' options' = .ok parse' ∧
      parse.tree.outline? = some outline ∧ parse'.tree.outline? = some outline' ∧
      parse.tree.Outlined outline ∧
      (outline = outline' → parse.tree = parse'.tree ∧ text = text') := by
  have hkinds := kind_ne_error haccepted
  have hkinds' := kind_ne_error haccepted'
  obtain ⟨f, -, -, -, hparse⟩ := exists_ofStream_eq options haccepted hroot
  obtain ⟨f', -, -, -, hparse'⟩ := exists_ofStream_eq options' haccepted' hroot'
  obtain ⟨pieces, rfl, rfl⟩ := TokenStream.exists_pieces_of_ofTokens haccepted
  obtain ⟨pieces', rfl, rfl⟩ := TokenStream.exists_pieces_of_ofTokens haccepted'
  have hleaves := leaves_layRoot (.plain root) f (Pieces.tokens pieces)
  have hleaves' := leaves_layRoot (.plain root') f' (Pieces.tokens pieces')
  obtain ⟨outline, houtline, houtlined⟩ := Tree.outlined_arena (Tree.slices_arena hleaves)
  obtain ⟨outline', houtline', -⟩ := Tree.outlined_arena (Tree.slices_arena hleaves')
  refine ⟨_, _, outline, outline', hparse, hparse', houtline, houtline', houtlined, ?_⟩
  rintro rfl
  have htree := Tree.arena_eq_of_outline?_eq hleaves hleaves'
    (fun tok h => hkinds tok (hleaves ▸ h)) (fun tok h => hkinds' tok (hleaves' ▸ h))
    (houtline.trans houtline'.symm)
  exact ⟨htree, congrArg Tree.text htree⟩

/-- A line feed, a quote and a character without a printed form in the content, and a tag that
breaks off, read with two recovery sets. -/
theorem ofStream_outlined_lineFeed :
    ∃ stream parse parse' outline, TokenStream.ofTokens "\n\"\u200b\x7b\x7b#"
        [⟨.content, 5⟩, ⟨.openValue, 2⟩, ⟨.invalid, 1⟩] = .ok stream ∧ isRoot .template = true ∧
      ofStream stream .template .standard = .ok parse ∧
      ofStream stream .template ⟨∅⟩ = .ok parse' ∧
      parse.tree.outline? = some outline ∧ parse'.tree.outline? = some outline ∧
      parse.tree.Outlined outline ∧ parse.tree = parse'.tree := by
  let stream : TokenStream := ⟨"\n\"\u200b\x7b\x7b#",
    #[⟨.content, 5⟩, ⟨.openValue, 2⟩, ⟨.invalid, 1⟩], #[0, 1, 2], by decide⟩
  have haccepted : TokenStream.ofTokens "\n\"\u200b\x7b\x7b#"
      [⟨.content, 5⟩, ⟨.openValue, 2⟩, ⟨.invalid, 1⟩] = .ok stream := rfl
  have hroot : isRoot .template = true := rfl
  have hsame : (ofStream stream .template .standard).toOption.bind (·.tree.outline?) =
      (ofStream stream .template ⟨∅⟩).toOption.bind (·.tree.outline?) := by
    decide +kernel
  obtain ⟨parse, parse', outline, outline', hparse, hparse', houtline, houtline', houtlined,
    hsame'⟩ := ofStream_outlined .standard ⟨∅⟩ haccepted haccepted hroot hroot
  rw [hparse, hparse'] at hsame
  obtain rfl : outline = outline' := Option.some.inj (houtline.symm.trans (hsame.trans houtline'))
  exact ⟨stream, parse, parse', outline, haccepted, hroot, hparse, hparse', houtline, houtline',
    houtlined, (hsame' rfl).1⟩

end Parse

end TemplateTree
