import TemplateTree.Parse
import TemplateTree.Proofs.Grammar.CleanTrees
import TemplateTree.Proofs.Grammar.Firm
import TemplateTree.Proofs.Grammar.Inventory
import TemplateTree.Proofs.Grammar.Settled
import TemplateTree.Proofs.Grammar.StatementReading
import TemplateTree.Proofs.Grammar.TemplateShape
import TemplateTree.Proofs.Replay
import TemplateTree.Proofs.Rose.Hollow
import TemplateTree.Proofs.TokenStream.Pieces
import TemplateTree.Proofs.Tree.Blanks
import TemplateTree.Proofs.Tree.Slices

/-!
# What a parse returns

Whatever tokens are accepted for a text and whatever the recovery set is, a
parse returns a tree. It is the forest that the grammar grows over the kinds of
the significant tokens, put below the root and laid over all the tokens. From
this everything else follows: what is known of the forest is known of the tree
without its blank tokens, the messages of the diagnostics are those of the
errors among the labels of the forest, and the tree covers the tokens, with the
blank ones where laying puts them, and has the texts of all its parts.
-/

namespace TemplateTree

open Rose TreeGrammar

namespace Parse

/-- The parse whose tree is a root with a forest below it, laid over tokens. -/
def ofForest (text : String) (root : Kind) (f : List (Rose Kind)) (tokens : List Token) : Parse :=
  let tree := arena text (layRoot (.plain root) f tokens)
  ⟨tree, diagnosticsOf tree⟩

/-- Without the blank tokens the tree is the root over the forest and over the
significant tokens that the forest leaves. -/
theorem significant_ofForest_append {text : String} {root : Kind} {f : List (Rose Kind)}
    {tokens : List Token} {more : List Kind}
    (h : Token.significantKinds tokens = leavesAll f ++ more) :
    (ofForest text root f tokens).tree.shape.significant =
      [.node (.plain root) (f ++ more.map .token)] := by
  show (arena text (layRoot (.plain root) f tokens)).shape.significant = _
  rw [layRoot, shape_arena]
  exact significant_layRoot (.plain root) f tokens more h

/-- The forest accounts for all the significant tokens. -/
theorem significant_ofForest {text : String} {root : Kind} {f : List (Rose Kind)}
    {tokens : List Token} (h : Token.significantKinds tokens = leavesAll f) :
    (ofForest text root f tokens).tree.shape.significant = [.node (.plain root) f] := by
  have hall : Token.significantKinds tokens = leavesAll f ++ [] := by rw [h, List.append_nil]
  simpa using @significant_ofForest_append text root f tokens [] hall

/-- The diagnostics are those of the error nodes in the order of their numbers. -/
theorem diagnosticsOf_eq (t : Tree) :
    diagnosticsOf t = (t.nodes.toList.filter fun x => x.label.kind = .error).map
      fun x => ⟨x.label.message?.getD "", x.span⟩ := by
  have hnodes : (List.range t.nodes.size).map t.node = t.nodes.toList :=
    (Tree.map_range_getD t.nodes id).trans (List.map_id _)
  rw [← hnodes, List.filter_map, List.map_map, diagnosticsOf, Tree.failures, Tree.errors,
    List.map_map]
  rfl

/-- The nodes carry the labels of the root and of the forest in document order. -/
theorem map_label_nodes_ofForest (text : String) (root : Kind) (f : List (Rose Kind))
    (tokens : List Token) :
    (ofForest text root f tokens).tree.nodes.toList.map (·.label) = .plain root :: labelsAll f := by
  show (arena text (layRoot (.plain root) f tokens)).nodes.toList.map (·.label) = _
  rw [map_label_nodes_arena, labels_layRoot]

/-- The messages are those of the errors in the forest, whatever the tokens are. -/
theorem map_message_diagnostics_ofForest {text : String} {root : Kind} {f : List (Rose Kind)}
    {tokens : List Token} :
    (ofForest text root f tokens).diagnostics.map (·.message) =
      ((.plain root :: labelsAll f).filter fun l => l.kind = .error).map
        fun l => l.message?.getD "" := by
  show (diagnosticsOf (ofForest text root f tokens).tree).map (·.message) = _
  rw [← map_label_nodes_ofForest text root f tokens, diagnosticsOf_eq, List.filter_map,
    List.map_map, List.map_map]
  rfl

/-- There are no diagnostics exactly if there are no errors in the forest. -/
theorem diagnostics_ofForest_eq_nil_iff {text : String} {root : Kind} {f : List (Rose Kind)}
    {tokens : List Token} (hroot : isRoot root = true) :
    (ofForest text root f tokens).diagnostics = [] ↔ ErrorFree f := by
  have herror : root ≠ .error := by
    rintro rfl
    cases hroot
  rw [← List.map_eq_nil_iff, map_message_diagnostics_ofForest, List.map_eq_nil_iff,
    List.filter_eq_nil_iff, List.forall_mem_cons]
  simp only [decide_eq_true_eq]
  exact and_iff_right herror

/-- There is a diagnostic for each error of the forest, with its message, and it covers
nothing of the text if the error has no tokens. -/
theorem forall₂_diagnostics_ofForest (text : String) {root : Kind} {f : List (Rose Kind)}
    {tokens : List Token} (hroot : isRoot root = true)
    (h : Token.significantKinds tokens = leavesAll f) :
    List.Forall₂ (fun d e => d.message = e.1.message?.getD "" ∧
        (e.2 = true → d.span.isEmpty = true))
      (ofForest text root f tokens).diagnostics (flaws f) := by
  have herror : root ≠ .error := by
    rintro rfl
    cases hroot
  have hrecords := forall₂_nodeRecords none .front (layRoot (.plain root) f tokens)
  rw [hollows_layRoot (.plain root) f tokens [] (by rw [h, List.append_nil])] at hrecords
  have hfilter := List.rel_filter (p := fun x : NodeRecord => x.label.kind = .error)
    (q := fun e : Label × Bool => e.1.kind = .error)
    (fun x e hxe => by simp [hxe.1]) hrecords
  rw [List.filter_cons_of_neg (by simp [Label.kind, herror])] at hfilter
  show List.Forall₂ _ (diagnosticsOf (arena text (layRoot (.plain root) f tokens))) _
  rw [diagnosticsOf_eq, List.forall₂_map_left_iff]
  exact hfilter.imp fun x e hxe => ⟨by rw [hxe.1], hxe.2⟩

/-- Where a session over an accepted stream has written down a root with its
forest, the parse is that root laid over the tokens. -/
theorem ofSession_eq {text : String} {tokens : List Token} {stream : TokenStream} {root : Kind}
    {f : List (Rose Kind)} {more : List Kind} {s : Session}
    (haccepted : TokenStream.ofTokens text tokens = .ok stream) (hstream : s.stream = stream)
    (hjournal : Journal.settled s.journal.toList =
      Journal.settled (entriesAll 0 [.node (.plain root) f]))
    (hroot : root ≠ .placeholder) (hsettled : Settled f)
    (hkinds : stream.kinds = leavesAll f ++ more) :
    ofSession s = .ok (ofForest text root f tokens) := by
  obtain ⟨rfl, rfl, hextent, hlimit⟩ := TokenStream.ofTokens_eq_ok haccepted
  have hnode : Settled [.node (.plain root) f] := .node (by simpa using hroot) hsettled
  rw [Journal.settled_entriesAll 0 _ hnode] at hjournal
  subst hstream
  rw [ofSession, Session.finish_eq (hjournal.trans (List.append_nil _)) hnode hkinds hextent hlimit]
  rfl

/-- Where the grammar grows a root over all kinds, the parse is that root laid
over the tokens. -/
theorem ofStream_eq {text : String} {tokens : List Token} {stream : TokenStream} {root : Kind}
    {options : Options} {f : List (Rose Kind)}
    (haccepted : TokenStream.ofTokens text tokens = .ok stream) (hroot : isRoot root = true)
    (houtcome : (Grammar.template root).outcome options.recovery stream.kinds =
      ⟨(), [], [.node (.plain root) f]⟩) (hsettled : Settled f) :
    ofStream stream root options = .ok (ofForest text root f tokens) := by
  have hroot' : root ≠ .placeholder := by
    rintro rfl
    cases hroot
  have hrest : (Session.start stream options.recovery).rest = stream.kinds := rfl
  have hjournal : Journal.settled
      ((Grammar.template root).run (.start stream options.recovery)).2.journal.toList =
        Journal.settled (entriesAll 0 [.node (.plain root) f]) := by
    have hrecorded := Script.settled_recording options.recovery (Grammar.template root) 0
      stream.kinds
    rw [houtcome] at hrecorded
    rw [Script.run_eq, hrest, ← hrecorded]
    simp [Session.after, Session.start]
  have hleaves := Script.leavesAll_append_rest options.recovery (Grammar.template root) stream.kinds
  rw [houtcome] at hleaves
  have hkinds : stream.kinds = leavesAll f ++ [] := by
    simpa [leavesAll, leaves] using hleaves.symm
  have hstream := Script.stream_run (Grammar.template root) (.start stream options.recovery)
  rw [ofStream, if_pos hroot, run,
    ofSession_eq haccepted hstream hjournal hroot' hsettled hkinds]

/-- Every accepted stream has a parse, which is the outcome of the grammar on
its significant kinds, laid over its tokens; and that outcome obeys the rules. -/
theorem exists_ofStream_eq {text : String} {tokens : List Token} {stream : TokenStream}
    {root : Kind} (options : Options) (haccepted : TokenStream.ofTokens text tokens = .ok stream)
    (hroot : isRoot root = true) :
    ∃ f, (Grammar.template root).outcome options.recovery stream.kinds =
        ⟨(), [], [.node (.plain root) f]⟩ ∧ Shaped templateTrees f ∧
      Token.significantKinds tokens = leavesAll f ∧
      ofStream stream root options = .ok (ofForest text root f tokens) := by
  obtain ⟨f, hforest, hrest, hshaped⟩ := Script.ensures_iff.mp
    (Grammar.template_shaped (R := options.recovery) root stream.kinds)
  have houtcome : (Grammar.template root).outcome options.recovery stream.kinds =
      ⟨(), [], [.node (.plain root) f]⟩ := by
    rw [← hforest, ← hrest]
  have hleaves := Script.leavesAll_append_rest options.recovery (Grammar.template root) stream.kinds
  obtain ⟨-, htokens, -, -⟩ := TokenStream.ofTokens_eq_ok haccepted
  rw [houtcome, TokenStream.kinds_eq_significantKinds, htokens] at hleaves
  refine ⟨f, houtcome, hshaped, ?_, ofStream_eq haccepted hroot houtcome hshaped.settled⟩
  simpa [leavesAll, leaves] using hleaves.symm

/-- Full coverage: an accepted stream is read into a tree that covers exactly
its tokens, whether the template is well formed or not. -/
theorem ofStream_covers {text : String} {tokens : List Token} {stream : TokenStream} {root : Kind}
    (options : Options) (haccepted : TokenStream.ofTokens text tokens = .ok stream)
    (hroot : isRoot root = true) :
    ∃ parse, ofStream stream root options = .ok parse ∧ parse.tree.text = text ∧
      parse.tree.Covers root tokens := by
  obtain ⟨f, -, hshaped, hleaves, hparse⟩ := exists_ofStream_eq options haccepted hroot
  obtain ⟨-, -, hextent, -⟩ := TokenStream.ofTokens_eq_ok haccepted
  have hnodes : ∀ r ∈ f, ∃ label children, r = .node label children :=
    fun r hr => hshaped.isNode (by decide) hr
  exact ⟨_, hparse, rfl, Tree.covers_layRoot hextent hleaves hnodes⟩

theorem ofStream_covers_unclosed :
    ∃ parse, ofStream
        ⟨"\x7b\x7ba ", #[⟨.openValue, 2⟩, ⟨.ident, 1⟩, ⟨.blank, 1⟩], #[0, 1], by decide⟩
        .template .standard = .ok parse ∧ parse.tree.text = "\x7b\x7ba " ∧
      parse.tree.Covers .template [⟨.openValue, 2⟩, ⟨.ident, 1⟩, ⟨.blank, 1⟩] :=
  ofStream_covers .standard rfl rfl

/-- Every tree obeys the rules of trees: without the blank tokens, the children
of the root form programs with an error between any two, and the children of
every other node that is not an error have the form that its kind tells. -/
theorem ofStream_conforms {text : String} {tokens : List Token} {stream : TokenStream}
    {root : Kind} (options : Options) (haccepted : TokenStream.ofTokens text tokens = .ok stream)
    (hroot : isRoot root = true) :
    ∃ parse f, ofStream stream root options = .ok parse ∧
      parse.tree.shape.significant = [.node (.plain root) f] ∧
      f.map symbol ∈ templateTrees.matches' ∧ ConformsAll contents f := by
  obtain ⟨f, -, hshaped, hleaves, hparse⟩ := exists_ofStream_eq options haccepted hroot
  exact ⟨_, f, hparse, significant_ofForest hleaves, hshaped.symbols,
    hshaped.below.mono mem_contents_of_mem_strictContents⟩

theorem ofStream_conforms_unclosed :
    ∃ parse f, ofStream
        ⟨"\x7b\x7ba ", #[⟨.openValue, 2⟩, ⟨.ident, 1⟩, ⟨.blank, 1⟩], #[0, 1], by decide⟩
        .template .standard = .ok parse ∧
      parse.tree.shape.significant = [.node (.plain .template) f] ∧
      f.map symbol ∈ templateTrees.matches' ∧ ConformsAll contents f :=
  ofStream_conforms .standard
    (show TokenStream.ofTokens "\x7b\x7ba "
      [⟨.openValue, 2⟩, ⟨.ident, 1⟩, ⟨.blank, 1⟩] = _ from rfl)
    rfl

theorem isRoot_of_ofStream_eq_ok {stream : TokenStream} {root : Kind} {options : Options}
    {parse : Parse} (h : ofStream stream root options = .ok parse) : isRoot root = true := by
  unfold ofStream at h
  split at h
  · assumption
  · cases h

/-- No malformed template is accepted silently: without diagnostics the kinds of
the significant tokens are the yield of a derivation. -/
theorem exists_yield_eq_of_diagnostics_eq_nil {text : String} {tokens : List Token}
    {stream : TokenStream} {root : Kind} {options : Options} {parse : Parse}
    (haccepted : TokenStream.ofTokens text tokens = .ok stream)
    (hparse : ofStream stream root options = .ok parse) (hclean : parse.diagnostics = []) :
    ∃ d : Derivation.Program, d.yield = stream.kinds := by
  have hroot := isRoot_of_ofStream_eq_ok hparse
  obtain ⟨f, -, hshaped, hleaves, hover⟩ := exists_ofStream_eq options haccepted hroot
  obtain ⟨-, htokens, -, -⟩ := TokenStream.ofTokens_eq_ok haccepted
  obtain rfl : ofForest text root f tokens = parse := Except.ok.inj (hover.symm.trans hparse)
  have herrors := (diagnostics_ofForest_eq_nil_iff hroot).mp hclean
  obtain ⟨d, rfl⟩ := Clean.exists_program_of_template ⟨hshaped, herrors⟩
  refine ⟨d, ?_⟩
  rw [TokenStream.kinds_eq_significantKinds, htokens, hleaves, Derivation.leavesAll_program]

theorem exists_yield_eq_mustache :
    ∃ stream parse, TokenStream.ofTokens "\x7b\x7ba\x7d\x7d"
        [⟨.openValue, 2⟩, ⟨.ident, 1⟩, ⟨.close, 2⟩] = .ok stream ∧
      ofStream stream .template .standard = .ok parse ∧ parse.diagnostics = [] ∧
      ∃ d : Derivation.Program, d.yield = stream.kinds := by
  let stream : TokenStream := ⟨"\x7b\x7ba\x7d\x7d",
    #[⟨.openValue, 2⟩, ⟨.ident, 1⟩, ⟨.close, 2⟩], #[0, 1, 2], by decide⟩
  have haccepted : TokenStream.ofTokens "\x7b\x7ba\x7d\x7d"
      [⟨.openValue, 2⟩, ⟨.ident, 1⟩, ⟨.close, 2⟩] = .ok stream := rfl
  have hclean : (ofStream stream .template .standard).toOption.map (·.diagnostics) = some [] := by
    decide +kernel
  obtain ⟨f, -, -, -, hparse⟩ := exists_ofStream_eq .standard haccepted
    (show isRoot .template = true from rfl)
  rw [hparse] at hclean
  have hnil := Option.some.inj hclean
  exact ⟨_, _, haccepted, hparse, hnil,
    exists_yield_eq_of_diagnostics_eq_nil haccepted hparse hnil⟩

/-- Every well-formed template is read without diagnostics into the tree of its
derivation: the tree of the parse without the blank tokens is a root over the
forest of the derivation, wherever blank tokens stand in the stream. -/
theorem ofStream_of_kinds_eq_yield {text : String} {tokens : List Token} {stream : TokenStream}
    {root : Kind} (options : Options) (d : Derivation.Program)
    (haccepted : TokenStream.ofTokens text tokens = .ok stream) (hroot : isRoot root = true)
    (hyield : stream.kinds = d.yield) :
    ∃ parse, ofStream stream root options = .ok parse ∧ parse.diagnostics = [] ∧
      parse.tree.shape.significant = [.node (.plain root) d.forest] := by
  obtain ⟨f, houtcome, -, hleaves, hparse⟩ := exists_ofStream_eq options haccepted hroot
  rw [hyield, Grammar.template_outcome] at houtcome
  obtain rfl : d.forest = f := by simpa using houtcome
  exact ⟨_, hparse, (diagnostics_ofForest_eq_nil_iff hroot).mpr (Derivation.errorFree_program d),
    significant_ofForest hleaves⟩

theorem ofStream_of_kinds_eq_yield_mustache :
    ∃ stream parse, TokenStream.ofTokens "x\x7b\x7b a\x7d\x7d"
        [⟨.content, 1⟩, ⟨.openValue, 2⟩, ⟨.blank, 1⟩, ⟨.ident, 1⟩, ⟨.close, 2⟩] = .ok stream ∧
      ofStream stream .template .standard = .ok parse ∧ parse.diagnostics = [] ∧
      parse.tree.shape.significant = [.node (.plain .template) [.node (.plain .statements)
        [.token .content, Derivation.tag .mustache .openValue [.node (.plain .expression)
          [.node (.plain .path) [Derivation.leaf .ident]]]]]] := by
  let stream : TokenStream := ⟨"x\x7b\x7b a\x7d\x7d",
    #[⟨.content, 1⟩, ⟨.openValue, 2⟩, ⟨.blank, 1⟩, ⟨.ident, 1⟩, ⟨.close, 2⟩], #[0, 1, 3, 4],
    by decide⟩
  let d : Derivation.Program := .plain (.more .content (.last (.mustache false ⟨⟨0⟩, [], []⟩)))
  have haccepted : TokenStream.ofTokens "x\x7b\x7b a\x7d\x7d"
      [⟨.content, 1⟩, ⟨.openValue, 2⟩, ⟨.blank, 1⟩, ⟨.ident, 1⟩, ⟨.close, 2⟩] = .ok stream := rfl
  have hyield : stream.kinds = d.yield := by decide
  obtain ⟨parse, hparse⟩ := ofStream_of_kinds_eq_yield .standard d haccepted
    (show isRoot .template = true from rfl) hyield
  exact ⟨stream, parse, haccepted, hparse⟩

/-- Structure depends on the significant kinds only: two streams that agree on
them are read into trees that are the same once the blank tokens are left out,
and their diagnostics have the same messages in the same order. -/
theorem ofStream_of_kinds_eq {text text' : String} {tokens tokens' : List Token}
    {stream stream' : TokenStream} {root : Kind} (options : Options)
    (haccepted : TokenStream.ofTokens text tokens = .ok stream)
    (haccepted' : TokenStream.ofTokens text' tokens' = .ok stream') (hroot : isRoot root = true)
    (hkinds : stream.kinds = stream'.kinds) :
    ∃ parse parse', ofStream stream root options = .ok parse ∧
      ofStream stream' root options = .ok parse' ∧
      parse.tree.shape.significant = parse'.tree.shape.significant ∧
      parse.diagnostics.map (·.message) = parse'.diagnostics.map (·.message) := by
  obtain ⟨f, houtcome, -, hleaves, hparse⟩ := exists_ofStream_eq options haccepted hroot
  obtain ⟨f', houtcome', -, hleaves', hparse'⟩ := exists_ofStream_eq options haccepted' hroot
  rw [← hkinds, houtcome] at houtcome'
  obtain rfl : f = f' := by simpa using houtcome'
  refine ⟨_, _, hparse, hparse', ?_, ?_⟩
  · rw [significant_ofForest hleaves, significant_ofForest hleaves']
  · rw [map_message_diagnostics_ofForest, map_message_diagnostics_ofForest]

theorem ofStream_of_kinds_eq_unclosed :
    ∃ stream stream' parse parse',
      TokenStream.ofTokens "\x7b\x7b a=" [⟨.openValue, 2⟩, ⟨.blank, 1⟩, ⟨.ident, 1⟩, ⟨.equals, 1⟩]
        = .ok stream ∧
      TokenStream.ofTokens "\x7b\x7bbc =\n"
        [⟨.openValue, 2⟩, ⟨.ident, 2⟩, ⟨.blank, 1⟩, ⟨.equals, 1⟩, ⟨.blank, 1⟩] = .ok stream' ∧
      ofStream stream .template .standard = .ok parse ∧
      ofStream stream' .template .standard = .ok parse' ∧
      parse.tree.shape.significant = parse'.tree.shape.significant ∧
      parse.diagnostics.map (·.message) = parse'.diagnostics.map (·.message) := by
  let stream : TokenStream := ⟨"\x7b\x7b a=",
    #[⟨.openValue, 2⟩, ⟨.blank, 1⟩, ⟨.ident, 1⟩, ⟨.equals, 1⟩], #[0, 2, 3], by decide⟩
  let stream' : TokenStream := ⟨"\x7b\x7bbc =\n",
    #[⟨.openValue, 2⟩, ⟨.ident, 2⟩, ⟨.blank, 1⟩, ⟨.equals, 1⟩, ⟨.blank, 1⟩], #[0, 1, 3],
    by decide⟩
  have haccepted : TokenStream.ofTokens "\x7b\x7b a="
      [⟨.openValue, 2⟩, ⟨.blank, 1⟩, ⟨.ident, 1⟩, ⟨.equals, 1⟩] = .ok stream := rfl
  have haccepted' : TokenStream.ofTokens "\x7b\x7bbc =\n"
      [⟨.openValue, 2⟩, ⟨.ident, 2⟩, ⟨.blank, 1⟩, ⟨.equals, 1⟩, ⟨.blank, 1⟩] = .ok stream' := rfl
  obtain ⟨parse, parse', h⟩ := ofStream_of_kinds_eq .standard haccepted haccepted'
    (show isRoot .template = true from rfl) (by decide)
  exact ⟨stream, stream', parse, parse', haccepted, haccepted', h⟩

/-- The tree has all the tokens, and the blank ones among them are always placed in the
same way: each hangs from the lowest node around its significant neighbours, or
from the root where one of them is missing, and a node without tokens stands right
behind a significant token. -/
theorem ofStream_placesBlanks {text : String} {tokens : List Token} {stream : TokenStream}
    {root : Kind} (options : Options) (haccepted : TokenStream.ofTokens text tokens = .ok stream)
    (hroot : isRoot root = true) :
    ∃ parse, ofStream stream root options = .ok parse ∧ parse.tree.tokenList = tokens ∧
      parse.tree.PlacesBlanks := by
  obtain ⟨f, houtcome, -, hleaves, hparse⟩ := exists_ofStream_eq options haccepted hroot
  obtain ⟨f', hforest, hfirm⟩ := Script.ensures_iff.mp
    (Grammar.template_firm (R := options.recovery) root stream.kinds)
  rw [houtcome] at hforest
  obtain rfl : f = f' := by simpa using hforest
  refine ⟨_, hparse, ?_, Tree.placesBlanks_layRoot hleaves hfirm⟩
  exact (Tree.tokenList_arena text _ _).trans (leaves_layRoot (.plain root) f tokens)

theorem ofStream_placesBlanks_unclosed :
    ∃ parse, ofStream
        ⟨"\x7b\x7b #a ", #[⟨.openValue, 2⟩, ⟨.blank, 1⟩, ⟨.invalid, 1⟩, ⟨.ident, 1⟩, ⟨.blank, 1⟩],
          #[0, 2, 3], by decide⟩
        .template .standard = .ok parse ∧
      parse.tree.tokenList =
        [⟨.openValue, 2⟩, ⟨.blank, 1⟩, ⟨.invalid, 1⟩, ⟨.ident, 1⟩, ⟨.blank, 1⟩] ∧
      parse.tree.PlacesBlanks :=
  ofStream_placesBlanks .standard
    (show TokenStream.ofTokens "\x7b\x7b #a "
      [⟨.openValue, 2⟩, ⟨.blank, 1⟩, ⟨.invalid, 1⟩, ⟨.ident, 1⟩, ⟨.blank, 1⟩] = _ from rfl)
    rfl

/-- Where the errors of the forest are inventoried, all errors of the tree have messages. -/
theorem exists_message_of_error {root : Kind} {f : List (Rose Kind)} {R : KindSet} {l : Label}
    (hroot : isRoot root = true) (hlisted : InventoriedAll R true none f)
    (hl : l ∈ .plain root :: labelsAll f) (herror : l.kind = .error) :
    ∃ message ∈ errorMessages, l = .failure message := by
  rcases List.mem_cons.mp hl with rfl | hl
  · rw [show root = .error from herror] at hroot
    cases hroot
  · exact hlisted.exists_message hl herror

theorem message_mem_ofForest {text : String} {root : Kind} {f : List (Rose Kind)}
    {tokens : List Token} {R : KindSet} (hroot : isRoot root = true)
    (hlisted : InventoriedAll R true none f) {d : Diagnostic}
    (hd : d ∈ (ofForest text root f tokens).diagnostics) : d.message ∈ errorMessages := by
  have hmessage := List.mem_map_of_mem (f := Diagnostic.message) hd
  rw [map_message_diagnostics_ofForest] at hmessage
  obtain ⟨l, hl, hd⟩ := List.mem_map.mp hmessage
  obtain ⟨hl, hkind⟩ := List.mem_filter.mp hl
  obtain ⟨message, hmem, rfl⟩ := exists_message_of_error hroot hlisted hl (of_decide_eq_true hkind)
  rw [← hd]
  exact hmem

/-- The inventory of errors. Without the blank tokens every error of a tree has one of the
listed forms: what it holds is told by its message, and so is where it stands if it is about
statements that are missing or what recovery takes. There is no error without a message, and
no diagnostic has any other message. -/
theorem ofStream_inventoried {text : String} {tokens : List Token} {stream : TokenStream}
    {root : Kind} (options : Options) (haccepted : TokenStream.ofTokens text tokens = .ok stream)
    (hroot : isRoot root = true) :
    ∃ parse f, ofStream stream root options = .ok parse ∧
      parse.tree.shape.significant = [.node (.plain root) f] ∧
      InventoriedAll options.recovery true none f ∧
      ∀ d ∈ parse.diagnostics, d.message ∈ errorMessages := by
  obtain ⟨f, houtcome, -, hleaves, hparse⟩ := exists_ofStream_eq options haccepted hroot
  obtain ⟨f', hforest, hlisted⟩ := Script.ensures_iff.mp
    (Grammar.template_inventoried (R := options.recovery) root stream.kinds)
  rw [houtcome] at hforest
  obtain rfl : f = f' := by simpa using hforest
  exact ⟨_, f, hparse, significant_ofForest hleaves, hlisted,
    fun d hd => message_mem_ofForest hroot hlisted hd⟩

/-- A pair without a value, an else tag with nothing behind it and an end tag with no block. -/
theorem ofStream_inventoried_broken :
    ∃ stream parse f, TokenStream.ofTokens "\x7b\x7ba b=\x7d\x7d\x7b\x7b^\x7d\x7d\x7b\x7b/if\x7d\x7d"
        [⟨.openValue, 2⟩, ⟨.ident, 1⟩, ⟨.blank, 1⟩, ⟨.ident, 1⟩, ⟨.equals, 1⟩, ⟨.close, 2⟩,
          ⟨.openInverse, 3⟩, ⟨.close, 2⟩, ⟨.openEnd, 3⟩, ⟨.ident, 2⟩, ⟨.close, 2⟩] = .ok stream ∧
      isRoot .template = true ∧ ofStream stream .template .standard = .ok parse ∧
      parse.tree.shape.significant = [.node (.plain .template) f] ∧
      InventoriedAll .syncPoints true none f ∧
      ∀ d ∈ parse.diagnostics, d.message ∈ errorMessages := by
  have haccepted : TokenStream.ofTokens "\x7b\x7ba b=\x7d\x7d\x7b\x7b^\x7d\x7d\x7b\x7b/if\x7d\x7d"
      [⟨.openValue, 2⟩, ⟨.ident, 1⟩, ⟨.blank, 1⟩, ⟨.ident, 1⟩, ⟨.equals, 1⟩, ⟨.close, 2⟩,
        ⟨.openInverse, 3⟩, ⟨.close, 2⟩, ⟨.openEnd, 3⟩, ⟨.ident, 2⟩, ⟨.close, 2⟩] = .ok _ := rfl
  have hroot : isRoot .template = true := rfl
  obtain ⟨parse, f, h⟩ := ofStream_inventoried .standard haccepted hroot
  exact ⟨_, parse, f, haccepted, hroot, h⟩

/-- The span of a diagnostic is that of a node. -/
theorem exists_span_eq_of_mem_diagnosticsOf {t : Tree} {d : Diagnostic}
    (h : d ∈ diagnosticsOf t) : ∃ e, d.span = t.span e := by
  obtain ⟨f, hf, rfl⟩ := List.mem_map.mp h
  obtain ⟨n, -, rfl⟩ := List.mem_map.mp hf
  exact ⟨.node n, rfl⟩

/-- Nothing that asks for a part of the text of a parse fails. The spans of all elements of the
tree cut pieces out of the text, those of the diagnostics among them, each element has its text
and so there is an outline, and the text of a node is what the texts of its tokens make up. -/
theorem ofStream_slices {text : String} {tokens : List Token} {stream : TokenStream} {root : Kind}
    (options : Options) (haccepted : TokenStream.ofTokens text tokens = .ok stream)
    (hroot : isRoot root = true) :
    ∃ parse, ofStream stream root options = .ok parse ∧ parse.tree.text = text ∧
      parse.tree.Slices ∧ parse.outline?.isSome ∧
      ∀ d ∈ parse.diagnostics, d.span.Within parse.tree.text := by
  obtain ⟨f, -, -, -, hparse⟩ := exists_ofStream_eq options haccepted hroot
  obtain ⟨pieces, rfl, rfl⟩ := TokenStream.exists_pieces_of_ofTokens haccepted
  have hslices : (ofForest (Pieces.text pieces) root f (Pieces.tokens pieces)).tree.Slices :=
    Tree.slices_arena (leaves_layRoot (.plain root) f (Pieces.tokens pieces))
  refine ⟨_, hparse, rfl, hslices, ?_, fun d hd => ?_⟩
  · rw [outline?, Option.isSome_map]
    exact hslices.isSome_outline
  · obtain ⟨e, hspan⟩ := exists_span_eq_of_mem_diagnosticsOf hd
    rw [hspan]
    exact hslices.within e

/-- A tag that is not closed, with an empty token and a character of two bytes in it. -/
theorem ofStream_slices_unclosed :
    ∃ stream parse, TokenStream.ofTokens "\x7b\x7bé "
        [⟨.openValue, 2⟩, ⟨.blank, 0⟩, ⟨.ident, 2⟩, ⟨.blank, 1⟩] = .ok stream ∧
      isRoot .template = true ∧ ofStream stream .template .standard = .ok parse ∧
      parse.tree.text = "\x7b\x7bé " ∧ parse.tree.Slices ∧ parse.outline?.isSome ∧
      ∀ d ∈ parse.diagnostics, d.span.Within parse.tree.text := by
  have haccepted : TokenStream.ofTokens "\x7b\x7bé "
      [⟨.openValue, 2⟩, ⟨.blank, 0⟩, ⟨.ident, 2⟩, ⟨.blank, 1⟩] = .ok _ := rfl
  have hroot : isRoot .template = true := rfl
  obtain ⟨parse, h⟩ := ofStream_slices .standard haccepted hroot
  exact ⟨_, parse, haccepted, hroot, h⟩

end Parse

end TemplateTree
