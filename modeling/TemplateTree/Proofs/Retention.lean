import TemplateTree.Proofs.Grammar.BrokenPairs
import TemplateTree.Proofs.Parse

/-!
# What is kept of a broken hash

A template that is one mustache whose expression ends with a key and an equals sign is
read with errors about the missing value and about nothing else, provided that the key
stands where a hash may start or go on: directly behind the path of the expression or
behind a complete pair. Behind parameters the errors are about the closing delimiter.
-/

namespace TemplateTree

open Rose

namespace Derivation

theorem flaws_eq_nil {f : List (Rose Kind)} (h : ErrorFree f) : flaws f = [] := by
  have hlabels : ∀ e ∈ hollowsAll f, e.1.kind ≠ .error := by
    intro e he
    refine h e.1 ?_
    rw [← map_fst_hollowsAll]
    exact List.mem_map_of_mem he
  rw [flaws, List.filter_eq_nil_iff]
  simpa using hlabels

theorem flaws_cons {r : Rose Kind} (h : ErrorFree [r]) (f : List (Rose Kind)) :
    flaws (r :: f) = flaws f := by
  rw [← List.singleton_append, flaws_append, flaws_eq_nil h, List.nil_append]

theorem errorFree_mustacheOpening (raw : Bool) : ErrorFree [leaf (mustacheOpening raw)] := by
  cases raw <;> exact errorFree_leaf (by decide)

/-- The errors of a pair that broke off: the pair, and the value that it lacks. -/
theorem flaws_brokenTree (e : Expression) (f : List (Rose Kind)) :
    flaws (e.brokenTree :: f) =
      (.failure "expected a parameter", false) :: (.failure "expected a parameter", true)
        :: flaws f := by
  have hparams : flaws (wrapSome .params (e.params.map Param.tree)) = [] :=
    flaws_eq_nil (errorFree_wrapSome (by decide) (errorFree_map errorFree_param e.params))
  have hpairs : flaws (e.pairs.map Pair.tree) = [] :=
    flaws_eq_nil (errorFree_map errorFree_pair e.pairs)
  rw [Expression.brokenTree, flaws_plain (by decide), flaws_cons (errorFree_path e.path),
    flaws_append, hparams, flaws_plain (by decide), flaws_append, hpairs]
  rfl

/-- The template of a single mustache whose last pair broke off. -/
def keptTemplate (raw : Bool) (e : Expression) : List (Rose Kind) :=
  [.node (.plain .statements) [tag .mustache (mustacheOpening raw) [e.brokenTree]]]

/-- The template of a single mustache in which a key without a value became a parameter. -/
def lostTemplate (raw : Bool) (e : Expression) : List (Rose Kind) :=
  [.node (.plain .statements) [Grammar.lostMustache raw e]]

theorem flaws_keptTemplate (raw : Bool) (e : Expression) :
    flaws (keptTemplate raw e) =
      [(.failure "expected a parameter", false), (.failure "expected a parameter", true)] := by
  rw [keptTemplate, flaws_plain (by decide), tag, flaws_plain (by decide),
    flaws_cons (errorFree_mustacheOpening raw), List.singleton_append, flaws_brokenTree]
  rfl

theorem flaws_lostTemplate (raw : Bool) (e : Expression) :
    flaws (lostTemplate raw e) =
      [(.failure "expected `\x7d\x7d`", true), (.failure "expected `\x7d\x7d`", true),
        (.failure "expected `\x7d\x7d`", false)] := by
  rw [lostTemplate, flaws_plain (by decide), Grammar.lostMustache, flaws_plain (by decide),
    flaws_cons (errorFree_mustacheOpening raw), flaws_cons (errorFree_expression e.addIdent)]
  rfl

end Derivation

namespace Parse

open TemplateTree.Derivation Grammar

/-- What is there of the last pair of a mustache is kept: it is an error at the end of the
hash, over the key, the equals sign and an empty error, and there are no other errors. -/
def Retains (parse : Parse) (root : Kind) (raw : Bool) (e : Expression) : Prop :=
  parse.tree.shape.significant = [.node (.plain root) (keptTemplate raw e)] ∧
    ∃ pair value, parse.diagnostics = [pair, value] ∧ pair.message = "expected a parameter" ∧
      value.message = "expected a parameter" ∧ value.span.isEmpty = true

/-- The last pair of a mustache is lost: its key is a parameter, and the equals sign is
skipped as garbage. -/
def Loses (parse : Parse) (root : Kind) (raw : Bool) (e : Expression) : Prop :=
  parse.tree.shape.significant = [.node (.plain root) (lostTemplate raw e)] ∧
    parse.diagnostics.map (·.message) =
      ["expected `\x7d\x7d`", "expected `\x7d\x7d`", "expected `\x7d\x7d`"]

section

variable {text : String} {tokens : List Token} {root : Kind} {f : List (Rose Kind)} {raw : Bool}
  {e : Expression}

theorem retains_ofForest (hroot : isRoot root = true)
    (hleaves : Token.significantKinds tokens = leavesAll (keptTemplate raw e)) :
    Retains (ofForest text root (keptTemplate raw e) tokens) root raw e := by
  have hdiagnostics := forall₂_diagnostics_ofForest text hroot hleaves
  refine ⟨significant_ofForest hleaves, ?_⟩
  rw [flaws_keptTemplate] at hdiagnostics
  generalize (ofForest text root (keptTemplate raw e) tokens).diagnostics = found
    at hdiagnostics ⊢
  cases hdiagnostics with
  | cons hpair hothers =>
    cases hothers with
    | cons hvalue hnone =>
      cases hnone
      exact ⟨_, _, rfl, hpair.1, hvalue.1, hvalue.2 rfl⟩

theorem loses_ofForest (hroot : isRoot root = true)
    (hleaves : Token.significantKinds tokens = leavesAll (lostTemplate raw e)) :
    Loses (ofForest text root (lostTemplate raw e) tokens) root raw e := by
  have hdiagnostics := forall₂_diagnostics_ofForest text hroot hleaves
  have hmessages := List.forall₂_map_right_iff.mpr
    (List.forall₂_map_left_iff.mpr (hdiagnostics.imp fun _ _ h => h.1))
  rw [List.forall₂_eq_eq_eq] at hmessages
  refine ⟨significant_ofForest hleaves, ?_⟩
  rw [hmessages, flaws_lostTemplate]
  rfl

/-- Where the first error is about the closing delimiter the pair is not kept. -/
theorem not_retains_ofForest (hroot : isRoot root = true)
    (hleaves : Token.significantKinds tokens = leavesAll f)
    (hflaws : (flaws f).head? = some (.failure "expected `\x7d\x7d`", true)) :
    ¬ Retains (ofForest text root f tokens) root raw e := by
  rintro ⟨-, pair, value, hfound, hpair, -, -⟩
  have hdiagnostics := forall₂_diagnostics_ofForest text hroot hleaves
  obtain ⟨others, hothers⟩ := List.head?_eq_some_iff.mp hflaws
  rw [hfound, hothers, List.forall₂_cons, hpair] at hdiagnostics
  exact absurd hdiagnostics.1.1 (by decide)

end

/-- A mustache up to the end of the input, whose expression ends with a key without a
value. What is there of the pair is kept exactly if it stands directly behind the path or
behind a complete pair. Behind parameters alone it is lost, at least if skipping does not
stop at equals signs, as it does not by default. -/
theorem ofStream_brokenPair {text : String} {tokens : List Token} {stream : TokenStream}
    {root : Kind} (options : Options) (raw : Bool) (e : Expression)
    (haccepted : TokenStream.ofTokens text tokens = .ok stream) (hroot : isRoot root = true)
    (hkinds : stream.kinds = mustacheOpening raw :: (e.yield ++ [.ident, .equals, .close])) :
    ∃ parse, ofStream stream root options = .ok parse ∧
      (parse.Retains root raw e ↔ e.params = [] ∨ e.pairs ≠ []) ∧
      (¬ (e.params = [] ∨ e.pairs ≠ []) → options.recovery.contains .equals = false →
        parse.Loses root raw e) := by
  obtain ⟨f, houtcome, -, hleaves, hparse⟩ := exists_ofStream_eq options haccepted hroot
  rw [hkinds, show [Kind.ident, .equals, .close] = brokenEnd [] from rfl] at houtcome
  have hread : ∀ {m}, mustache.outcome options.recovery
      (mustacheOpening raw :: (e.yield ++ brokenEnd [])) = ⟨true, [], [m]⟩ →
        f = [.node (.plain .statements) [m]] := by
    intro m hm
    rw [template_outcome_of_mustache root hm] at houtcome
    simpa using houtcome.symm
  refine ⟨_, hparse, ⟨fun hretains => ?_, fun hkeeps => ?_⟩, fun hkeeps hequals => ?_⟩
  · apply Decidable.byContradiction
    intro hkeeps
    obtain ⟨_, g, hmustache⟩ :=
      @exists_mustache_outcome options.recovery [] raw e hkeeps
    obtain ⟨others, more, htemplate⟩ := Script.ensures_iff.mp (template_starts root hmustache)
    rw [houtcome] at htemplate
    obtain rfl := (Rose.node.inj (List.cons.inj htemplate).1).2
    refine not_retains_ofForest hroot hleaves ?_ hretains
    rw [flaws_plain (by decide), flaws_plain (by decide), flaws_cons (errorFree_mustacheOpening raw),
      flaws_cons (errorFree_expression e.addIdent), lateError, flaws_failure]
    rfl
  · obtain rfl : f = keptTemplate raw e := hread (mustache_outcome_of_keepsKey raw hkeeps)
    exact retains_ofForest hroot hleaves
  · obtain rfl : f = lostTemplate raw e :=
      hread (mustache_outcome_of_not_keepsKey raw hkeeps hequals)
    exact loses_ofForest hroot hleaves

theorem ofStream_brokenPair_behind_param :
    ∃ stream parse, TokenStream.ofTokens "\x7b\x7bfoo p bar=\x7d\x7d"
        [⟨.openValue, 2⟩, ⟨.ident, 3⟩, ⟨.blank, 1⟩, ⟨.ident, 1⟩, ⟨.blank, 1⟩, ⟨.ident, 3⟩,
          ⟨.equals, 1⟩, ⟨.close, 2⟩] = .ok stream ∧
      ofStream stream .template .standard = .ok parse ∧
      ¬ parse.Retains .template false ⟨⟨0⟩, [.path ⟨0⟩], []⟩ ∧
      parse.Loses .template false ⟨⟨0⟩, [.path ⟨0⟩], []⟩ := by
  let stream : TokenStream := ⟨"\x7b\x7bfoo p bar=\x7d\x7d",
    #[⟨.openValue, 2⟩, ⟨.ident, 3⟩, ⟨.blank, 1⟩, ⟨.ident, 1⟩, ⟨.blank, 1⟩, ⟨.ident, 3⟩,
      ⟨.equals, 1⟩, ⟨.close, 2⟩], #[0, 1, 3, 5, 6, 7], by decide⟩
  let e : Expression := ⟨⟨0⟩, [.path ⟨0⟩], []⟩
  have haccepted : TokenStream.ofTokens "\x7b\x7bfoo p bar=\x7d\x7d"
      [⟨.openValue, 2⟩, ⟨.ident, 3⟩, ⟨.blank, 1⟩, ⟨.ident, 1⟩, ⟨.blank, 1⟩, ⟨.ident, 3⟩,
        ⟨.equals, 1⟩, ⟨.close, 2⟩] = .ok stream := rfl
  have hkeeps : ¬ (e.params = [] ∨ e.pairs ≠ []) := by decide
  obtain ⟨parse, hparse, hretains, hloses⟩ := ofStream_brokenPair .standard false e haccepted
    (show isRoot .template = true from rfl) (by decide)
  exact ⟨stream, parse, haccepted, hparse, fun h => hkeeps (hretains.mp h),
    hloses hkeeps (by decide)⟩

end Parse

end TemplateTree
