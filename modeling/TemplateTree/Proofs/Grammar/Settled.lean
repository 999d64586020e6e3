import TemplateTree.Grammar.Rule
import TemplateTree.Proofs.Grammar.StatementShape
import TemplateTree.Proofs.Replay

/-!
# No rule leaves a placeholder

A placeholder stands for a scope that is not decided yet. Most rules label their
nodes with kinds of their own, and what they leave obeys the rules of trees, which
have no place for a placeholder. A leaf is labelled with the kind of its token,
and a mustache may be read where no mustache stands, so these are looked at one
by one; no tokenizer produces a token that would make them leave a placeholder.
-/

namespace TemplateTree

open Rose TreeGrammar

/-- No rule allows for a placeholder, so a forest that obeys the rules has none. -/
theorem Rose.Shaped.settled {P : Pattern} {f : List (Rose Kind)} (h : Shaped P f) :
    Settled f := by
  intro l hl he
  obtain ⟨w, hw⟩ := h.below.exists_matches (k := .placeholder) (by decide) hl (by rw [he]; rfl)
  exact Language.notMem_zero w hw

/-- The tokens that a script leaves are among those that it found. -/
theorem Script.ensures_rest_subset {α : Type} {R : KindSet} {ks : List Kind} (p : Script α) :
    p.Ensures R ks fun _ rest _ => rest ⊆ ks := by
  refine ensures_iff.mpr fun k hk => ?_
  rw [← leavesAll_append_rest R p ks]
  exact List.mem_append_right _ hk

namespace Grammar

open Script

variable {R : KindSet} {ks : List Kind}

theorem leaf_settled (hks : .placeholder ∉ ks) (kind : Kind) :
    (leaf kind).Ensures R ks fun _ _ f => Settled f := by
  by_cases h : ks.headD .endOfInput = kind
  · cases ks with
    | nil =>
      have hend : (leaf .endOfInput).outcome R [] =
          ⟨true, [], [.node (.plain .endOfInput) []]⟩ := rfl
      obtain rfl : Kind.endOfInput = kind := h
      rw [ensures_of_eq hend]
      exact .node (by decide) .nil
    | cons k rest =>
      obtain rfl : k = kind := h
      rw [ensures_of_eq (leaf_outcome_cons k rest)]
      refine .node ?_ (.tokens [k])
      rintro ⟨⟩
      exact hks (by simp)
  · rw [ensures_of_eq (leaf_outcome_ne h)]
    exact .node (by simp) (.tokens _)

theorem greedyLeaf_settled (hks : .placeholder ∉ ks) (kind : Kind) :
    (greedyLeaf kind).Ensures R ks fun _ _ f => Settled f := by
  rw [greedyLeaf, ensures_bind]
  apply ((leaf_settled hks kind).and (ensures_rest_subset _)).mono
  intro found rest f h
  have hrest : .placeholder ∉ rest := fun hk => hks (h.2 hk)
  cases found with
  | true => simpa using h.1
  | false =>
    simp only [Bool.false_eq_true, if_false, ensures_bind, ensures_current]
    split
    · simp only [ensures_bind, ensures_complain, ensures_checkpoint, ensures_left,
        ensures_of_eq (skip_outcome _ _), List.nil_append]
      have hreport : Settled [.node (.failure (Problem.expected kind).message) []] :=
        .node (by simp) .nil
      have hlast : .placeholder ∉ rest.dropWhile (passes R kind) :=
        fun hk => hrest ((List.dropWhile_sublist _).subset hk)
      split
      · simp only [ensures_pure, Problem.closing, reduceCtorEq, if_false, Closing.wrap,
          List.append_nil]
        apply (leaf_settled hlast kind).mono
        intro _ _ g hg
        exact h.1.append (hreport.append (Settled.append (.node (by simp) (.tokens _)) hg))
      · simp only [ensures_pure, reduceCtorEq, if_false, Closing.wrap, List.append_nil]
        apply (leaf_settled hlast kind).mono
        intro _ _ g hg
        exact h.1.append (hreport.append (Settled.append (.tokens _) hg))
    · exact (leaf_settled hrest kind).mono fun _ _ g hg => h.1.append hg

theorem mustache_settled (hks : .placeholder ∉ ks) :
    mustache.Ensures R ks fun _ _ f => Settled f := by
  have hrest : ∀ {ks f}, .placeholder ∉ ks → Settled f →
      (do
        let _ ← expression
        let _ ← greedyLeaf .close
        return (Closing.node .mustache, true)).Ensures R ks fun c _ g =>
          Settled (c.1.wrap (f ++ g)) := by
    intro ks f hks hf
    rw [ensures_bind]
    apply ((expression_leaves ks).and (ensures_rest_subset _)).mono
    intro _ rest g hg
    rw [ensures_bind]
    apply (greedyLeaf_settled (fun hk => hks (hg.2 hk)) .close).mono
    intro _ _ v hv
    rw [ensures_pure, List.append_nil]
    exact .node (by decide) (hf.append (hg.1.settled.append hv))
  rw [mustache, ensures_checkpoint, ensures_bind, ensures_current]
  split
  · rw [ensures_bind]
    apply ((leaf_settled hks _).and (ensures_rest_subset _)).mono
    intro _ rest f hf
    exact hrest (fun hk => hks (hf.2 hk)) hf.1
  · rw [ensures_bind, ensures_complain]
    exact hrest hks (.node (by simp) .nil)

/-- Whatever a rule leaves has no placeholder in it. -/
theorem Rule.settled (hks : .placeholder ∉ ks) (r : Rule) :
    r.script.Ensures R ks fun _ _ f => Settled f := by
  have hshaped : ∀ {rule : Script Bool} {k : Kind}, Leaves rule R ks k →
      rule.Ensures R ks fun _ _ f => Settled f := fun h => h.mono fun _ _ _ hf => hf.settled
  cases r with
  | program =>
    rw [script, ensures_bind]
    apply (program_shaped ks).mono
    intro _ _ f hf
    rw [ensures_pure, List.append_nil]
    exact hf.settled
  | statements =>
    apply (statementsOver_shaped program_shaped ks).mono
    rintro (_ | _) _ f hf
    · exact hf.2.settled
    · exact Shaped.settled hf
  | statement =>
    apply (statementOver_shaped program_shaped ks).mono
    rintro (_ | _) _ f hf
    · exact hf.2 ▸ .nil
    · exact Shaped.settled hf
  | blockTag => exact hshaped (blockTag_leaves ks)
  | inverseTag => exact hshaped (inverseTag_leaves ks)
  | endTag => exact hshaped (endTag_leaves ks)
  | partialTag => exact hshaped (partialTag_leaves ks)
  | mustache => exact mustache_settled hks
  | elseTag =>
    apply elseTag_shaped.mono
    rintro (_ | _) _ f hf
    · exact hf.2 ▸ .nil
    · exact Shaped.settled hf
  | expression => exact hshaped (expression_leaves ks)
  | params => exact hshaped (params_leaves ks)
  | param => exact hshaped (param_leaves ks)
  | hash => exact hash_shaped.mono fun _ _ _ hf => hf.settled
  | hashPair => exact hshaped (hashPair_leaves ks)
  | path =>
    apply path_shaped.mono
    rintro (_ | _) _ f hf
    · rcases hf with hf | ⟨-, -, rfl⟩
      · exact hf.settled
      · exact .nil
    · exact Shaped.settled hf
  | leaf kind => exact leaf_settled hks kind
  | greedyLeaf kind => exact greedyLeaf_settled hks kind

end Grammar

end TemplateTree
