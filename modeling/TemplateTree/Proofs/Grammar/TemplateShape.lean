import TemplateTree.Grammar.Template
import TemplateTree.Proofs.Grammar.StatementShape

/-!
# Shapes of whole templates

Reading a template takes every token. Between any two programs recovery puts
at least one token into an error, so the bound on the number of programs, which
is the number of tokens, is never what ends the reading.
-/

namespace TemplateTree

open Rose TreeGrammar

variable {R : KindSet} {ks : List Kind}

namespace Grammar

open Script

/-- Recovery takes a token, and all it takes goes into one error. -/
theorem recover_shaped (k : Kind) (ks : List Kind) :
    recover.Ensures R (k :: ks) fun _ rest f =>
      Shaped (child .error) f ∧ rest.length ≤ ks.length := by
  rw [recover, ensures_bind, ensures_left, ensures_bind, ensures_current,
    List.headD_cons]
  simp only [List.nil_append]
  by_cases hk : k = .openEnd
  · subst hk
    rw [if_pos rfl, ensures_bind, ensures_checkpoint, ensures_bind]
    apply ((endTag_leaves _).and (tag_succeeds .openEnd .endTag path ks)).mono
    intro _ rest f h
    obtain ⟨htag, rfl, hle⟩ := h
    have hne : rest.length ≠ (Kind.openEnd :: ks).length := by
      rw [List.length_cons]
      omega
    simp only [ensures_pure, Problem.closing, reduceCtorEq, if_false, ensures_bind, ensures_left,
      hne, Closing.wrap, List.append_nil]
    exact ⟨.failure htag.below _, hle⟩
  · rw [if_neg hk]
    simp only [ensures_bind, ensures_left, if_true, ensures_checkpoint, ensures_take_cons,
      ensures_pure, Problem.closing, reduceCtorEq, if_false, Closing.wrap, List.append_nil,
      List.nil_append]
    exact ⟨.failure (Shaped.word k).below _, Nat.le_refl _⟩

/-- Reading on with a bound that suffices takes everything. -/
theorem resumeUpTo_shaped (bound : Nat) (ks : List Kind) (hle : ks.length ≤ bound) :
    (resumeUpTo bound).Ensures R ks fun _ rest f =>
      rest = [] ∧ Shaped (child .error * programTrees).star f := by
  induction bound generalizing ks with
  | zero =>
    obtain rfl : ks = [] := List.length_eq_zero_iff.mp (Nat.le_zero.mp hle)
    exact ensures_pure.mpr ⟨rfl, .star_nil⟩
  | succ bound ih =>
    rw [resumeUpTo, ensures_bind, ensures_left]
    cases ks with
    | nil => exact ensures_pure.mpr ⟨rfl, .star_nil⟩
    | cons k ks =>
      rw [List.length_cons] at hle ⊢
      rw [if_neg (Nat.succ_ne_zero _), ensures_bind]
      apply (recover_shaped k ks).mono
      intro _ rest f h
      obtain ⟨herror, hrest⟩ := h
      rw [ensures_bind]
      apply ((program_shaped rest).and (ensures_length_rest_le _)).mono
      intro _ rest' g h
      obtain ⟨hprogram, hrest'⟩ := h
      apply (ih rest' (by omega)).mono
      intro _ rest'' v h
      obtain ⟨hend, hmore⟩ := h
      refine ⟨hend, ?_⟩
      simpa using Shaped.star_append (herror.append hprogram) hmore

/-- A template is one node over all tokens, with programs below it and an error
between any two of them. -/
theorem template_shaped (root : Kind) (ks : List Kind) :
    (template root).Ensures R ks fun _ rest f =>
      ∃ trees, f = [.node (.plain root) trees] ∧ rest = [] ∧ Shaped templateTrees trees := by
  rw [template, ensures_checkpoint, ensures_bind]
  apply (program_shaped ks).mono
  intro _ rest f hprogram
  rw [ensures_bind, ensures_left, ensures_bind]
  apply (resumeUpTo_shaped _ rest (Nat.le_refl _)).mono
  intro _ rest' g h
  obtain ⟨rfl, hmore⟩ := h
  exact ensures_pure.mpr ⟨f ++ g, by simp [Closing.wrap], rfl, hprogram.append hmore⟩

end Grammar

end TemplateTree
