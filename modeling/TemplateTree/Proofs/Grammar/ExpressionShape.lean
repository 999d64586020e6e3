import TemplateTree.Proofs.Grammar.Progress

/-!
# Shapes of expressions

What the rules for paths, parameters, hashes and expressions leave in the
tree, for every sequence of kinds ahead and every recovery set. A rule that
fails leaves an error or nothing at all; what it leaves depends on whether it
succeeded, and for a hash also on whether it took any token.
-/

namespace TemplateTree

open Rose TreeGrammar

variable {R : KindSet} {ks : List Kind}

namespace Script

variable {P : Pattern}

/-- A repeated rule leaves any number of its trees. -/
theorem many_shaped {rule : Script Bool}
    (h : ∀ ks, rule.Ensures R ks fun found _ f => found = true → Shaped P f) :
    (many rule).Ensures R ks fun _ _ f => Shaped P.star f :=
  ensures_many .star_nil (fun _ _ => Shaped.star_append) h

end Script

namespace Grammar

open Script

/-- A rule whose success leaves one node of a kind and whose failure leaves one error. -/
def Leaves (rule : Script Bool) (R : KindSet) (ks : List Kind) (k : Kind) : Prop :=
  rule.Ensures R ks fun found _ f => Shaped (child (if found then k else .error)) f

theorem Leaves.of_found {rule : Script Bool} {k : Kind} (h : ∀ ks, Leaves rule R ks k)
    (ks : List Kind) :
    rule.Ensures R ks fun found _ f => found = true → Shaped (child k) f := by
  apply (h ks).mono
  intro _ _ f hf hfound
  subst hfound
  exact hf

/-- A rule that gives up puts what it took into an error. -/
theorem gives_up {problem : Problem} {k : Kind} {f : List (Rose Kind)}
    (hf : ConformsAll strictContents f) :
    Ensures (Pure.pure (problem.closing, false)) R ks fun c _ g =>
      Shaped (child (if c.2 then k else .error)) (c.1.wrap (f ++ g)) := by
  rw [ensures_pure, List.append_nil]
  exact .failure hf _

theorem pathStep_shaped :
    pathStep.Ensures R ks fun found _ f =>
      Shaped (if found then child .separator * child .ident
        else optional (child .separator * child .error)) f := by
  rw [pathStep, ensures_checkpoint, ensures_bind]
  apply (leaf_shaped (by decide) rfl).mono
  intro found rest f hsep
  cases found with
  | false => exact ensures_pure.mpr .absent
  | true =>
    simp only [ensures_unless_true, ensures_bind, ensures_view]
    split
    · exact ensures_pure.mpr .absent
    · rw [ensures_bind]
      apply (leaf_shaped (by decide) rfl).mono
      intro found rest' g hid
      cases found with
      | false => simpa [Closing.wrap] using (hsep.append hid).present
      | true => simpa [Closing.wrap] using hsep.append hid

theorem pathSteps_shaped (bound : Nat) :
    (pathSteps bound).Ensures R ks fun _ _ f =>
      Shaped ((child .separator * child .ident).star
        * optional (child .separator * child .error)) f := by
  induction bound generalizing ks with
  | zero => exact ensures_pure.mpr (Shaped.append .star_nil .absent)
  | succ bound ih =>
    rw [pathSteps, ensures_bind]
    apply pathStep_shaped.mono
    intro found rest f hf
    cases found with
    | false => simpa using Shaped.append .star_nil hf
    | true =>
      simp only [if_true] at hf ⊢
      exact (@ih rest).mono fun _ _ g hg => hf.star_mul_append hg

/-- A path is there, or an error is, or there is no trace of it. The last is
the case only where a pair comes next. -/
theorem path_shaped :
    path.Ensures R ks fun found rest f =>
      if found then Shaped (child .path) f
      else Shaped (child .error) f ∨ (isPairAhead (.ofList R ks) = true ∧ rest = ks ∧ f = []) := by
  rw [path, ensures_bind, ensures_view]
  split
  · rename_i hpair
    simp [hpair]
  · rw [ensures_checkpoint, ensures_bind]
    apply (leaf_shaped (by decide) rfl).mono
    intro found rest f hid
    cases found with
    | false =>
      simp only [ensures_unless_false, ensures_pure, Problem.closing, Closing.wrap,
        List.append_nil]
      exact .inl (.failure hid.below _)
    | true =>
      simp only [ensures_unless_true, ensures_bind, ensures_left]
      apply (pathSteps_shaped _).mono
      intro _ _ g hg
      have hpath : Shaped (strictContents .path) (f ++ g) := hid.append hg
      simpa [Closing.wrap] using hpath.node

theorem param_leaves (ks : List Kind) : Leaves param R ks .param := by
  have hleaf : ∀ {k}, k ≠ .endOfInput → strictContents k = word k →
      (leaf k).Ensures R ks fun found _ f => found = true → Shaped (child k) f :=
    fun hk hrule => Leaves.of_found (fun _ => leaf_shaped hk hrule) ks
  have hrules : ∀ rule ∈ [path, leaf .string, leaf .integer, leaf .boolean],
      rule.Ensures R ks fun found _ f => found = true → Shaped (strictContents .param) f := by
    simp only [List.mem_cons, List.not_mem_nil, or_false]
    rintro rule (rfl | rfl | rfl | rfl)
    · refine path_shaped.mono ?_
      intro _ _ f hf hfound
      subst hfound
      exact hf.left.left.left
    · exact (hleaf (by decide) rfl).mono fun _ _ _ hf h => (hf h).right.left.left
    · exact (hleaf (by decide) rfl).mono fun _ _ _ hf h => (hf h).right.left
    · exact (hleaf (by decide) rfl).mono fun _ _ _ hf h => (hf h).right
  rw [Leaves, param, ensures_checkpoint, ensures_bind]
  apply (ensures_firstOf hrules).mono
  intro found rest f hf
  cases found with
  | false =>
    obtain ⟨-, rfl⟩ := hf
    exact ensures_pure.mpr (.failure (f := []) trivial _)
  | true => simpa [Closing.wrap] using hf.node

theorem params_leaves (ks : List Kind) : Leaves params R ks .params := by
  rw [Leaves, params, ensures_checkpoint, ensures_bind]
  apply (param_leaves ks).mono
  intro found rest f hfirst
  cases found with
  | false => exact gives_up hfirst.below
  | true =>
    rw [ensures_unless_true, ensures_bind]
    apply (many_shaped (Leaves.of_found param_leaves)).mono
    intro _ _ g hg
    have hall : Shaped (strictContents .params) (f ++ g) := hfirst.append hg
    simpa [Closing.wrap] using hall.node

theorem hashPair_leaves (ks : List Kind) : Leaves hashPair R ks .hashPair := by
  rw [Leaves, hashPair, ensures_checkpoint, ensures_bind]
  apply (leaf_shaped (by decide) rfl).mono
  intro found rest f hkey
  cases found with
  | false => exact gives_up hkey.below
  | true =>
    rw [ensures_unless_true, ensures_bind]
    apply (leaf_shaped (by decide) rfl).mono
    intro found rest' g hequals
    cases found with
    | false =>
      simp only [← List.append_assoc]
      exact gives_up (hkey.append hequals).below
    | true =>
      rw [ensures_unless_true, ensures_bind]
      apply (param_leaves rest').mono
      intro found rest'' v hvalue
      cases found with
      | false =>
        simp only [← List.append_assoc]
        exact gives_up ((hkey.append hequals).append hvalue).below
      | true =>
        have hall : Shaped (strictContents .hashPair) (f ++ (g ++ v)) :=
          hkey.append (hequals.append hvalue)
        simpa [Closing.wrap] using hall.node

/-- Further pairs, the last of which may have broken off. -/
theorem hashPairs_shaped (bound : Nat) :
    (hashPairs bound).Ensures R ks fun complete _ f =>
      Shaped ((child .hashPair).star * (if complete then 1 else child .error)) f := by
  induction bound generalizing ks with
  | zero => exact ensures_pure.mpr (Shaped.append .star_nil .nil)
  | succ bound ih =>
    rw [hashPairs, ensures_bind, ensures_checkpoint, ensures_bind, ensures_tracked]
    apply (hashPair_leaves ks).mono
    intro found rest f hpair
    cases found with
    | false =>
      by_cases hmoved : rest.length < ks.length
      · simpa [hmoved, Closing.wrap] using Shaped.append .star_nil hpair
      · simpa [hmoved, Closing.wrap] using Shaped.append (P := (child .hashPair).star)
          .star_nil .nil
    | true =>
      simp only [Bool.true_or, if_true, ensures_pure, Closing.wrap, List.append_nil, reduceCtorEq,
        if_false]
      exact (@ih rest).mono fun _ _ g hg => hpair.star_mul_append hg

/-- A hash that succeeded or took anything is there; otherwise an error is. -/
theorem hash_shaped :
    hash.Ensures R ks fun found rest f =>
      Shaped (child (if found || decide (rest.length < ks.length) then .hash else .error)) f := by
  rw [hash, ensures_checkpoint, ensures_bind, ensures_tracked]
  apply ((hashPair_leaves ks).and (hashPair_advances ks)).mono
  intro found rest f h
  obtain ⟨hpair, hmoved⟩ := h
  cases found with
  | false =>
    by_cases hmoved : rest.length < ks.length
    · have hall : Shaped (strictContents .hash) f := hpair.right
      simpa [hmoved, Closing.wrap] using hall.node
    · simpa [hmoved, Closing.wrap, Problem.closing] using Shaped.failure hpair.below _
  | true =>
    have hlt := hmoved rfl
    simp only [if_true, ensures_bind, ensures_left]
    apply ((hashPairs_shaped _).and (ensures_length_rest_le _)).mono
    intro complete rest' g h
    obtain ⟨hothers, hle⟩ := h
    have hmoved' : rest'.length < ks.length := Nat.lt_of_le_of_lt hle hlt
    obtain ⟨u, v, rfl, hu, hv⟩ := hothers.of_mul
    have hend : Shaped (optional (child .error)) v := by
      cases complete with
      | false => exact hv.present
      | true => exact hv.left
    have hall : Shaped (strictContents .hash) (f ++ u ++ v) := ((hpair.append hu).append hend).left
    simpa [hmoved', Closing.wrap] using hall.node

/-- A hash behind the parameters is there, or there is no trace of it. -/
theorem trailingHash_shaped :
    trailingHash.Ensures R ks fun _ _ f => Shaped (optional (child .hash)) f := by
  rw [trailingHash, ensures_checkpoint, ensures_bind, ensures_tracked]
  apply hash_shaped.mono
  intro found rest f hhash
  by_cases hkept : (found || decide (rest.length < ks.length)) = true
  · simp only [hkept, if_true] at hhash
    simpa [hkept, Closing.wrap] using hhash.present
  · simpa [hkept, Closing.wrap] using Shaped.absent

theorem arguments_shaped :
    arguments.Ensures R ks fun _ _ f =>
      Shaped (optional (child .params * optional (child .hash))) f := by
  rw [arguments, ensures_checkpoint, ensures_bind]
  apply (params_leaves ks).mono
  intro found rest f hparams
  cases found with
  | false => exact ensures_pure.mpr Shaped.absent
  | true =>
    rw [ensures_unless_true, ensures_bind]
    apply trailingHash_shaped.mono
    intro _ _ g hhash
    simpa [Closing.wrap] using (hparams.append hhash).present

theorem leadingHash_shaped :
    leadingHash.Ensures R ks fun kept rest f =>
      if kept then Shaped (child .hash) f else rest = ks ∧ f = [] := by
  rw [leadingHash, ensures_bind, ensures_view, ensures_checkpoint, ensures_bind, ensures_tracked]
  apply hash_shaped.mono
  intro found rest f hhash
  by_cases hkept : (found || (isKeyAhead (.ofList R ks) && decide (rest.length < ks.length))) = true
  · have hthere : (found || decide (rest.length < ks.length)) = true := by
      cases found
      · simp_all
      · rfl
    simp only [hthere, if_true] at hhash
    simpa [hkept, Closing.wrap] using hhash
  · simp [hkept, Closing.wrap]

theorem expression_leaves (ks : List Kind) : Leaves expression R ks .expression := by
  rw [Leaves, expression, ensures_checkpoint, ensures_bind]
  apply path_shaped.mono
  intro found rest f hpath
  cases found with
  | false =>
    have hbelow : ConformsAll strictContents f := by
      rcases hpath with herror | ⟨-, -, rfl⟩
      · exact herror.below
      · trivial
    exact gives_up hbelow
  | true =>
    rw [ensures_unless_true, ensures_bind]
    apply leadingHash_shaped.mono
    intro found rest' g hhash
    cases found with
    | false =>
      obtain ⟨-, rfl⟩ := hhash
      rw [ensures_unless_false, ensures_bind]
      apply arguments_shaped.mono
      intro _ _ v htail
      have htail' : Shaped (optional (child .hash + child .params * optional (child .hash))) v := by
        rcases htail.symbols with h | h
        · exact ⟨.inl h, htail.below⟩
        · exact ⟨.inr (.inr h), htail.below⟩
      have hall : Shaped (strictContents .expression) (f ++ v) := hpath.append htail'
      simpa [Closing.wrap] using hall.node
    | true =>
      have htail : Shaped (optional (child .hash + child .params * optional (child .hash))) g :=
        hhash.left.present
      have hall : Shaped (strictContents .expression) (f ++ g) := hpath.append htail
      simpa [Closing.wrap] using hall.node

end Grammar

end TemplateTree
