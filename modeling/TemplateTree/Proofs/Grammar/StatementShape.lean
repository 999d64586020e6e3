import TemplateTree.Proofs.Grammar.ExpressionShape
import TemplateTree.Proofs.Grammar.Keys

/-!
# Shapes of statements and templates

What the rules for tags, statements and programs leave in the tree, and with
them a whole template. Statements are read over a given rule for the program
inside a block, so the induction on the depth of blocks is made once, where
programs are read.
-/

namespace TemplateTree

open Rose TreeGrammar

variable {R : KindSet} {ks : List Kind}

namespace Grammar

open Script

/-- The end of a tag, late or not. -/
theorem greedyLeaf_closing :
    (greedyLeaf .close).Ensures R ks fun _ _ f => Shaped closing f := by
  apply greedyLeaf_shaped.mono
  intro _ _ f hf
  split at hf
  · exact hf.left
  · exact hf.right

/-- A tag is a node, given what its inside leaves together with its end. -/
theorem tag_leaves {opening node : Kind} {inside : Script Bool} {Q : Pattern}
    (hk : opening ≠ .endOfInput) (hword : strictContents opening = word opening)
    (hrule : strictContents node = child opening * Q)
    (hinside : ∀ ks, inside.Ensures R ks fun _ rest f =>
      (greedyLeaf .close).Ensures R rest fun _ _ g => Shaped Q (f ++ g)) (ks : List Kind) :
    Leaves (tag opening node inside) R ks node := by
  rw [Leaves, tag, ensures_checkpoint, ensures_bind]
  apply (leaf_shaped hk hword).mono
  intro found rest f hopening
  cases found with
  | false => exact gives_up hopening.below
  | true =>
    simp only [ensures_unless_true, ensures_bind]
    apply (hinside rest).mono
    intro _ rest' g hg
    apply hg.mono
    intro _ _ v hv
    have hall : Shaped (strictContents node) (f ++ (g ++ v)) := hrule ▸ hopening.append hv
    simpa [Closing.wrap] using hall.node

theorem expression_closing (ks : List Kind) :
    expression.Ensures R ks fun _ rest f => (greedyLeaf .close).Ensures R rest fun _ _ g =>
      Shaped ((child .expression + child .error) * closing) (f ++ g) := by
  apply (expression_leaves ks).mono
  intro found rest f hf
  cases found with
  | false => exact greedyLeaf_closing.mono fun _ _ _ hg => hf.right.append hg
  | true => exact greedyLeaf_closing.mono fun _ _ _ hg => hf.left.append hg

theorem blockTag_leaves (ks : List Kind) : Leaves blockTag R ks .blockTag :=
  tag_leaves (by decide) rfl rfl expression_closing ks

theorem inverseTag_leaves (ks : List Kind) : Leaves inverseTag R ks .inverseTag :=
  tag_leaves (by decide) rfl rfl expression_closing ks

/-- A tag whose inside leaves nothing where a pair comes next ends late. -/
theorem inside_closing {inside : Script Bool} {P : Pattern} {ks : List Kind}
    (h : inside.Ensures R ks fun _ rest f =>
      Shaped P f ∨ (isPairAhead (.ofList R rest) = true ∧ f = [])) :
    inside.Ensures R ks fun _ rest f => (greedyLeaf .close).Ensures R rest fun _ _ g =>
      Shaped (P * closing + lateClosing) (f ++ g) := by
  apply h.mono
  rintro _ rest f (hf | ⟨hpair, rfl⟩)
  · exact greedyLeaf_closing.mono fun _ _ _ hg => (hf.append hg).left
  · apply greedyLeaf_shaped.mono
    intro _ _ g hg
    rw [headD_eq_ident_of_isPairAhead hpair, if_neg (by decide)] at hg
    exact hg.right

theorem endTag_leaves (ks : List Kind) : Leaves endTag R ks .endTag := by
  refine tag_leaves (by decide) rfl rfl (fun ks => inside_closing ?_) ks
  apply path_shaped.mono
  intro found rest f hpath
  cases found with
  | false =>
    rcases hpath with herror | ⟨hpair, rfl, rfl⟩
    · exact .inl herror.right
    · exact .inr ⟨hpair, rfl⟩
  | true => exact .inl hpath.left

theorem partialPaths_shaped :
    partialPaths.Ensures R ks fun _ rest f =>
      Shaped (child .path * optional (child .path) + child .error) f
        ∨ (isPairAhead (.ofList R rest) = true ∧ f = []) := by
  rw [partialPaths, ensures_bind]
  apply path_shaped.mono
  intro found rest f hpath
  cases found with
  | false =>
    simp only [ensures_unless_false, ensures_pure, List.append_nil]
    rcases hpath with herror | ⟨hpair, rfl, rfl⟩
    · exact .inl herror.right
    · exact .inr ⟨hpair, rfl⟩
  | true =>
    simp only [ensures_unless_true, ensures_bind, ensures_attempt,
      ensures_pure, List.append_nil]
    apply path_shaped.mono
    intro found rest' g hcontext
    cases found with
    | false =>
      have hall : Shaped (child .path * optional (child .path)) (f ++ []) := hpath.append .absent
      rw [List.append_nil] at hall
      exact .inl hall.left
    | true => exact .inl (hpath.append hcontext.present).left

theorem partialTag_leaves (ks : List Kind) : Leaves partialTag R ks .partialTag :=
  tag_leaves (by decide) rfl rfl (fun _ => inside_closing partialPaths_shaped) ks

/-- A mustache, where its opening delimiter is there. -/
theorem mustache_shaped {k : Kind} (hk : k = .openValue ∨ k = .openRaw) (ks : List Kind) :
    mustache.Ensures R (k :: ks) fun found _ f => found = true ∧ Shaped (child .mustache) f := by
  have hopening : isMustacheOpening k = true := by
    rcases hk with rfl | rfl <;> rfl
  have hleaf : Shaped (child .openValue + child .openRaw) [Derivation.leaf k] := by
    rcases hk with rfl | rfl
    · exact (shaped_leaf rfl).left
    · exact (shaped_leaf rfl).right
  rw [mustache, ensures_checkpoint, ensures_bind, ensures_current]
  simp only [List.headD_cons, hopening, if_true, ensures_bind,
    ensures_of_eq (leaf_outcome_cons k ks)]
  apply (expression_closing ks).mono
  intro _ rest f hf
  apply hf.mono
  intro _ _ g hg
  have hall : Shaped (strictContents .mustache) ([Derivation.leaf k] ++ (f ++ g)) :=
    hleaf.append hg
  simpa [Closing.wrap] using hall.node

theorem elseTag_shaped :
    elseTag.Ensures R ks fun found rest f =>
      if found then Shaped (child .elseTag) f else rest = ks ∧ f = [] := by
  rw [elseTag, ensures_checkpoint, ensures_bind]
  apply (leaf_shaped (by decide) rfl).mono
  intro found rest f hopening
  cases found with
  | false => simp [Closing.wrap]
  | true =>
    rw [ensures_unless_true, ensures_bind]
    apply (leaf_shaped (by decide) rfl).mono
    intro found rest' g hclose
    cases found with
    | false => simp [Closing.wrap]
    | true =>
      have hall : Shaped (strictContents .elseTag) (f ++ g) := hopening.append hclose
      simpa [Closing.wrap] using hall.node

/-- A block, where its opening delimiter is there. -/
theorem block_shaped {start : Script Bool} {opening node : Kind} (malformed : Problem)
    {inner : Script Unit} (htag : Leaves start R (opening :: ks) node)
    (hfound : start.Ensures R (opening :: ks) fun found rest _ =>
      found = true ∧ rest.length ≤ ks.length)
    (hnode : ∀ f, Shaped (child node) f → Shaped (child .blockTag + child .inverseTag) f)
    (hinner : ∀ ks, inner.Ensures R ks fun _ _ f => Shaped programTrees f) :
    (block start malformed inner).Ensures R (opening :: ks)
      fun found _ f => found = true ∧ Shaped statementTrees f := by
  rw [block, ensures_checkpoint, ensures_bind]
  apply (htag.and hfound).mono
  intro _ rest f h
  obtain ⟨htag, rfl, -⟩ := h
  simp only [ensures_unless_true, ensures_bind]
  apply (hinner rest).mono
  intro _ rest' g hbody
  apply (endTag_leaves rest').mono
  rintro found _ v hend
  have hclosed : Shaped (child .endTag + child .error) v := by
    cases found with
    | false => exact hend.right
    | true => exact hend.left
  have hall : Shaped statementTrees (f ++ (g ++ v)) :=
    ((hnode _ htag).append (hbody.append hclosed)).right
  simpa [Closing.wrap] using hall

theorem of_found {rule : Script Bool} {P : Pattern}
    (h : rule.Ensures R ks fun found _ f => found = true ∧ Shaped P f) :
    rule.Ensures R ks fun found rest f => if found then Shaped P f else rest = ks ∧ f = [] := by
  apply h.mono
  intro _ rest f h
  obtain ⟨rfl, hf⟩ := h
  exact hf

/-- A statement leaves its trees, or there is no trace of it. -/
theorem statementOver_shaped {inner : Script Unit}
    (hinner : ∀ ks, inner.Ensures R ks fun _ _ f => Shaped programTrees f) (ks : List Kind) :
    (statementOver inner).Ensures R ks fun found rest f =>
      if found then Shaped statementTrees f else rest = ks ∧ f = [] := by
  rw [statementOver, ensures_bind, ensures_current]
  simp only [List.nil_append]
  cases ks with
  | nil => exact ensures_pure.mpr ⟨rfl, rfl⟩
  | cons k ks =>
    rw [List.headD_cons]
    cases k with
    | openInverse =>
      have hblock := block_shaped .malformedInverse (inverseTag_leaves _)
        (tag_succeeds .openInverse .inverseTag expression ks) (fun _ => Shaped.right) hinner
      rw [ensures_bind, ensures_lookahead]
      apply elseTag_shaped.mono
      intro found _ _ _
      cases found with
      | false => exact of_found hblock
      | true => exact ensures_pure.mpr ⟨rfl, rfl⟩
    | openBlock =>
      have hblock := block_shaped .malformedBlock (blockTag_leaves _)
        (tag_succeeds .openBlock .blockTag expression ks) (fun _ => Shaped.left) hinner
      exact of_found hblock
    | openValue =>
      have hmustache := mustache_shaped (R := R) (.inl rfl) ks
      exact of_found (hmustache.mono fun _ _ _ h => ⟨h.1, h.2.right.left.left⟩)
    | openRaw =>
      have hmustache := mustache_shaped (R := R) (.inr rfl) ks
      exact of_found (hmustache.mono fun _ _ _ h => ⟨h.1, h.2.right.left.left⟩)
    | openPartial =>
      have htag := (partialTag_leaves (R := R) _).and
        (tag_succeeds .openPartial .partialTag partialPaths ks)
      refine of_found (htag.mono ?_)
      intro _ rest f h
      obtain ⟨htag, rfl, -⟩ := h
      exact ⟨rfl, htag.right.left⟩
    | content =>
      simp only [ensures_bind, ensures_take_cons, ensures_pure]
      exact (Shaped.word .content).left.left.left.left
    | comment =>
      simp only [commentNode, ensures_checkpoint, ensures_bind, ensures_take_cons, ensures_pure]
      exact (shaped_leaf (k := .comment) rfl).right.left.left.left
    | _ => exact ensures_pure.mpr ⟨rfl, rfl⟩

/-- Statements are a node, or an error over nothing. -/
theorem statementsOver_shaped {inner : Script Unit}
    (hinner : ∀ ks, inner.Ensures R ks fun _ _ f => Shaped programTrees f) (ks : List Kind) :
    (statementsOver inner).Ensures R ks fun found rest f =>
      if found then Shaped (child .statements) f else rest = ks ∧ Shaped (child .error) f := by
  have hmore : ∀ ks, (statementOver inner).Ensures R ks fun found _ f =>
      found = true → Shaped statementTrees f := by
    intro ks
    apply (statementOver_shaped hinner ks).mono
    intro _ _ f hf hfound
    subst hfound
    exact hf
  rw [statementsOver, ensures_checkpoint, ensures_bind]
  apply (statementOver_shaped hinner ks).mono
  intro found rest f hfirst
  cases found with
  | false =>
    obtain ⟨rfl, rfl⟩ := hfirst
    refine ensures_pure.mpr ⟨rfl, ?_⟩
    exact .failure (f := []) trivial _
  | true =>
    rw [ensures_unless_true, ensures_bind]
    apply (many_shaped hmore).mono
    intro _ _ g hg
    have hall : Shaped (strictContents .statements) (f ++ g) := Shaped.append hfirst hg
    simpa [Closing.wrap] using hall.node

/-- Programs by induction on how deep blocks may lie in them. -/
theorem programUpTo_shaped (depth : Nat) (ks : List Kind) :
    (programUpTo depth).Ensures R ks fun _ _ f => Shaped programTrees f := by
  induction depth generalizing ks with
  | zero => exact ensures_pure.mpr Shaped.absent
  | succ depth ih =>
    rw [programUpTo, ensures_bind, ensures_left]
    split
    · exact ensures_pure.mpr Shaped.absent
    · rw [ensures_bind, ensures_checkpoint, ensures_bind, ensures_tracked]
      apply (statementsOver_shaped ih ks).mono
      intro found rest f hbody
      cases found with
      | false =>
        obtain ⟨rfl, -⟩ := hbody
        simp only [Nat.lt_irrefl, decide_false, Bool.or_self, Bool.false_eq_true, if_false,
          ensures_pure, if_true, Closing.wrap]
        exact Shaped.absent
      | true =>
        simp only [Bool.true_or, if_true, ensures_pure, reduceCtorEq, if_false, ensures_bind,
          Closing.wrap, List.append_nil, List.nil_append]
        apply elseTag_shaped.mono
        intro found rest' g helse
        cases found with
        | false =>
          obtain ⟨-, rfl⟩ := helse
          have hall : Shaped programTrees (f ++ []) := (Shaped.append hbody .absent).present
          simpa using hall
        | true =>
          simp only [if_true, ensures_bind, ensures_pure, List.append_nil]
          apply (statementsOver_shaped ih rest').mono
          rintro found _ v hother
          have hbranch : Shaped (child .statements + child .error) v := by
            cases found with
            | false => exact hother.2.right
            | true => exact Shaped.left hother
          exact (Shaped.append hbody (Shaped.append helse hbranch).present).present

theorem program_shaped (ks : List Kind) :
    Grammar.program.Ensures R ks fun _ _ f => Shaped programTrees f := by
  rw [Grammar.program, ensures_bind, ensures_left]
  exact programUpTo_shaped _ ks

end Grammar

end TemplateTree
