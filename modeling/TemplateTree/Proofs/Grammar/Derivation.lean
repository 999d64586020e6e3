import TemplateTree.Grammar.Derivation

/-!
# Derivations and their trees

The leaves of the tree of a derivation are its yield, and there are no errors
in it.
-/

namespace TemplateTree

open Rose

namespace Rose

variable {τ : Type}

theorem leavesAll_eq_flatMap (rs : List (Rose τ)) : leavesAll rs = rs.flatMap leaves := by
  induction rs with
  | nil => rfl
  | cons r rs ih => rw [leavesAll, ih, List.flatMap_cons]

/-- No node of the forest is an error. -/
def ErrorFree (f : List (Rose τ)) : Prop := ∀ l ∈ labelsAll f, l.kind ≠ .error

@[simp] theorem errorFree_nil : ErrorFree ([] : List (Rose τ)) := by
  intro l hl
  cases hl

@[simp] theorem errorFree_append {f g : List (Rose τ)} :
    ErrorFree (f ++ g) ↔ ErrorFree f ∧ ErrorFree g := by
  simp [ErrorFree, or_imp, forall_and]

@[simp] theorem errorFree_token {t : τ} {f : List (Rose τ)} :
    ErrorFree (.token t :: f) ↔ ErrorFree f := by
  simp [ErrorFree, labelsAll, labels]

@[simp] theorem errorFree_node {l : Label} {f g : List (Rose τ)} :
    ErrorFree (.node l f :: g) ↔ l.kind ≠ .error ∧ ErrorFree f ∧ ErrorFree g := by
  simp [ErrorFree, labelsAll, labels, or_imp, forall_and]

theorem errorFree_cons {r : Rose τ} {f : List (Rose τ)} (hr : ErrorFree [r]) (hf : ErrorFree f) :
    ErrorFree (r :: f) :=
  errorFree_append.mpr ⟨hr, hf⟩

theorem errorFree_map {α : Type} {t : α → Rose τ} (h : ∀ a, ErrorFree [t a]) (as : List α) :
    ErrorFree (as.map t) := by
  induction as with
  | nil => exact errorFree_nil
  | cons a as ih => exact errorFree_cons (h a) ih

end Rose

namespace Derivation

@[simp] theorem leaves_leaf (k : Kind) : (leaf k).leaves = [k] := rfl

@[simp] theorem labels_leaf (k : Kind) : (leaf k).labels = [.plain k] := rfl

@[simp] theorem leaves_tag (node opening : Kind) (inside : List (Rose Kind)) :
    (tag node opening inside).leaves = opening :: (leavesAll inside ++ [.close]) := by
  simp [tag, leaves, leavesAll]

@[simp] theorem leavesAll_wrapSome (k : Kind) (rs : List (Rose Kind)) :
    leavesAll (wrapSome k rs) = leavesAll rs := by
  cases rs <;> simp [wrapSome, leavesAll, leaves]

@[simp] theorem leaves_path (p : Path) : p.tree.leaves = p.yield := by
  have hsteps : ∀ n, leavesAll (List.replicate n [leaf .separator, leaf .ident]).flatten =
      (List.replicate n [Kind.separator, .ident]).flatten := by
    intro n
    induction n with
    | zero => rfl
    | succ n ih =>
      rw [List.replicate_succ, List.flatten_cons, leavesAll_append, ih]
      rfl
  rw [Path.tree, leaves, leavesAll, hsteps]
  rfl

@[simp] theorem leaves_param (p : Param) : p.tree.leaves = p.yield := by
  cases p with
  | path p => simp [Param.tree, Param.yield, leaves, leavesAll]
  | _ => rfl

@[simp] theorem leaves_pair (p : Pair) : p.tree.leaves = p.yield := by
  simp [Pair.tree, Pair.yield, leaves, leavesAll]

@[simp] theorem leaves_expression (e : Expression) : e.tree.leaves = e.yield := by
  have hparams : leavesAll (e.params.map Param.tree) = e.params.flatMap Param.yield := by
    simp [leavesAll_eq_flatMap, List.flatMap_map]
  have hpairs : leavesAll (e.pairs.map Pair.tree) = e.pairs.flatMap Pair.yield := by
    simp [leavesAll_eq_flatMap, List.flatMap_map]
  simp [Expression.tree, Expression.yield, leaves, leavesAll, hparams, hpairs]

mutual

theorem leavesAll_statement (s : Statement) : leavesAll s.forest = s.yield := by
  cases s with
  | content => rfl
  | comment => rfl
  | mustache raw e => simp [Statement.forest, Statement.yield, leavesAll]
  | partialTag name context =>
    cases context <;> simp [Statement.forest, Statement.yield, leavesAll]
  | block inverse e body name =>
    have hbody := leavesAll_program body
    simp [Statement.forest, Statement.yield, leavesAll, hbody]

theorem leavesAll_statements (ss : Statements) : leavesAll ss.forest = ss.yield := by
  cases ss with
  | last s =>
    have hs := leavesAll_statement s
    simp [Statements.forest, Statements.yield, hs]
  | more s rest =>
    have hs := leavesAll_statement s
    have hrest := leavesAll_statements rest
    simp [Statements.forest, Statements.yield, hs, hrest]

/-- The leaves of a derived forest are the yield of the derivation. -/
theorem leavesAll_program (p : Program) : leavesAll p.forest = p.yield := by
  cases p with
  | empty => rfl
  | plain body =>
    have hbody := leavesAll_statements body
    simp [Program.forest, Program.yield, leavesAll, leaves, hbody]
  | alternative body other =>
    have hbody := leavesAll_statements body
    have hother := leavesAll_statements other
    simp [Program.forest, Program.yield, leavesAll, leaves, hbody, hother]

end

theorem errorFree_leaf {k : Kind} (h : k ≠ .error) : ErrorFree [leaf k] := by
  simpa [leaf, Label.kind] using h

theorem errorFree_path (p : Path) : ErrorFree [p.tree] := by
  have hsteps : ∀ n, ErrorFree (List.replicate n [leaf .separator, leaf .ident]).flatten := by
    intro n
    induction n with
    | zero => exact errorFree_nil
    | succ n ih =>
      rw [List.replicate_succ, List.flatten_cons, errorFree_append]
      exact ⟨by simp [leaf, Label.kind], ih⟩
  exact errorFree_node.mpr
    ⟨by decide, errorFree_cons (errorFree_leaf (by decide)) (hsteps p.separators), errorFree_nil⟩

theorem errorFree_param (p : Param) : ErrorFree [p.tree] := by
  cases p <;> simp [Param.tree, leaf, Label.kind, errorFree_path]

theorem errorFree_pair (p : Pair) : ErrorFree [p.tree] := by
  simp [Pair.tree, leaf, Label.kind, errorFree_param]

theorem errorFree_wrapSome {k : Kind} {f : List (Rose Kind)} (hk : k ≠ .error) (hf : ErrorFree f) :
    ErrorFree (wrapSome k f) := by
  cases f with
  | nil => exact hf
  | cons r f => exact errorFree_node.mpr ⟨hk, hf, errorFree_nil⟩

theorem errorFree_expression (e : Expression) : ErrorFree [e.tree] := by
  have hparams := errorFree_map errorFree_param e.params
  have hpairs := errorFree_map errorFree_pair e.pairs
  have hinside : ErrorFree (e.path.tree :: (wrapSome .params (e.params.map Param.tree)
      ++ wrapSome .hash (e.pairs.map Pair.tree))) :=
    errorFree_cons (errorFree_path e.path) (errorFree_append.mpr
      ⟨errorFree_wrapSome (by decide) hparams, errorFree_wrapSome (by decide) hpairs⟩)
  exact errorFree_node.mpr ⟨by decide, hinside, errorFree_nil⟩

theorem errorFree_tag {node opening : Kind} {f : List (Rose Kind)} (hnode : node ≠ .error)
    (hopening : opening ≠ .error) (hf : ErrorFree f) : ErrorFree [tag node opening f] := by
  have hinside : ErrorFree (f ++ [leaf .close]) :=
    errorFree_append.mpr ⟨hf, errorFree_leaf (by decide)⟩
  exact errorFree_node.mpr ⟨hnode, errorFree_cons (errorFree_leaf hopening) hinside, errorFree_nil⟩

mutual

theorem errorFree_statement (s : Statement) : ErrorFree s.forest := by
  cases s with
  | content => simp [Statement.forest]
  | comment => exact errorFree_leaf (by decide)
  | mustache raw e =>
    exact errorFree_tag (by decide) (by cases raw <;> decide) (errorFree_expression e)
  | partialTag name context =>
    refine errorFree_tag (by decide) (by decide) (errorFree_cons (errorFree_path name) ?_)
    cases context with
    | none => exact errorFree_nil
    | some context => exact errorFree_path context
  | block inverse e body name =>
    have hend : ErrorFree [tag .endTag .openEnd [name.tree]] :=
      errorFree_tag (by decide) (by decide) (errorFree_path name)
    exact errorFree_cons
      (errorFree_tag (by cases inverse <;> decide) (by cases inverse <;> decide)
        (errorFree_expression e))
      (errorFree_append.mpr ⟨errorFree_program body, hend⟩)

theorem errorFree_statements (ss : Statements) : ErrorFree ss.forest := by
  cases ss with
  | last s => exact errorFree_statement s
  | more s rest =>
    exact errorFree_append.mpr ⟨errorFree_statement s, errorFree_statements rest⟩

/-- A derived forest holds no errors. -/
theorem errorFree_program (p : Program) : ErrorFree p.forest := by
  cases p with
  | empty => exact errorFree_nil
  | plain body =>
    exact errorFree_node.mpr ⟨by decide, errorFree_statements body, errorFree_nil⟩
  | alternative body other =>
    have helse : ErrorFree [leaf .openInverse, leaf .close] :=
      errorFree_cons (errorFree_leaf (by decide)) (errorFree_leaf (by decide))
    exact errorFree_node.mpr ⟨by decide, errorFree_statements body,
      errorFree_node.mpr ⟨by decide, helse,
        errorFree_node.mpr ⟨by decide, errorFree_statements other, errorFree_nil⟩⟩⟩

end

end Derivation

end TemplateTree
