import TemplateTree.Proofs.Grammar.PairLookahead
import TemplateTree.Proofs.Grammar.Tags

/-!
# Pairs that break off

An expression may end with a key and no value. Directly behind the path of the
expression the key starts the hash whatever follows it, and behind a complete pair it
goes on with the hash; in both places the pair that broke off is kept in the tree.
Behind parameters nothing looks for the key: the lookahead of a path recognizes complete
pairs only, so the key is read as one more parameter. No hash starts at the equals sign
that is left, and the search for the closing delimiter skips it.
-/

namespace TemplateTree

open Rose

variable {R : KindSet} {ks rest : List Kind}

namespace Derivation

/-- A pair without a value: an error over the key, the equals sign and an empty error
in place of the value. -/
def brokenPair : Rose Kind :=
  .node (.failure "expected a parameter")
    [leaf .ident, leaf .equals, .node (.failure "expected a parameter") []]

namespace Expression

/-- The tree of an expression whose hash ends with a pair that broke off. -/
def brokenTree (e : Expression) : Rose Kind :=
  .node (.plain .expression)
    (e.path.tree :: (wrapSome .params (e.params.map Param.tree)
      ++ [.node (.plain .hash) (e.pairs.map Pair.tree ++ [brokenPair])]))

/-- Whether a key without a value behind the expression is read as the start of a pair. -/
def KeepsKey (e : Expression) : Prop := e.params = [] ∨ e.pairs ≠ []

instance (e : Expression) : Decidable e.KeepsKey :=
  inferInstanceAs (Decidable (e.params = [] ∨ e.pairs ≠ []))

/-- The expression with an identifier as one more parameter. -/
def addIdent (e : Expression) : Expression := { e with params := e.params ++ [.path ⟨0⟩] }

end Expression

end Derivation

namespace Script

/-- A script goes on behind the tree with which its first part starts. -/
theorem ensures_starts_bind {α β : Type} {p : Script α} {next : α → Script β} {r : Rose Kind}
    (h : p.Ensures R ks fun _ _ f => ∃ g, f = r :: g) :
    (p >>= next).Ensures R ks fun _ _ f => ∃ g, f = r :: g := by
  rw [ensures_bind]
  refine h.mono fun _ _ f hf => ensures_iff.mpr ?_
  obtain ⟨g, rfl⟩ := hf
  exact ⟨_, rfl⟩

end Script

namespace Grammar

open Script

/-- The kinds of a pair without a value at the end of a tag. -/
def brokenEnd (rest : List Kind) : List Kind := .ident :: .equals :: .close :: rest

theorem endsPath_brokenEnd (rest : List Kind) : EndsPath (brokenEnd rest) :=
  endsPath_cons (by decide) (by decide)

theorem hashPair_outcome_brokenEnd :
    hashPair.outcome R (brokenEnd rest) = ⟨false, .close :: rest, [Derivation.brokenPair]⟩ := by
  apply ensures_eq_iff.mp
  rw [brokenEnd, hashPair, ensures_checkpoint, ensures_bind,
    ensures_of_eq (leaf_outcome_cons _ _)]
  rw [ensures_unless_true, ensures_bind, ensures_of_eq (leaf_outcome_cons _ _)]
  rw [ensures_unless_true, ensures_bind, ensures_of_eq (param_outcome_of_startsParam rfl)]
  exact ensures_pure.mpr ⟨rfl, rfl, rfl⟩

theorem hashPairs_outcome_brokenEnd {bound : Nat} (h : (brokenEnd rest).length ≤ bound) :
    (hashPairs bound).outcome R (brokenEnd rest) =
      ⟨false, .close :: rest, [Derivation.brokenPair]⟩ := by
  obtain ⟨bound, rfl⟩ := Nat.exists_eq_add_of_le' (Nat.le_trans (Nat.le_add_left 1 _) h)
  apply ensures_eq_iff.mp
  rw [hashPairs, ensures_bind, ensures_checkpoint, ensures_bind, ensures_tracked,
    ensures_of_eq hashPair_outcome_brokenEnd]
  simp [brokenEnd, Closing.wrap]

/-- A hash keeps the pair that breaks off, also if it has no other. -/
theorem hash_outcome_brokenEnd (pairs : List Derivation.Pair) :
    hash.outcome R (pairs.flatMap Derivation.Pair.yield ++ brokenEnd rest) =
      ⟨false, .close :: rest,
        [.node (.plain .hash) (pairs.map Derivation.Pair.tree ++ [Derivation.brokenPair])]⟩ := by
  cases pairs with
  | nil =>
    apply ensures_eq_iff.mp
    rw [List.flatMap_nil, List.nil_append, hash, ensures_checkpoint, ensures_bind,
      ensures_tracked, ensures_of_eq hashPair_outcome_brokenEnd]
    simp [brokenEnd, Closing.wrap]
  | cons p pairs =>
    exact hash_outcome p pairs (endsPath_brokenEnd rest) fun _ => hashPairs_outcome_brokenEnd

/-- A key without a value is no pair, so a path starts there. -/
theorem path_outcome_brokenEnd :
    path.outcome R (brokenEnd rest) =
      ⟨true, .equals :: .close :: rest, [Derivation.Path.tree ⟨0⟩]⟩ := by
  have hpair : isPairAhead (.ofList R (brokenEnd rest)) = false := isPairAhead_key
  have hstop : (pathStep.outcome R (.equals :: .close :: rest)) =
      ⟨false, .equals :: .close :: rest, []⟩ :=
    pathStep_outcome_of_ne (show Kind.equals ≠ .separator by decide)
  apply ensures_eq_iff.mp
  rw [path, ensures_bind, ensures_view, hpair, if_neg Bool.false_ne_true, ensures_checkpoint,
    ensures_bind, brokenEnd, ensures_of_eq (leaf_outcome_cons _ _)]
  rw [ensures_unless_true, ensures_bind, ensures_left, List.length_cons, pathSteps,
    ensures_bind, ensures_bind, ensures_of_eq hstop, if_neg Bool.false_ne_true]
  exact ensures_pure.mpr (ensures_pure.mpr ⟨rfl, rfl, rfl⟩)

/-- The key is read as a parameter, which is the last one: none starts at the equals sign. -/
theorem repeatUpTo_param_outcome_brokenEnd {bound : Nat} (h : (brokenEnd rest).length ≤ bound) :
    (repeatUpTo param bound).outcome R (brokenEnd rest) =
      ⟨(), .equals :: .close :: rest, [Derivation.Param.tree (.path ⟨0⟩)]⟩ := by
  obtain ⟨bound, rfl⟩ := Nat.exists_eq_add_of_le' (Nat.le_trans (Nat.le_add_left 1 _) h)
  have hfirst : (firstOf [path, leaf .string, leaf .integer, leaf .boolean]).outcome R
      (brokenEnd rest) = ⟨true, .equals :: .close :: rest, [Derivation.Path.tree ⟨0⟩]⟩ :=
    firstOf_outcome [] (by simp) path_outcome_brokenEnd
  have hparam : param.outcome R (brokenEnd rest) =
      ⟨true, .equals :: .close :: rest, [Derivation.Param.tree (.path ⟨0⟩)]⟩ := by
    apply ensures_eq_iff.mp
    rw [param, ensures_checkpoint, ensures_bind, ensures_of_eq hfirst]
    exact ensures_pure.mpr ⟨rfl, rfl, rfl⟩
  have hstop : Fails param R (.equals :: .close :: rest) :=
    fails_of_outcome (param_outcome_of_startsParam rfl)
  apply ensures_eq_iff.mp
  rw [repeatUpTo, ensures_bind, ensures_of_eq (attempt_outcome_of_reads hparam), if_pos rfl,
    ensures_of_eq (repeatUpTo_outcome_of_fails hstop bound)]
  exact ⟨rfl, rfl, rfl⟩

/-- The pair that breaks off is kept behind the path of the expression and behind
complete pairs. -/
theorem expression_outcome_of_keepsKey {e : Derivation.Expression} (h : e.KeepsKey) :
    expression.outcome R (e.yield ++ brokenEnd rest) = ⟨true, .close :: rest, [e.brokenTree]⟩ := by
  obtain ⟨p, params, pairs⟩ := e
  let behind := pairs.flatMap Derivation.Pair.yield ++ brokenEnd rest
  have hbehind : EndsPath behind := endsPath_pairs pairs (endsPath_brokenEnd rest)
  have hyield : Derivation.Expression.yield ⟨p, params, pairs⟩ ++ brokenEnd rest =
      p.yield ++ (params.flatMap Derivation.Param.yield ++ behind) := by
    simp [Derivation.Expression.yield, behind]
  have hpath := path_outcome (R := R) p (endsPath_params params hbehind)
  have hhash := @hash_outcome_brokenEnd R rest pairs
  have hkey : isKeyAhead (.ofList R behind) = true := by
    cases pairs <;> rfl
  rw [hyield]
  cases params with
  | nil =>
    have hleading := leadingHash_outcome_of_key hkey
    rw [hhash] at hleading
    exact expression_outcome_of_hash hpath hleading
  | cons param params =>
    cases pairs with
    | nil => exact (h.elim (fun h => List.cons_ne_nil _ _ h) fun h => h rfl).elim
    | cons pair pairs =>
      have hparams := params_outcome (R := R) param params hbehind fun bound _ =>
        repeatUpTo_outcome_of_fails (param_fails_pairs pair pairs (endsPath_brokenEnd rest)) bound
      have htrailing := trailingHash_outcome_of_startsHash (R := R) (startsHash_of_isKeyAhead hkey)
      rw [hhash] at htrailing
      rw [List.append_nil] at hparams
      exact expression_outcome_of_arguments hpath (isKeyAhead_params param params hbehind)
        (arguments_outcome hparams htrailing)

/-- Behind parameters alone the key becomes one of them, and the expression ends before
the equals sign. -/
theorem expression_outcome_of_not_keepsKey {e : Derivation.Expression} (h : ¬ e.KeepsKey) :
    expression.outcome R (e.yield ++ brokenEnd rest) =
      ⟨true, .equals :: .close :: rest, [e.addIdent.tree]⟩ := by
  obtain ⟨p, params, pairs⟩ := e
  obtain ⟨hparams, hpairs⟩ := not_or.mp h
  obtain rfl : pairs = [] := Decidable.not_not.mp hpairs
  obtain ⟨param, params, rfl⟩ := List.exists_cons_of_ne_nil hparams
  have hend := endsPath_brokenEnd rest
  have hyield : Derivation.Expression.yield ⟨p, param :: params, []⟩ ++ brokenEnd rest =
      p.yield ++ ((param :: params).flatMap Derivation.Param.yield ++ brokenEnd rest) := by
    simp [Derivation.Expression.yield]
  have hpath := path_outcome (R := R) p (endsPath_params (param :: params) hend)
  have hread := params_outcome (R := R) param params hend
    fun _ => repeatUpTo_param_outcome_brokenEnd
  have htrailing := trailingHash_outcome_of_stays (R := R)
    (show startsHash ((Kind.equals :: .close :: rest).headD .endOfInput) = false from rfl)
  have htree : Derivation.Expression.tree ⟨p, (param :: params) ++ [.path ⟨0⟩], []⟩ =
      .node (.plain .expression) ([p.tree] ++ ([.node (.plain .params)
        ((param :: params).map Derivation.Param.tree ++ [Derivation.Param.tree (.path ⟨0⟩)])]
          ++ [])) := by
    simp [Derivation.Expression.tree, Derivation.wrapSome]
  rw [hyield, Derivation.Expression.addIdent, htree]
  exact expression_outcome_of_arguments hpath (isKeyAhead_params param params hend)
    (arguments_outcome hread htrailing)

/-- The equals sign that is left is skipped on the way to the closing delimiter. -/
theorem greedyLeaf_outcome_equals (h : R.contains .equals = false) :
    (greedyLeaf .close).outcome R (.equals :: .close :: rest) =
      ⟨true, rest, [lateError [], lateError [], lateError [.equals], Derivation.leaf .close]⟩ := by
  have hfirst := @leaf_outcome_late R [] .equals (by decide) rest
  exact @greedyLeaf_outcome_late R _ [] [] rest .equals hfirst (by simp [passes, h])

/-- The tree of a mustache whose key without a value got lost: the key is a parameter
and the equals sign is skipped. -/
def lostMustache (raw : Bool) (e : Derivation.Expression) : Rose Kind :=
  .node (.plain .mustache) [Derivation.leaf (Derivation.mustacheOpening raw), e.addIdent.tree,
    lateError [], lateError [], lateError [.equals], Derivation.leaf .close]

theorem mustache_outcome_of_keepsKey (raw : Bool) {e : Derivation.Expression} (h : e.KeepsKey) :
    mustache.outcome R (Derivation.mustacheOpening raw :: (e.yield ++ brokenEnd rest)) =
      ⟨true, rest, [Derivation.tag .mustache (Derivation.mustacheOpening raw) [e.brokenTree]]⟩ :=
  mustache_outcome_of_parts raw (expression_outcome_of_keepsKey h) (greedyLeaf_outcome .close)

theorem mustache_outcome_of_not_keepsKey (raw : Bool) {e : Derivation.Expression}
    (h : ¬ e.KeepsKey) (hequals : R.contains .equals = false) :
    mustache.outcome R (Derivation.mustacheOpening raw :: (e.yield ++ brokenEnd rest)) =
      ⟨true, rest, [lostMustache raw e]⟩ :=
  mustache_outcome_of_parts raw (expression_outcome_of_not_keepsKey h)
    (greedyLeaf_outcome_equals hequals)

/-- The equals sign is an error about the closing delimiter, wherever skipping stops. -/
theorem greedyLeaf_starts (ks : List Kind) :
    (greedyLeaf .close).Ensures R (.equals :: ks) fun _ _ f => ∃ g, f = lateError [] :: g := by
  have hfirst : (leaf .close).outcome R (.equals :: ks) =
      ⟨false, .equals :: ks, [lateError []]⟩ :=
    leaf_outcome_ne (show Kind.equals ≠ .close by decide)
  rw [greedyLeaf, ensures_bind, ensures_of_eq hfirst, if_neg Bool.false_ne_true]
  exact ensures_iff.mpr ⟨_, rfl⟩

theorem exists_mustache_outcome (raw : Bool) {e : Derivation.Expression} (h : ¬ e.KeepsKey) :
    ∃ later g, mustache.outcome R
        (Derivation.mustacheOpening raw :: (e.yield ++ brokenEnd rest)) =
      ⟨true, later, [.node (.plain .mustache)
        (Derivation.leaf (Derivation.mustacheOpening raw) :: e.addIdent.tree
          :: lateError [] :: g)]⟩ := by
  obtain ⟨g, hclose⟩ := ensures_iff.mp (greedyLeaf_starts (R := R) (.close :: rest))
  exact ⟨_, g, mustache_outcome_of_parts raw (g := lateError [] :: g)
    (expression_outcome_of_not_keepsKey h) (by rw [← hclose])⟩

theorem statementOver_outcome_mustache (inner : Script Unit) (raw : Bool) (ks : List Kind) :
    (statementOver inner).outcome R (Derivation.mustacheOpening raw :: ks) =
      mustache.outcome R (Derivation.mustacheOpening raw :: ks) := by
  cases raw <;> rfl

/-- A template that starts with a mustache has that as its first statement. -/
theorem template_starts (root : Kind) {raw : Bool} {m : Rose Kind}
    (h : mustache.outcome R (Derivation.mustacheOpening raw :: ks) = ⟨true, rest, [m]⟩) :
    (template root).Ensures R (Derivation.mustacheOpening raw :: ks) fun _ _ f =>
      ∃ others more,
        f = [.node (.plain root) (.node (.plain .statements) (m :: others) :: more)] := by
  let inner := programUpTo ks.length
  have hfirst := (statementOver_outcome_mustache inner raw ks).trans h
  have hstatements := statementsOver_outcome_of_parts hfirst rfl
  let others := ((many (statementOver inner)).outcome R rest).forest
  have hprogram : Grammar.program.Ensures R (Derivation.mustacheOpening raw :: ks) fun _ _ f =>
      ∃ g, f = .node (.plain .statements) (m :: others) :: g := by
    rw [Grammar.program, ensures_bind, ensures_left, List.length_cons, programUpTo, ensures_bind,
      ensures_left, if_neg (by simp)]
    refine ensures_starts_bind ?_
    rw [ensures_checkpoint, ensures_bind, ensures_tracked, ensures_of_eq hstatements]
    exact ensures_pure.mpr ⟨[], rfl⟩
  rw [template, ensures_checkpoint, ensures_bind]
  apply hprogram.mono
  rintro _ rest' _ ⟨g, rfl⟩
  rw [ensures_bind, ensures_left, ensures_bind]
  exact ensures_iff.mpr (ensures_pure.mpr ⟨others, _, rfl⟩)

/-- A mustache up to the end of the input is the only statement of its template. -/
theorem template_outcome_of_mustache (root : Kind) {raw : Bool} {f : List (Rose Kind)}
    (h : mustache.outcome R (Derivation.mustacheOpening raw :: ks) = ⟨true, [], f⟩) :
    (template root).outcome R (Derivation.mustacheOpening raw :: ks) =
      ⟨(), [], [.node (.plain root) [.node (.plain .statements) f]]⟩ := by
  let inner := programUpTo ks.length
  have hfirst := (statementOver_outcome_mustache inner raw ks).trans h
  have hend := fails_of_outcome (statementOver_outcome_of_endsProgram (R := R) inner (.inl rfl))
  have hstatements := statementsOver_outcome_of_parts hfirst (many_outcome_of_fails hend)
  rw [List.append_nil] at hstatements
  exact template_outcome_of_program root
    (programUpTo_outcome_of_statements (List.cons_ne_nil _ _) hstatements (by decide))

end Grammar

end TemplateTree
