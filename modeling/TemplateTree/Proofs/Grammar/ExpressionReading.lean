import TemplateTree.Proofs.Grammar.Keys
import TemplateTree.Proofs.Grammar.Progress

/-!
# Reading well-formed expressions

On the yield of a derivation each rule takes exactly that yield and leaves
exactly the tree of the derivation, whatever the recovery set is. All that
matters of what comes behind is its first kind: a path must not go on there,
and an identifier at its end must not become a key. Rules that are tried in
vain on the way leave no trace.
-/

namespace TemplateTree

open Rose

variable {R : KindSet} {ks rest : List Kind}

namespace Script

/-- The rule does not succeed. -/
def Fails (rule : Script Bool) (R : KindSet) (ks : List Kind) : Prop :=
  rule.Ensures R ks fun found _ _ => found = false

theorem fails_of_outcome {rule : Script Bool} {f : List (Rose Kind)}
    (h : rule.outcome R ks = ⟨false, rest, f⟩) : Fails rule R ks :=
  (ensures_of_eq h).mpr rfl

theorem attempt_outcome_of_fails {rule : Script Bool} (h : Fails rule R ks) :
    (attempt rule).outcome R ks = ⟨false, ks, []⟩ := by
  apply ensures_eq_iff.mp
  rw [ensures_attempt]
  apply h.mono
  intro _ _ _ hfound
  subst hfound
  exact ⟨rfl, rfl, rfl⟩

theorem attempt_outcome_of_reads {rule : Script Bool} {f : List (Rose Kind)}
    (h : rule.outcome R ks = ⟨true, rest, f⟩) : (attempt rule).outcome R ks = ⟨true, rest, f⟩ := by
  apply ensures_eq_iff.mp
  rw [ensures_attempt, ensures_of_eq h]
  exact ⟨rfl, rfl, rfl⟩

/-- The first rule that does not fail is the one that counts. -/
theorem firstOf_outcome (before : List (Script Bool)) {after : List (Script Bool)}
    {rule : Script Bool} {f : List (Rose Kind)} (hbefore : ∀ r ∈ before, Fails r R ks)
    (h : rule.outcome R ks = ⟨true, rest, f⟩) :
    (firstOf (before ++ rule :: after)).outcome R ks = ⟨true, rest, f⟩ := by
  apply ensures_eq_iff.mp
  induction before with
  | nil =>
    rw [List.nil_append, firstOf, ensures_bind, ensures_of_eq (attempt_outcome_of_reads h)]
    exact ensures_pure.mpr ⟨rfl, rfl, List.append_nil f⟩
  | cons r before ih =>
    have hr := attempt_outcome_of_fails (hbefore r List.mem_cons_self)
    rw [List.cons_append, firstOf, ensures_bind, ensures_of_eq hr]
    exact ih fun r' hr' => hbefore r' (List.mem_cons_of_mem _ hr')

theorem firstOf_outcome_of_fails {rules : List (Script Bool)} (h : ∀ r ∈ rules, Fails r R ks) :
    (firstOf rules).outcome R ks = ⟨false, ks, []⟩ := by
  induction rules with
  | nil => rfl
  | cons r rules ih =>
    have hr := attempt_outcome_of_fails (h r List.mem_cons_self)
    have hothers := ih fun r' hr' => h r' (List.mem_cons_of_mem _ hr')
    apply ensures_eq_iff.mp
    rw [firstOf, ensures_bind, ensures_of_eq hr, if_neg Bool.false_ne_true,
      ensures_of_eq hothers]
    exact ⟨rfl, rfl, rfl⟩

section Repetition

variable {α : Type} {rule : Script Bool} {y : α → List Kind} {t : α → List (Rose Kind)}

theorem repeatUpTo_outcome_of_fails (h : Fails rule R rest) (bound : Nat) :
    (repeatUpTo rule bound).outcome R rest = ⟨(), rest, []⟩ := by
  apply ensures_eq_iff.mp
  cases bound with
  | zero => exact ensures_pure.mpr ⟨rfl, rfl, rfl⟩
  | succ bound =>
    rw [repeatUpTo, ensures_bind, ensures_of_eq (attempt_outcome_of_fails h)]
    exact ensures_pure.mpr ⟨rfl, rfl, rfl⟩

theorem many_outcome_of_fails (h : Fails rule R rest) :
    (many rule).outcome R rest = ⟨(), rest, []⟩ :=
  repeatUpTo_outcome_of_fails h rest.length

/-- A rule that reads each of some data whatever others follow reads all of them when
it is repeated often enough, and the repetition goes on behind them. -/
theorem repeatUpTo_outcome_append {as : List α}
    (hread : ∀ a ∈ as, ∀ more : List α, rule.outcome R (y a ++ (more.flatMap y ++ rest)) =
      ⟨true, more.flatMap y ++ rest, t a⟩) (bound : Nat) :
    (repeatUpTo rule (as.length + bound)).outcome R (as.flatMap y ++ rest) =
      ⟨(), ((repeatUpTo rule bound).outcome R rest).rest,
        as.flatMap t ++ ((repeatUpTo rule bound).outcome R rest).forest⟩ := by
  induction as with
  | nil =>
    rw [List.length_nil, Nat.zero_add]
    rfl
  | cons a as ih =>
    have hfirst := hread a List.mem_cons_self as
    have hothers := ih fun b hb => hread b (List.mem_cons_of_mem _ hb)
    apply ensures_eq_iff.mp
    rw [List.flatMap_cons, List.append_assoc, List.length_cons, Nat.succ_add, repeatUpTo,
      ensures_bind, ensures_of_eq (attempt_outcome_of_reads hfirst), if_pos rfl,
      ensures_of_eq hothers]
    exact ⟨rfl, rfl, by simp⟩

/-- There are no more data than kinds in their yields. -/
theorem length_le_length_flatMap (hy : ∀ a, y a ≠ []) (as : List α) (rest : List Kind) :
    as.length ≤ (as.flatMap y ++ rest).length := by
  induction as with
  | nil => exact Nat.zero_le _
  | cons a as ih =>
    have hpos : 0 < (y a).length := List.length_pos_of_ne_nil (hy a)
    rw [List.flatMap_cons, List.append_assoc, List.length_append, List.length_cons]
    omega

theorem many_outcome {as : List α} (hy : ∀ a, y a ≠ [])
    (hread : ∀ a ∈ as, ∀ more : List α, rule.outcome R (y a ++ (more.flatMap y ++ rest)) =
      ⟨true, more.flatMap y ++ rest, t a⟩)
    (hstop : Fails rule R rest) :
    (many rule).outcome R (as.flatMap y ++ rest) = ⟨(), rest, as.flatMap t⟩ := by
  obtain ⟨bound, hbound⟩ := Nat.exists_eq_add_of_le (length_le_length_flatMap hy as rest)
  have hrepeat := repeatUpTo_outcome_append hread bound
  rw [repeatUpTo_outcome_of_fails hstop, ← hbound, List.append_nil] at hrepeat
  apply ensures_eq_iff.mp
  rw [many, ensures_bind, ensures_left, ensures_of_eq hrepeat]
  exact ⟨rfl, rfl, rfl⟩

end Repetition

end Script

namespace Grammar

open Script

/-- A path may end here: no separator comes next, and no equals sign. -/
def EndsPath (rest : List Kind) : Prop :=
  rest.headD .endOfInput ≠ .separator ∧ rest.headD .endOfInput ≠ .equals

theorem endsPath_cons {k : Kind} (hseparator : k ≠ .separator) (hequals : k ≠ .equals) :
    EndsPath (k :: ks) := ⟨hseparator, hequals⟩

theorem endsPath_close (rest : List Kind) : EndsPath (.close :: rest) :=
  endsPath_cons (by decide) (by decide)

theorem leaf_fails {k : Kind} (h : ks.headD .endOfInput ≠ k) : Fails (leaf k) R ks := by
  rw [Fails, ensures_of_eq (leaf_outcome_ne h)]

theorem path_fails_of_ne (h : ks.headD .endOfInput ≠ .ident) : Fails path R ks := by
  rw [Fails, path, ensures_bind, ensures_view,
    isPairAhead_of_isKeyAhead (isKeyAhead_of_ne h), if_neg Bool.false_ne_true,
    ensures_checkpoint, ensures_bind, ensures_of_eq (leaf_outcome_ne h)]
  exact ensures_pure.mpr rfl

theorem path_fails_of_isPairAhead (h : isPairAhead (.ofList R ks) = true) : Fails path R ks := by
  rw [Fails, path, ensures_bind, ensures_view, h, if_pos rfl]
  exact ensures_pure.mpr rfl

theorem pathStep_outcome (h : rest.headD .endOfInput ≠ .equals) :
    pathStep.outcome R (.separator :: .ident :: rest) =
      ⟨true, rest, [Derivation.leaf .separator, Derivation.leaf .ident]⟩ := by
  apply ensures_eq_iff.mp
  rw [pathStep, ensures_checkpoint, ensures_bind, ensures_of_eq (leaf_outcome_cons _ _)]
  rw [ensures_unless_true, ensures_bind, ensures_view,
    isPairAhead_of_isKeyAhead (isKeyAhead_cons h), if_neg Bool.false_ne_true]
  rw [ensures_bind, ensures_of_eq (leaf_outcome_cons _ _)]
  exact ensures_pure.mpr ⟨rfl, rfl, rfl⟩

theorem pathStep_outcome_of_ne (h : rest.headD .endOfInput ≠ .separator) :
    pathStep.outcome R rest = ⟨false, rest, []⟩ := by
  apply ensures_eq_iff.mp
  rw [pathStep, ensures_checkpoint, ensures_bind, ensures_of_eq (leaf_outcome_ne h)]
  exact ensures_pure.mpr ⟨rfl, rfl, rfl⟩

/-- The first kind behind some steps of a path. -/
theorem headD_steps_ne_equals (n : Nat) (h : EndsPath rest) :
    ((List.replicate n [Kind.separator, .ident]).flatten ++ rest).headD .endOfInput ≠ .equals := by
  cases n with
  | zero => exact h.2
  | succ n =>
    intro hequals
    cases hequals

theorem pathSteps_outcome (n bound : Nat) (hbound : n ≤ bound) (h : EndsPath rest) :
    (pathSteps bound).outcome R ((List.replicate n [Kind.separator, .ident]).flatten ++ rest) =
      ⟨(), rest,
        (List.replicate n [Derivation.leaf .separator, Derivation.leaf .ident]).flatten⟩ := by
  apply ensures_eq_iff.mp
  induction n generalizing bound with
  | zero =>
    cases bound with
    | zero => exact ensures_pure.mpr ⟨rfl, rfl, rfl⟩
    | succ bound =>
      rw [List.replicate_zero, List.flatten_nil, List.nil_append, pathSteps, ensures_bind,
        ensures_of_eq (pathStep_outcome_of_ne h.1)]
      exact ensures_pure.mpr ⟨rfl, rfl, rfl⟩
  | succ n ih =>
    cases bound with
    | zero => cases hbound
    | succ bound =>
      have hstep := pathStep_outcome (R := R) (headD_steps_ne_equals n h)
      rw [List.replicate_succ, List.flatten_cons, List.append_assoc, pathSteps, ensures_bind]
      refine (ensures_of_eq hstep).mpr ?_
      apply (ih bound (Nat.le_of_succ_le_succ hbound)).mono
      intro _ _ _ h
      obtain ⟨-, rfl, rfl⟩ := h
      exact ⟨rfl, rfl, rfl⟩

theorem path_outcome (p : Derivation.Path) (h : EndsPath rest) :
    path.outcome R (p.yield ++ rest) = ⟨true, rest, [p.tree]⟩ := by
  let steps := (List.replicate p.separators [Kind.separator, .ident]).flatten ++ rest
  have hyield : p.yield ++ rest = .ident :: steps := rfl
  have hkey : isKeyAhead (.ofList R (.ident :: steps)) = false :=
    isKeyAhead_cons (headD_steps_ne_equals p.separators h)
  have hbound : p.separators ≤ steps.length := by
    simp only [steps, List.length_append, List.length_flatten, List.map_replicate,
      List.sum_replicate_nat, List.length_cons, List.length_nil]
    omega
  have hsteps := pathSteps_outcome (R := R) p.separators steps.length hbound h
  apply ensures_eq_iff.mp
  rw [hyield, path, ensures_bind, ensures_view, isPairAhead_of_isKeyAhead hkey,
    if_neg Bool.false_ne_true, ensures_checkpoint, ensures_bind,
    ensures_of_eq (leaf_outcome_cons _ _)]
  rw [ensures_unless_true, ensures_bind, ensures_left, ensures_bind, ensures_of_eq hsteps]
  exact ensures_pure.mpr ⟨rfl, rfl, by simp [Closing.wrap, Derivation.Path.tree]⟩

/-- A parameter starts with a kind of its own, which is no key. -/
theorem exists_param_yield_eq (p : Derivation.Param) (h : EndsPath rest) :
    ∃ k ks, p.yield ++ rest = k :: ks ∧ startsParam k = true ∧
      ks.headD .endOfInput ≠ .equals := by
  cases p with
  | path p => exact ⟨_, _, rfl, rfl, headD_steps_ne_equals p.separators h⟩
  | string => exact ⟨_, _, rfl, rfl, h.2⟩
  | integer => exact ⟨_, _, rfl, rfl, h.2⟩
  | boolean => exact ⟨_, _, rfl, rfl, h.2⟩

theorem param_outcome (p : Derivation.Param) (h : EndsPath rest) :
    param.outcome R (p.yield ++ rest) = ⟨true, rest, [p.tree]⟩ := by
  have hfirst : ∃ r, (firstOf [path, leaf .string, leaf .integer, leaf .boolean]).outcome R
      (p.yield ++ rest) = ⟨true, rest, [r]⟩ ∧ p.tree = .node (.plain .param) [r] := by
    cases p with
    | path p => exact ⟨p.tree, firstOf_outcome [] (by simp) (path_outcome p h), rfl⟩
    | string =>
      refine ⟨_, firstOf_outcome [path] ?_ (leaf_outcome_cons _ _), rfl⟩
      rw [List.forall_mem_singleton]
      exact path_fails_of_ne (show Kind.string ≠ .ident by decide)
    | integer =>
      refine ⟨_, firstOf_outcome [path, leaf .string] ?_ (leaf_outcome_cons _ _), rfl⟩
      rw [List.forall_mem_cons, List.forall_mem_singleton]
      exact ⟨path_fails_of_ne (show Kind.integer ≠ .ident by decide),
        leaf_fails (show Kind.integer ≠ .string by decide)⟩
    | boolean =>
      refine ⟨_, firstOf_outcome [path, leaf .string, leaf .integer] ?_ (leaf_outcome_cons _ _),
        rfl⟩
      rw [List.forall_mem_cons, List.forall_mem_cons, List.forall_mem_singleton]
      exact ⟨path_fails_of_ne (show Kind.boolean ≠ .ident by decide),
        leaf_fails (show Kind.boolean ≠ .string by decide),
        leaf_fails (show Kind.boolean ≠ .integer by decide)⟩
  obtain ⟨r, hr, htree⟩ := hfirst
  apply ensures_eq_iff.mp
  rw [param, ensures_checkpoint, ensures_bind, ensures_of_eq hr, htree]
  exact ensures_pure.mpr ⟨rfl, rfl, rfl⟩

/-- Where no path can be read and nothing else that a parameter starts with
stands, there is an empty error in place of a parameter. -/
theorem param_outcome_of_fails (hpath : Fails path R ks) (hstring : ks.headD .endOfInput ≠ .string)
    (hinteger : ks.headD .endOfInput ≠ .integer) (hboolean : ks.headD .endOfInput ≠ .boolean) :
    param.outcome R ks = ⟨false, ks, [.node (.failure (Problem.expected .param).message) []]⟩ := by
  have hnone : (firstOf [path, leaf .string, leaf .integer, leaf .boolean]).outcome R ks =
      ⟨false, ks, []⟩ :=
    firstOf_outcome_of_fails (by
      simpa using ⟨hpath, leaf_fails hstring, leaf_fails hinteger, leaf_fails hboolean⟩)
  apply ensures_eq_iff.mp
  rw [param, ensures_checkpoint, ensures_bind, ensures_of_eq hnone]
  exact ensures_pure.mpr ⟨rfl, rfl, rfl⟩

theorem param_outcome_of_startsParam (h : startsParam (ks.headD .endOfInput) = false) :
    param.outcome R ks = ⟨false, ks, [.node (.failure (Problem.expected .param).message) []]⟩ := by
  simp only [startsParam, Bool.or_eq_false_iff, decide_eq_false_iff_not] at h
  obtain ⟨⟨⟨hident, hstring⟩, hinteger⟩, hboolean⟩ := h
  exact param_outcome_of_fails (path_fails_of_ne hident) hstring hinteger hboolean

theorem hashPair_outcome (p : Derivation.Pair) (h : EndsPath rest) :
    hashPair.outcome R (p.yield ++ rest) = ⟨true, rest, [p.tree]⟩ := by
  have hyield : p.yield ++ rest = .ident :: .equals :: (p.value.yield ++ rest) := rfl
  apply ensures_eq_iff.mp
  rw [hyield, hashPair, ensures_checkpoint, ensures_bind, ensures_of_eq (leaf_outcome_cons _ _)]
  rw [ensures_unless_true, ensures_bind, ensures_of_eq (leaf_outcome_cons _ _)]
  rw [ensures_unless_true, ensures_bind, ensures_of_eq (param_outcome p.value h)]
  exact ensures_pure.mpr ⟨rfl, rfl, rfl⟩

/-- Without a key there is no pair. -/
theorem hashPair_fails (h : isKeyAhead (.ofList R ks) = false) : Fails hashPair R ks := by
  rw [Fails, hashPair, ensures_checkpoint, ensures_bind]
  rcases leaf_cases (R := R) .ident (by decide) ks with ⟨rest, rfl, hkey⟩ | ⟨-, hkey⟩
  · have hequals : rest.headD .endOfInput ≠ .equals := by
      intro he
      cases rest with
      | nil => cases he
      | cons k rest =>
        obtain rfl : k = .equals := he
        cases h
    rw [ensures_of_eq hkey]
    rw [ensures_unless_true, ensures_bind, ensures_of_eq (leaf_outcome_ne hequals)]
    exact ensures_pure.mpr rfl
  · rw [ensures_of_eq hkey]
    exact ensures_pure.mpr rfl

/-- Whether looking for a hash takes a token of this kind: an identifier, or in its
place a token that cannot be read. -/
def startsHash (kind : Kind) : Bool := kind = .ident || kind = .invalid

/-- Looking for a pair takes nothing where no hash can start. -/
theorem hashPair_stays (h : startsHash (ks.headD .endOfInput) = false) :
    hashPair.Ensures R ks fun found rest _ => found = false ∧ rest = ks := by
  simp only [startsHash, Bool.or_eq_false_iff, decide_eq_false_iff_not] at h
  have hreadable : readable ks = ks := by
    cases ks with
    | nil => rfl
    | cons k ks => exact List.dropWhile_cons_of_neg (by simpa using h.2)
  rw [hashPair, ensures_checkpoint, ensures_bind, ensures_of_eq (leaf_outcome_ne h.1), hreadable]
  exact ensures_pure.mpr ⟨rfl, rfl⟩

/-- A pair in front of more of an expression is recognized by looking ahead. -/
theorem isPairAhead_pair (p : Derivation.Pair) (h : EndsPath rest) :
    isPairAhead (.ofList R (p.yield ++ rest)) = true := by
  obtain ⟨k, ks, hvalue, hstarts, hkey⟩ := exists_param_yield_eq p.value h
  have hyield : p.yield ++ rest = .ident :: .equals :: k :: ks :=
    congrArg (fun w => Kind.ident :: .equals :: w) hvalue
  let v := View.ofList R (.ident :: .equals :: k :: ks)
  have hsecond : pairRun v 2 (ks.length + 2) = 0 := by
    have hahead : v.ahead 3 = ks.headD .endOfInput := by
      cases ks <;> rfl
    rw [pairRun, hahead, decide_eq_false hkey, Bool.and_false, if_neg Bool.false_ne_true]
  have hrun : pairRun v 0 v.left = 1 := by
    show pairRun v 0 (ks.length + 3) = 1
    rw [pairRun, hsecond]
    rfl
  have hahead : isPairAhead v = (startsParam k == true) := by
    simp only [isPairAhead, hrun]
    rfl
  rw [hyield, hahead, hstarts]
  rfl

theorem endsPath_params (params : List Derivation.Param) (h : EndsPath rest) :
    EndsPath (params.flatMap Derivation.Param.yield ++ rest) := by
  cases params with
  | nil => exact h
  | cons p params => cases p <;> exact endsPath_cons (by decide) (by decide)

theorem endsPath_pairs (pairs : List Derivation.Pair) (h : EndsPath rest) :
    EndsPath (pairs.flatMap Derivation.Pair.yield ++ rest) := by
  cases pairs with
  | nil => exact h
  | cons p pairs => exact endsPath_cons (by decide) (by decide)

theorem hashPairs_outcome_of_stays (h : startsHash (rest.headD .endOfInput) = false)
    (bound : Nat) : (hashPairs bound).outcome R rest = ⟨true, rest, []⟩ := by
  apply ensures_eq_iff.mp
  cases bound with
  | zero => exact ensures_pure.mpr ⟨rfl, rfl, rfl⟩
  | succ bound =>
    rw [hashPairs, ensures_bind, ensures_checkpoint, ensures_bind, ensures_tracked]
    apply (hashPair_stays h).mono
    rintro _ _ _ ⟨rfl, rfl⟩
    simp [Closing.wrap]

/-- Pairs are read one after the other, and the hash goes on behind them. -/
theorem hashPairs_outcome_append (pairs : List Derivation.Pair) (h : EndsPath rest)
    (bound : Nat) :
    (hashPairs (pairs.length + bound)).outcome R (pairs.flatMap Derivation.Pair.yield ++ rest) =
      ⟨((hashPairs bound).outcome R rest).result, ((hashPairs bound).outcome R rest).rest,
        pairs.map Derivation.Pair.tree ++ ((hashPairs bound).outcome R rest).forest⟩ := by
  induction pairs with
  | nil =>
    rw [List.length_nil, Nat.zero_add]
    rfl
  | cons p pairs ih =>
    have hpair := hashPair_outcome (R := R) p (endsPath_pairs pairs h)
    apply ensures_eq_iff.mp
    rw [List.flatMap_cons, List.append_assoc, List.length_cons, Nat.succ_add, hashPairs,
      ensures_bind, ensures_checkpoint, ensures_bind, ensures_tracked, ensures_of_eq hpair]
    simp only [Bool.true_or, if_true, ensures_pure, reduceCtorEq, if_false, Closing.wrap,
      List.append_nil, ensures_of_eq ih]
    exact ⟨trivial, trivial, rfl⟩

section

variable {tail : List Kind} {found : Bool} {f : List (Rose Kind)}

/-- A hash starts with its pairs and ends as what comes behind them tells. -/
theorem hash_outcome (p : Derivation.Pair) (pairs : List Derivation.Pair) (h : EndsPath tail)
    (htail : ∀ bound, tail.length ≤ bound → (hashPairs bound).outcome R tail = ⟨found, rest, f⟩) :
    hash.outcome R ((p :: pairs).flatMap Derivation.Pair.yield ++ tail) =
      ⟨found, rest, [.node (.plain .hash) ((p :: pairs).map Derivation.Pair.tree ++ f)]⟩ := by
  have hpair := hashPair_outcome (R := R) p (endsPath_pairs pairs h)
  have hlength : pairs.length + tail.length ≤
      (pairs.flatMap Derivation.Pair.yield ++ tail).length := by
    have hpairs := length_le_length_flatMap (y := Derivation.Pair.yield)
      (fun _ => List.cons_ne_nil _ _) pairs []
    rw [List.append_nil] at hpairs
    rw [List.length_append]
    omega
  obtain ⟨bound, hbound⟩ := Nat.exists_eq_add_of_le hlength
  have hothers := hashPairs_outcome_append (R := R) pairs h (tail.length + bound)
  rw [← Nat.add_assoc, ← hbound, htail _ (Nat.le_add_right _ _)] at hothers
  apply ensures_eq_iff.mp
  rw [List.flatMap_cons, List.append_assoc, hash, ensures_checkpoint, ensures_bind,
    ensures_tracked, ensures_of_eq hpair]
  simp only [if_true, ensures_bind, ensures_left]
  rw [ensures_of_eq hothers]
  exact ensures_pure.mpr ⟨rfl, rfl, by simp [Closing.wrap]⟩

/-- Parameters start with those that are there and end as what comes behind them tells. -/
theorem params_outcome (p : Derivation.Param) (ps : List Derivation.Param) (h : EndsPath tail)
    (htail : ∀ bound, tail.length ≤ bound →
      (repeatUpTo param bound).outcome R tail = ⟨(), rest, f⟩) :
    params.outcome R ((p :: ps).flatMap Derivation.Param.yield ++ tail) =
      ⟨true, rest, [.node (.plain .params) ((p :: ps).map Derivation.Param.tree ++ f)]⟩ := by
  have hfirst := param_outcome (R := R) p (endsPath_params ps h)
  have hlength : ps.length + tail.length ≤
      (ps.flatMap Derivation.Param.yield ++ tail).length := by
    have hparams := length_le_length_flatMap (y := Derivation.Param.yield)
      (fun p => by cases p <;> exact List.cons_ne_nil _ _) ps []
    rw [List.append_nil] at hparams
    rw [List.length_append]
    omega
  obtain ⟨bound, hbound⟩ := Nat.exists_eq_add_of_le hlength
  have hothers := repeatUpTo_outcome_append (R := R) (t := fun p => [Derivation.Param.tree p])
    (fun p (_ : p ∈ ps) more => param_outcome p (endsPath_params more h)) (tail.length + bound)
  rw [← Nat.add_assoc, ← hbound, htail _ (Nat.le_add_right _ _)] at hothers
  apply ensures_eq_iff.mp
  rw [List.flatMap_cons, List.append_assoc, params, ensures_checkpoint, ensures_bind,
    ensures_of_eq hfirst]
  rw [ensures_unless_true, ensures_bind, many, ensures_bind, ensures_left, ensures_of_eq hothers]
  exact ensures_pure.mpr ⟨rfl, rfl, by simp [Closing.wrap, List.map_eq_flatMap]⟩

end

theorem hash_fails (h : isKeyAhead (.ofList R ks) = false) : Fails hash R ks := by
  rw [Fails, hash, ensures_checkpoint, ensures_bind, ensures_tracked]
  apply (hashPair_fails h).mono
  intro _ rest _ hfound
  subst hfound
  by_cases hmoved : rest.length < ks.length <;> simp [hmoved]

theorem hash_stays (h : startsHash (ks.headD .endOfInput) = false) :
    hash.Ensures R ks fun found rest _ => found = false ∧ rest = ks := by
  rw [hash, ensures_checkpoint, ensures_bind, ensures_tracked]
  apply (hashPair_stays h).mono
  intro _ _ _ hstays
  obtain ⟨rfl, rfl⟩ := hstays
  simp [Problem.closing]

/-- Looking for a pair takes something where a hash can start. -/
theorem hashPair_moves (h : startsHash (ks.headD .endOfInput) = true) :
    hashPair.Ensures R ks fun _ rest _ => rest.length < ks.length := by
  rw [hashPair, ensures_checkpoint, ensures_bind]
  rcases leaf_cases (R := R) .ident (by decide) ks with ⟨rest, rfl, hleaf⟩ | ⟨hne, hleaf⟩
  · rw [ensures_of_eq hleaf, ensures_unless_true, ensures_bind]
    apply (ensures_length_rest_le (leaf .equals)).mono
    rintro (_ | _) rest' _ hle
    · simp [Problem.closing]
      omega
    · rw [ensures_unless_true, ensures_bind]
      apply (ensures_length_rest_le param).mono
      rintro (_ | _) rest'' _ hle'
      · simp [Problem.closing]
        omega
      · simp
        omega
  · rw [startsHash, decide_eq_false hne, Bool.false_or, decide_eq_true_eq] at h
    obtain ⟨ks, rfl⟩ := exists_eq_cons_of_headD h (by decide)
    have hlt : (readable ks).length < ks.length + 1 :=
      Nat.lt_succ_of_le (List.dropWhile_suffix _).length_le
    have hreadable : readable (.invalid :: ks) = readable ks := rfl
    rw [ensures_of_eq hleaf, hreadable]
    simpa [Problem.closing] using hlt

/-- A hash that has taken something is a hash, complete or not. -/
theorem hash_moves (h : startsHash (ks.headD .endOfInput) = true) :
    hash.Ensures R ks fun _ rest f =>
      rest.length < ks.length ∧ ∃ pairs, f = [.node (.plain .hash) pairs] := by
  rw [hash, ensures_checkpoint, ensures_bind, ensures_tracked]
  apply (hashPair_moves h).mono
  intro found rest f hlt
  cases found with
  | true =>
    simp only [if_true, ensures_bind, ensures_left]
    apply (ensures_length_rest_le (hashPairs rest.length)).mono
    intro _ rest' f' hle
    rw [ensures_pure]
    exact ⟨Nat.lt_of_le_of_lt hle hlt, _, rfl⟩
  | false =>
    rw [decide_eq_true hlt]
    exact ensures_pure.mpr ⟨hlt, _, rfl⟩

theorem startsHash_of_isKeyAhead (h : isKeyAhead (.ofList R ks) = true) :
    startsHash (ks.headD .endOfInput) = true := by
  rw [isKeyAhead, ahead_zero, Bool.and_eq_true] at h
  rw [startsHash, h.1, Bool.true_or]

/-- A hash that starts with a key is kept, complete or not. -/
theorem leadingHash_outcome_of_key (h : isKeyAhead (.ofList R ks) = true) :
    leadingHash.outcome R ks =
      ⟨true, (hash.outcome R ks).rest, (hash.outcome R ks).forest⟩ := by
  have hmoves := (ensures_iff.mp (@hash_moves R ks (startsHash_of_isKeyAhead h))).1
  apply ensures_eq_iff.mp
  rw [leadingHash, ensures_bind, ensures_view, ensures_checkpoint, ensures_bind, ensures_tracked,
    ensures_iff]
  simp [h, hmoves, Closing.wrap]

/-- Behind parameters a hash is kept where it can start. -/
theorem trailingHash_outcome_of_startsHash (h : startsHash (ks.headD .endOfInput) = true) :
    trailingHash.outcome R ks = ⟨(), (hash.outcome R ks).rest, (hash.outcome R ks).forest⟩ := by
  have hmoves := (ensures_iff.mp (@hash_moves R ks h)).1
  apply ensures_eq_iff.mp
  rw [trailingHash, ensures_checkpoint, ensures_bind, ensures_tracked, ensures_iff]
  simp [hmoves, Closing.wrap]

theorem trailingHash_outcome_of_stays (h : startsHash (ks.headD .endOfInput) = false) :
    trailingHash.outcome R ks = ⟨(), ks, []⟩ := by
  apply ensures_eq_iff.mp
  rw [trailingHash, ensures_checkpoint, ensures_bind, ensures_tracked]
  apply (hash_stays h).mono
  rintro _ _ _ ⟨rfl, rfl⟩
  simp [Closing.wrap]

/-- Where complete pairs come first there is no parameter. -/
theorem param_fails_pairs (p : Derivation.Pair) (pairs : List Derivation.Pair)
    (h : EndsPath rest) :
    Fails param R ((p :: pairs).flatMap Derivation.Pair.yield ++ rest) := by
  have hpair := isPairAhead_pair (R := R) p (endsPath_pairs pairs h)
  rw [List.flatMap_cons, List.append_assoc]
  exact fails_of_outcome (param_outcome_of_fails (path_fails_of_isPairAhead hpair)
    (show Kind.ident ≠ .string by decide) (show Kind.ident ≠ .integer by decide)
    (show Kind.ident ≠ .boolean by decide))

theorem params_fails (h : Fails param R ks) : Fails params R ks := by
  rw [Fails, params, ensures_checkpoint, ensures_bind]
  apply h.mono
  intro _ _ _ hfound
  subst hfound
  exact ensures_pure.mpr rfl

/-- Where no key comes first there is no hash in the place of the parameters. -/
theorem leadingHash_outcome_of_isKeyAhead (h : isKeyAhead (.ofList R ks) = false) :
    leadingHash.outcome R ks = ⟨false, ks, []⟩ := by
  apply ensures_eq_iff.mp
  rw [leadingHash, ensures_bind, ensures_view, ensures_checkpoint, ensures_bind, ensures_tracked]
  apply (hash_fails h).mono
  intro _ _ _ hfound
  subst hfound
  simp [h, Closing.wrap]

theorem arguments_outcome_of_fails (h : Fails param R ks) :
    arguments.outcome R ks = ⟨(), ks, []⟩ := by
  apply ensures_eq_iff.mp
  rw [arguments, ensures_checkpoint, ensures_bind]
  apply (params_fails h).mono
  intro _ _ _ hfound
  subst hfound
  exact ensures_pure.mpr ⟨rfl, rfl, rfl⟩

/-- Parameters do not start with a key. -/
theorem isKeyAhead_params (p : Derivation.Param) (ps : List Derivation.Param)
    (h : EndsPath rest) :
    isKeyAhead (.ofList R ((p :: ps).flatMap Derivation.Param.yield ++ rest)) = false := by
  obtain ⟨k, ks, hyield, -, hkey⟩ := exists_param_yield_eq p (endsPath_params ps h)
  rw [List.flatMap_cons, List.append_assoc, hyield]
  exact isKeyAhead_cons hkey

section

variable {middle : List Kind} {f g : List (Rose Kind)}

theorem arguments_outcome (hparams : params.outcome R ks = ⟨true, middle, f⟩)
    (htrailing : trailingHash.outcome R middle = ⟨(), rest, g⟩) :
    arguments.outcome R ks = ⟨(), rest, f ++ g⟩ := by
  apply ensures_eq_iff.mp
  rw [arguments, ensures_checkpoint, ensures_bind, ensures_of_eq hparams]
  rw [ensures_unless_true, ensures_bind, ensures_of_eq htrailing]
  exact ensures_pure.mpr ⟨rfl, rfl, by simp [Closing.wrap]⟩

/-- Without a key behind its path an expression goes on with parameters. -/
theorem expression_outcome_of_arguments (hpath : path.outcome R ks = ⟨true, middle, f⟩)
    (hkey : isKeyAhead (.ofList R middle) = false)
    (harguments : arguments.outcome R middle = ⟨(), rest, g⟩) :
    expression.outcome R ks = ⟨true, rest, [.node (.plain .expression) (f ++ g)]⟩ := by
  apply ensures_eq_iff.mp
  rw [expression, ensures_checkpoint, ensures_bind, ensures_of_eq hpath]
  rw [ensures_unless_true, ensures_bind, ensures_of_eq (leadingHash_outcome_of_isKeyAhead hkey)]
  rw [ensures_unless_false, ensures_bind, ensures_of_eq harguments]
  exact ensures_pure.mpr ⟨rfl, rfl, by simp [Closing.wrap]⟩

theorem expression_outcome_of_hash (hpath : path.outcome R ks = ⟨true, middle, f⟩)
    (hleading : leadingHash.outcome R middle = ⟨true, rest, g⟩) :
    expression.outcome R ks = ⟨true, rest, [.node (.plain .expression) (f ++ g)]⟩ := by
  apply ensures_eq_iff.mp
  rw [expression, ensures_checkpoint, ensures_bind, ensures_of_eq hpath]
  rw [ensures_unless_true, ensures_bind, ensures_of_eq hleading]
  exact ensures_pure.mpr ⟨rfl, rfl, by simp [Closing.wrap]⟩

end

/-- Up to the end of a tag all pairs are complete. -/
theorem hash_outcome_close (p : Derivation.Pair) (pairs : List Derivation.Pair) :
    hash.outcome R ((p :: pairs).flatMap Derivation.Pair.yield ++ .close :: rest) =
      ⟨true, .close :: rest, [.node (.plain .hash) ((p :: pairs).map Derivation.Pair.tree)]⟩ := by
  have htail : ∀ bound, (hashPairs bound).outcome R (.close :: rest) = ⟨true, .close :: rest, []⟩ :=
    hashPairs_outcome_of_stays rfl
  have hhash := hash_outcome p pairs (endsPath_close rest) fun bound _ => htail bound
  rwa [List.append_nil] at hhash

/-- What comes behind the first path of an expression is read as the hash or as
the parameters, depending on which of them comes first. -/
theorem expression_outcome (e : Derivation.Expression) :
    expression.outcome R (e.yield ++ .close :: rest) = ⟨true, .close :: rest, [e.tree]⟩ := by
  obtain ⟨p, ps, pairs⟩ := e
  let behind := pairs.flatMap Derivation.Pair.yield ++ .close :: rest
  have hbehind : EndsPath behind := endsPath_pairs pairs (endsPath_close rest)
  have hyield : Derivation.Expression.yield ⟨p, ps, pairs⟩ ++ .close :: rest =
      p.yield ++ (ps.flatMap Derivation.Param.yield ++ behind) := by
    simp [Derivation.Expression.yield, behind]
  have hpath := path_outcome (R := R) p (endsPath_params ps hbehind)
  have hfails : Fails param R behind := by
    cases pairs with
    | nil => exact fails_of_outcome (param_outcome_of_startsParam rfl)
    | cons pair pairs => exact param_fails_pairs pair pairs (endsPath_close rest)
  have htrailing : trailingHash.outcome R behind =
      ⟨(), .close :: rest, Derivation.wrapSome .hash (pairs.map Derivation.Pair.tree)⟩ := by
    cases pairs with
    | nil => exact trailingHash_outcome_of_stays rfl
    | cons pair pairs =>
      rw [trailingHash_outcome_of_startsHash rfl, hash_outcome_close]
      rfl
  rw [hyield]
  cases ps with
  | cons param params =>
    have hparams := params_outcome (R := R) param params hbehind
      fun bound _ => repeatUpTo_outcome_of_fails hfails bound
    rw [List.append_nil] at hparams
    exact expression_outcome_of_arguments hpath (isKeyAhead_params param params hbehind)
      (arguments_outcome hparams htrailing)
  | nil =>
    cases pairs with
    | nil =>
      have hclose : Kind.close ≠ .ident := by decide
      exact expression_outcome_of_arguments hpath (isKeyAhead_of_ne hclose)
        (arguments_outcome_of_fails hfails)
    | cons pair pairs =>
      have hleading := @leadingHash_outcome_of_key R behind rfl
      rw [hash_outcome_close] at hleading
      exact expression_outcome_of_hash hpath hleading

end Grammar

end TemplateTree
