import Mathlib.Data.Nat.Find
import TemplateTree.Proofs.Grammar.Search

/-!
# How far a path goes

A path starts with an identifier that is no key. It goes on for as long as a separator comes
next with an identifier behind it that is no key either. What is behind the last identifier
decides whether the path is whole: a separator with a complete pair behind it is given back,
and one with anything else behind it is kept, with an error in the place of the identifier that
is missing. A separator is never taken without being decided upon, and the path is the longest
one that there is.
-/

namespace TemplateTree

open Rose

/-- A path goes on at this place, with a separator and an identifier that starts no pair. -/
def TokenStream.ContinuesPath (s : TokenStream) (i : Nat) : Prop :=
  s.kindAt i = .separator ∧ s.kindAt (i + 1) = .ident ∧ s.startsPair (i + 1) = false

namespace Grammar

open Script

variable {R : KindSet} {stream : TokenStream} {i : Nat}

/-- The trees of the separators and identifiers by which a path goes on. -/
def stepTrees (n : Nat) : List (Rose Kind) :=
  (List.replicate n [Derivation.leaf .separator, Derivation.leaf .ident]).flatten

/-- A path that ends with a separator, and with an error over unreadable tokens. -/
def brokenPath (n : Nat) (unreadable : List Kind) : Rose Kind :=
  .node (.plain .path) (Derivation.leaf .ident :: (stepTrees n
    ++ [Derivation.leaf .separator, errorOver .ident unreadable]))

/-- A separator is kept if no pair comes behind it, and the identifier is looked for. -/
theorem pathStep_outcome_of_leaf {found : Bool} {rest : List Kind} {f : List (Rose Kind)}
    (h : stream.kindAt i = .separator) (hpair : stream.startsPair (i + 1) = false)
    (hleaf : (leaf .ident).outcome R (stream.kinds.drop (i + 1)) = ⟨found, rest, f⟩) :
    pathStep.outcome R (stream.kinds.drop i) =
      ⟨found, rest, Derivation.leaf .separator :: f⟩ := by
  apply ensures_eq_iff.mp
  rw [TokenStream.drop_kinds_of_kindAt h (by decide), pathStep, ensures_checkpoint, ensures_bind,
    ensures_of_eq (leaf_outcome_cons _ _), ensures_unless_true, ensures_bind, ensures_view,
    stream.isPairAhead_drop_kinds, hpair, if_neg Bool.false_ne_true, ensures_bind,
    ensures_of_eq hleaf]
  exact ensures_pure.mpr ⟨rfl, rfl, by simp [Closing.wrap]⟩

/-- A step of the path takes two tokens. -/
theorem pathStep_outcome_of_continues (h : stream.ContinuesPath i) :
    pathStep.outcome R (stream.kinds.drop i) =
      ⟨true, stream.kinds.drop (i + 2), [Derivation.leaf .separator, Derivation.leaf .ident]⟩ := by
  obtain ⟨hseparator, hident, hpair⟩ := h
  refine pathStep_outcome_of_leaf hseparator hpair ?_
  rw [TokenStream.drop_kinds_of_kindAt hident (by decide), leaf_outcome_cons]

/-- A separator without an identifier behind it. -/
theorem pathStep_outcome_of_broken (h : stream.kindAt i = .separator)
    (hpair : stream.startsPair (i + 1) = false) (hident : stream.kindAt (i + 1) ≠ .ident) :
    pathStep.outcome R (stream.kinds.drop i) =
      ⟨false, readable (stream.kinds.drop (i + 1)), [Derivation.leaf .separator,
        errorOver .ident (unreadable (stream.kinds.drop (i + 1)))]⟩ := by
  refine pathStep_outcome_of_leaf h hpair (leaf_outcome_ne ?_)
  rwa [stream.headD_drop_kinds]

/-- Without a separator, or with a pair behind it, the path is at its end. -/
theorem pathStep_outcome_of_end
    (h : stream.kindAt i ≠ .separator ∨ stream.startsPair (i + 1) = true) :
    pathStep.outcome R (stream.kinds.drop i) = ⟨false, stream.kinds.drop i, []⟩ := by
  by_cases hseparator : stream.kindAt i = .separator
  · have hpair := h.resolve_left (not_not_intro hseparator)
    apply ensures_eq_iff.mp
    rw [pathStep, ensures_checkpoint, ensures_bind,
      TokenStream.drop_kinds_of_kindAt hseparator (by decide),
      ensures_of_eq (leaf_outcome_cons _ _), ensures_unless_true, ensures_bind, ensures_view,
      stream.isPairAhead_drop_kinds, hpair, if_pos rfl]
    exact ensures_pure.mpr ⟨rfl, rfl, rfl⟩
  · exact pathStep_outcome_of_ne (by rwa [stream.headD_drop_kinds])

/-- A step that does not take the path further ends it. -/
theorem pathStep_ends (h : ¬ stream.ContinuesPath i) :
    ((pathStep.outcome R (stream.kinds.drop i)).result) = false := by
  by_cases hend : stream.kindAt i ≠ .separator ∨ stream.startsPair (i + 1) = true
  · rw [pathStep_outcome_of_end hend]
  · rw [not_or, not_not, Bool.not_eq_true] at hend
    rw [pathStep_outcome_of_broken hend.1 hend.2 fun hident => h ⟨hend.1, hident, hend.2⟩]

/-- The steps of a path by induction on how many go on, with as many more allowed as there are
tokens left. What comes after them is the step that does not go on. -/
theorem pathSteps_outcome_of_continues (n bound : Nat)
    (hbound : (stream.kinds.drop i).length ≤ bound)
    (hsteps : ∀ j < n, stream.ContinuesPath (i + 2 * j))
    (hend : ¬ stream.ContinuesPath (i + 2 * n)) :
    (pathSteps bound).Ensures R (stream.kinds.drop i) fun _ rest f =>
      ∃ g, pathStep.outcome R (stream.kinds.drop (i + 2 * n)) = ⟨false, rest, g⟩ ∧
        f = stepTrees n ++ g := by
  induction n generalizing i bound with
  | zero =>
    cases bound with
    | zero =>
      have hnone : stream.kinds.drop i = [] := List.length_eq_zero_iff.mp (Nat.le_zero.mp hbound)
      rw [Nat.mul_zero, Nat.add_zero, hnone]
      exact ensures_pure.mpr ⟨[], pathStep_outcome_of_ne (by decide), rfl⟩
    | succ bound =>
      rw [Nat.mul_zero, Nat.add_zero] at hend ⊢
      have hstep : pathStep.outcome R (stream.kinds.drop i) = ⟨false, _, _⟩ :=
        ensures_eq_iff.mp (ensures_iff.mpr ⟨pathStep_ends hend, rfl, rfl⟩)
      rw [pathSteps, ensures_bind, ensures_of_eq hstep]
      exact ensures_pure.mpr ⟨_, hstep, by simp [stepTrees]⟩
  | succ n ih =>
    have hfirst : stream.ContinuesPath i := hsteps 0 (Nat.succ_pos n)
    have hlater : ∀ j, i + 2 + 2 * j = i + 2 * (j + 1) := by
      intro j
      omega
    cases bound with
    | zero =>
      rw [TokenStream.drop_kinds_of_kindAt hfirst.1 (by decide)] at hbound
      cases hbound
    | succ bound =>
      rw [pathSteps, ensures_bind, ensures_of_eq (pathStep_outcome_of_continues hfirst)]
      rw [List.length_drop] at hbound
      apply (ih bound (by rw [List.length_drop]; omega)
        (fun j hj => hlater j ▸ hsteps (j + 1) (Nat.succ_lt_succ hj)) (hlater n ▸ hend)).mono
      intro _ rest f hf
      obtain ⟨g, hg, rfl⟩ := hf
      rw [hlater] at hg
      exact ⟨g, hg, by simp [stepTrees, List.replicate_succ]⟩

/-- A path that starts is a node around its first identifier and its steps. -/
theorem path_outcome_of_continues {n : Nat} (hident : stream.kindAt i = .ident)
    (hpair : stream.startsPair i = false)
    (hsteps : ∀ j < n, stream.ContinuesPath (i + 1 + 2 * j))
    (hend : ¬ stream.ContinuesPath (i + 1 + 2 * n)) {rest : List Kind} {f : List (Rose Kind)}
    (hlast : pathStep.outcome R (stream.kinds.drop (i + 1 + 2 * n)) = ⟨false, rest, f⟩) :
    path.outcome R (stream.kinds.drop i) =
      ⟨true, rest, [.node (.plain .path) (Derivation.leaf .ident :: (stepTrees n ++ f))]⟩ := by
  apply ensures_eq_iff.mp
  rw [path, ensures_bind, ensures_view, stream.isPairAhead_drop_kinds, hpair,
    if_neg Bool.false_ne_true, ensures_checkpoint, ensures_bind,
    TokenStream.drop_kinds_of_kindAt hident (by decide), ensures_of_eq (leaf_outcome_cons _ _),
    ensures_unless_true, ensures_bind, ensures_left, ensures_bind]
  apply (pathSteps_outcome_of_continues n _ (Nat.le_refl _) hsteps hend).mono
  intro _ rest' f' h
  obtain ⟨g, hg, rfl⟩ := h
  rw [hlast] at hg
  cases hg
  exact ensures_pure.mpr ⟨rfl, rfl, by simp [Closing.wrap]⟩

/-- There is a longest way on. -/
theorem exists_isGreatest_continues (stream : TokenStream) (i : Nat) :
    ∃ n, IsGreatest {n | ∀ j < n, stream.ContinuesPath (i + 2 * j)} n := by
  classical
  have hstops : ∃ n, ¬ stream.ContinuesPath (i + 2 * n) := by
    refine ⟨stream.size, fun h => ?_⟩
    have hlt := TokenStream.lt_size_of_kindAt (h.1.trans_ne (by decide))
    omega
  refine ⟨Nat.find hstops, fun j hj => not_not.mp (Nat.find_min hstops hj), fun n hn => ?_⟩
  by_contra hlt
  exact Nat.find_spec hstops (hn _ (Nat.lt_of_not_le hlt))

/-- The longest way on ends where the path does not go on. -/
theorem not_continuesPath_of_isGreatest {n : Nat}
    (h : IsGreatest {n | ∀ j < n, stream.ContinuesPath (i + 2 * j)} n) :
    ¬ stream.ContinuesPath (i + 2 * n) := by
  intro hcontinues
  refine Nat.not_succ_le_self n (h.2 fun j hj => ?_)
  obtain hj | rfl := Nat.lt_succ_iff_lt_or_eq.mp hj
  · exact h.1 j hj
  · exact hcontinues

theorem length_leavesAll_stepTrees (n : Nat) : (leavesAll (stepTrees n)).length = 2 * n := by
  induction n with
  | zero => rfl
  | succ n ih =>
    rw [stepTrees, List.replicate_succ, List.flatten_cons, leavesAll_append, List.length_append]
    change 2 + (leavesAll (stepTrees n)).length = _
    omega

/-- How many tokens a path takes whose steps have these trees behind them. -/
theorem length_leavesAll_path (n : Nat) (f : List (Rose Kind)) :
    (leavesAll [.node (.plain .path) (Derivation.leaf .ident :: (stepTrees n ++ f))]).length =
      1 + 2 * n + (leavesAll f).length := by
  rw [leavesAll, leaves, leavesAll, List.append_nil, leavesAll, leavesAll_append,
    List.length_append, List.length_append, length_leavesAll_stepTrees, Nat.add_assoc]
  rfl

theorem errorFree_stepTrees (n : Nat) : ErrorFree (stepTrees n) := by
  obtain ⟨-, hinside, -⟩ := errorFree_node.mp (Derivation.errorFree_path ⟨n⟩)
  exact ((errorFree_append (f := [Derivation.leaf .ident])).mp hinside).2

/-- The only error in a path that ends with a separator stands behind that. -/
theorem errors_brokenPath (n : Nat) (ks : List Kind) :
    (labels (brokenPath n ks)).filter (fun l => l.kind = .error) =
      [.failure "expected an ID"] := by
  have hsteps : (labelsAll (stepTrees n)).filter (fun l => l.kind = .error) = [] :=
    List.filter_eq_nil_iff.mpr fun l hl => by simpa using errorFree_stepTrees n l hl
  have hrest : (labelsAll [Derivation.leaf .separator, errorOver .ident ks]).filter
      (fun l => l.kind = .error) = [.failure "expected an ID"] := by
    rw [labelsAll, labelsAll, errorOver, labels, labelsAll_map_token]
    rfl
  show List.filter _ (.plain .path :: .plain .ident :: labelsAll (stepTrees n ++ _)) = _
  rw [List.filter_cons_of_neg (by decide), List.filter_cons_of_neg (by decide), labelsAll_append,
    List.filter_append, hsteps, hrest, List.nil_append]

end Grammar

/-- The cursor has passed over the tokens of what is recorded. -/
theorem Script.Records.cursor_eq {α : Type} {p : Script α} {s : Session} {a : α}
    {f : List (Rose Kind)} (h : p.Records s a f) :
    (p.run s).2.cursor = s.cursor + (leavesAll f).length := by
  obtain ⟨entries, hrun, -⟩ := h.run
  rw [hrun]
  rfl

namespace Grammar

open Script

theorem isPairAhead_view (s : Session) : isPairAhead s.view = s.stream.startsPair s.cursor := by
  rw [s.view_eq_ofList]
  exact s.stream.isPairAhead_drop_kinds s.recovery s.cursor

/-- A path without its first identifier leaves an error over an error over the unreadable
tokens at the cursor. -/
theorem path_records_of_ne {s : Session} (h : s.current ≠ .ident) :
    path.Records s false
      [.node (.failure "expected an ID") [errorOver .ident (unreadable s.rest)]] := by
  have hhead : s.rest.headD .endOfInput ≠ .ident := by
    rw [Session.rest, s.stream.headD_drop_kinds]
    exact h
  have hpair : isPairAhead (.ofList s.recovery s.rest) = false :=
    isPairAhead_of_isKeyAhead (isKeyAhead_of_ne hhead)
  have houtcome : path.outcome s.recovery s.rest = ⟨false, readable s.rest,
      [.node (.failure "expected an ID") [errorOver .ident (unreadable s.rest)]]⟩ := by
    apply ensures_eq_iff.mp
    rw [path, ensures_bind, ensures_view, hpair, if_neg Bool.false_ne_true, ensures_checkpoint,
      ensures_bind, ensures_of_eq (leaf_outcome_ne hhead)]
    exact ensures_pure.mpr ⟨rfl, rfl, rfl⟩
  exact records_of_outcome_eq houtcome

theorem path_run_of_isPairAhead {s : Session} (h : isPairAhead s.view = true) :
    path.run s = (false, s) := by
  rw [s.view_eq_ofList] at h
  apply run_eq_self
  apply ensures_eq_iff.mp
  rw [path, ensures_bind, ensures_view, if_pos h]
  exact ensures_pure.mpr ⟨rfl, rfl, rfl⟩

/-- What a path takes. It succeeds exactly if an identifier is at the cursor and no complete pair
is. Where a pair is it does nothing, and where there is no identifier it passes over the
unreadable tokens at the cursor. Where it succeeds it goes on as long as it can, each time with
a separator and an identifier that starts no pair. If no separator comes next, or one with a
complete pair behind it, the path ends there and is free of errors. If not, the separator and
the unreadable tokens behind it belong to the path, and there is one error in it, for the
identifier that is missing. -/
theorem path_takes (s : Session) :
    ((path.run s).1 = true ↔ s.current = .ident ∧ isPairAhead s.view = false) ∧
    (isPairAhead s.view = true → path.run s = (false, s)) ∧
    (s.current ≠ .ident →
      path.Records s false
        [.node (.failure "expected an ID") [errorOver .ident (unreadable s.rest)]] ∧
      (path.run s).2.cursor = s.cursor + (unreadable s.rest).length) ∧
    ((path.run s).1 = true → ∃ n q,
      IsGreatest {n | ∀ j < n, s.stream.ContinuesPath (s.cursor + 1 + 2 * j)} n ∧
      q = s.cursor + 1 + 2 * n ∧
      (s.stream.kindAt q ≠ .separator ∨ s.stream.startsPair (q + 1) = true →
        path.Records s true [Derivation.Path.tree ⟨n⟩] ∧ (path.run s).2.cursor = q ∧
        ErrorFree [Derivation.Path.tree ⟨n⟩]) ∧
      (s.stream.kindAt q = .separator → s.stream.startsPair (q + 1) = false →
        let run := unreadable (s.stream.kinds.drop (q + 1))
        path.Records s true [brokenPath n run] ∧
        (path.run s).2.cursor = q + 1 + run.length ∧
        (labels (brokenPath n run)).filter (fun l => l.kind = .error) =
          [.failure "expected an ID"])) := by
  have hcurrent : s.rest.headD .endOfInput = s.current := s.stream.headD_drop_kinds s.cursor
  have hfound : (path.run s).1 = true ↔ s.current = .ident ∧ isPairAhead s.view = false := by
    rw [fst_run, ensures_iff.mp path_found, hcurrent, s.view_eq_ofList]
    simp
  refine ⟨hfound, path_run_of_isPairAhead, fun h => ?_, fun h => ?_⟩
  · have hrecords := path_records_of_ne h
    refine ⟨hrecords, ?_⟩
    rw [hrecords.cursor_eq]
    simp [leavesAll, leaves]
  · obtain ⟨hident, hpair⟩ := hfound.mp h
    rw [isPairAhead_view] at hpair
    obtain ⟨n, hn⟩ := exists_isGreatest_continues s.stream (s.cursor + 1)
    have hpath : ∀ {rest f}, pathStep.outcome s.recovery
        (s.stream.kinds.drop (s.cursor + 1 + 2 * n)) = ⟨false, rest, f⟩ →
          path.Records s true
            [.node (.plain .path) (Derivation.leaf .ident :: (stepTrees n ++ f))] :=
      fun hlast => records_of_outcome_eq (path_outcome_of_continues hident hpair hn.1
        (not_continuesPath_of_isGreatest hn) hlast)
    refine ⟨n, _, hn, rfl, fun hend => ?_, fun hseparator hnone => ?_⟩
    · have hrecords := hpath (pathStep_outcome_of_end hend)
      have hcursor := hrecords.cursor_eq
      rw [length_leavesAll_path, leavesAll, List.length_nil] at hcursor
      rw [List.append_nil] at hrecords
      exact ⟨hrecords, by omega, Derivation.errorFree_path ⟨n⟩⟩
    · have hbroken : s.stream.kindAt (s.cursor + 1 + 2 * n + 1) ≠ .ident := fun hid =>
        not_continuesPath_of_isGreatest hn ⟨hseparator, hid, hnone⟩
      have hrecords := hpath (pathStep_outcome_of_broken hseparator hnone hbroken)
      have hcursor := hrecords.cursor_eq
      rw [length_leavesAll_path, leavesAll, leavesAll, leavesAll, leaves_errorOver,
        Derivation.leaves_leaf, List.append_nil, List.length_append, List.length_singleton]
        at hcursor
      exact ⟨hrecords, by omega, errors_brokenPath n _⟩

/-- In `a/b/#` the second separator has an unreadable token behind it. -/
theorem path_takes_broken :
    let s : Session :=
      ⟨⟨"a/b/#", #[⟨.ident, 1⟩, ⟨.separator, 1⟩, ⟨.ident, 1⟩, ⟨.separator, 1⟩, ⟨.invalid, 1⟩],
        #[0, 1, 2, 3, 4], by decide⟩, .syncPoints, 0, #[.placeholder]⟩
    (path.run s).1 = true ∧ path.Records s true [brokenPath 1 [.invalid]] ∧
      (path.run s).2.cursor = 5 := by
  intro s
  have hpair : ∀ i, s.stream.startsPair i = isPairAhead (.ofList .empty (s.stream.kinds.drop i)) :=
    fun i => (s.stream.isPairAhead_drop_kinds .empty i).symm
  obtain ⟨hfound, -, -, htakes⟩ := path_takes s
  have hpath : (path.run s).1 = true := hfound.mpr ⟨by decide, by decide⟩
  obtain ⟨n, q, hn, hq, -, hbroken⟩ := htakes hpath
  have hone : IsGreatest {n | ∀ j < n, s.stream.ContinuesPath (s.cursor + 1 + 2 * j)} 1 := by
    constructor
    · intro j hj
      obtain rfl : j = 0 := Nat.lt_one_iff.mp hj
      exact ⟨by decide, by decide, by rw [hpair]; decide⟩
    · intro m hm
      by_contra hlt
      obtain ⟨-, hident, -⟩ := hm 1 (Nat.lt_of_not_le hlt)
      revert hident
      decide
  obtain rfl := hn.unique hone
  subst hq
  obtain ⟨hrecords, hcursor, -⟩ := hbroken (by decide) (by rw [hpair]; decide)
  exact ⟨hpath, hrecords, hcursor⟩

end Grammar

end TemplateTree
