import TemplateTree.Proofs.Grammar.StatementReading
import TemplateTree.Proofs.Grammar.TemplateShape

/-!
# Where programs stop

Whether a statement succeeds is seen from the kinds ahead: its first kind tells, and
for the opening delimiter of an inverse block the kind behind it. A statement that
does not succeed leaves no trace. So a program stops only where no statement starts,
whatever the tokens are.
-/

namespace TemplateTree

variable {R : KindSet} {ks : List Kind}

namespace Script

/-- What is repeated often enough stops where it fails. -/
theorem repeatUpTo_stops {rule : Script Bool} (h : ∀ ks, Grammar.Advances rule R ks) (bound : Nat)
    (ks : List Kind) (hle : ks.length ≤ bound) :
    (repeatUpTo rule bound).Ensures R ks fun _ rest _ => Fails rule R rest := by
  induction bound generalizing ks with
  | zero =>
    obtain rfl : ks = [] := List.length_eq_zero_iff.mp (Nat.le_zero.mp hle)
    rw [repeatUpTo, ensures_pure]
    apply Ensures.mono (h [])
    intro found rest _ hlt
    cases found with
    | false => rfl
    | true => exact absurd (hlt rfl) (Nat.not_lt_zero _)
  | succ bound ih =>
    have hfails : rule.Ensures R ks fun found _ _ => found = false → Fails rule R ks :=
      ensures_iff.mpr fun hfound => ensures_iff.mpr hfound
    rw [repeatUpTo, ensures_bind, ensures_attempt]
    apply (Ensures.and (h ks) hfails).mono
    rintro found rest _ ⟨hlt, hstop⟩
    cases found with
    | false => simpa using hstop rfl
    | true =>
      have hshort := hlt rfl
      simpa using ih rest (by omega)

theorem many_stops {rule : Script Bool} (h : ∀ ks, Grammar.Advances rule R ks) (ks : List Kind) :
    (many rule).Ensures R ks fun _ rest _ => Fails rule R rest := by
  rw [many, ensures_bind, ensures_left]
  exact repeatUpTo_stops h _ ks (Nat.le_refl _)

end Script

namespace Grammar

open Script

/-- Whether a statement starts here. An opening delimiter of an inverse block that is
closed at once belongs to an else tag. -/
def startsStatement : List Kind → Bool
  | .content :: _ | .comment :: _ | .openValue :: _ | .openRaw :: _ | .openPartial :: _
  | .openBlock :: _ => true
  | .openInverse :: ks => ks.headD .endOfInput ≠ .close
  | _ => false

/-- A tag succeeds where its opening delimiter is there. -/
theorem tag_found (opening node : Kind) (inside : Script Bool) (ks : List Kind) :
    (tag opening node inside).Ensures R (opening :: ks) fun found _ _ => found = true :=
  (tag_succeeds opening node inside ks).mono fun _ _ _ h => h.1

/-- A block succeeds where its opening tag does. -/
theorem block_found {opening : Script Bool} (malformed : Problem) (inner : Script Unit)
    (h : opening.Ensures R ks fun found _ _ => found = true) :
    (block opening malformed inner).Ensures R ks fun found _ _ => found = true := by
  rw [block, ensures_checkpoint, ensures_bind]
  apply h.mono
  rintro _ rest _ rfl
  rw [ensures_unless_true, ensures_bind]
  apply (ensures_length_rest_le inner).mono
  intro _ rest' _ _
  rw [ensures_bind]
  apply (ensures_length_rest_le endTag).mono
  intro _ _ _ _
  exact ensures_pure.mpr rfl

theorem mustache_found : mustache.Ensures R ks fun found _ _ => found = true := by
  have hrest : ∀ ks, (do
      let _ ← expression
      let _ ← greedyLeaf .close
      return (Closing.node .mustache, true)).Ensures R ks fun c _ _ => c.2 = true := by
    intro ks
    rw [ensures_bind]
    apply (ensures_length_rest_le expression).mono
    intro _ rest _ _
    rw [ensures_bind]
    apply (ensures_length_rest_le (greedyLeaf .close)).mono
    intro _ _ _ _
    exact ensures_pure.mpr rfl
  rw [mustache, ensures_checkpoint, ensures_bind, ensures_current]
  split
  · rw [ensures_bind]
    apply (ensures_length_rest_le (leaf _)).mono
    intro _ rest _ _
    exact hrest rest
  · rw [ensures_bind, ensures_complain]
    exact hrest ks

/-- A statement succeeds where one starts, and elsewhere it leaves no trace. -/
theorem statementOver_found (inner : Script Unit) (ks : List Kind) :
    (statementOver inner).Ensures R ks fun found rest f =>
      found = startsStatement ks ∧ (found = false → rest = ks ∧ f = []) := by
  have hno : ∀ ks, startsStatement ks = false →
      (return false : Script Bool).Ensures R ks fun found rest f =>
        found = startsStatement ks ∧ (found = false → rest = ks ∧ f = []) := by
    intro ks h
    rw [ensures_pure, h]
    exact ⟨rfl, fun _ => ⟨rfl, rfl⟩⟩
  have hyes : ∀ {rule : Script Bool} {ks : List Kind}, startsStatement ks = true →
      (rule.Ensures R ks fun found _ _ => found = true) →
        rule.Ensures R ks fun found rest f =>
          found = startsStatement ks ∧ (found = false → rest = ks ∧ f = []) := by
    intro rule ks h hrule
    rw [h]
    apply hrule.mono
    rintro _ _ _ rfl
    exact ⟨rfl, fun hfalse => by cases hfalse⟩
  rw [statementOver, ensures_bind, ensures_current]
  simp only [List.nil_append]
  cases ks with
  | nil => exact hno [] rfl
  | cons k ks =>
    rw [List.headD_cons]
    cases k with
    | openInverse =>
      rw [ensures_bind, ensures_lookahead]
      by_cases hclose : ks.headD .endOfInput = .close
      · obtain ⟨rest, rfl⟩ := exists_eq_cons_of_headD hclose (by decide)
        rw [ensures_of_eq elseTag_outcome]
        exact hno _ rfl
      · rw [ensures_of_eq (elseTag_outcome_of_ne_close hclose)]
        exact hyes (decide_eq_true hclose) (block_found _ inner (tag_found _ _ _ _))
    | openBlock => exact hyes rfl (block_found _ inner (tag_found _ _ _ _))
    | openValue => exact hyes rfl mustache_found
    | openRaw => exact hyes rfl mustache_found
    | openPartial => exact hyes rfl (tag_found _ _ _ _)
    | content => exact hyes rfl (by simp)
    | comment => exact hyes rfl (by simp [commentNode])
    | _ => exact hno _ rfl

/-- A sequence of statements stops where none starts. Where none has started, it
leaves an error over nothing. -/
theorem statementsOver_stops (inner : Script Unit) (ks : List Kind) :
    (statementsOver inner).Ensures R ks fun found rest _ =>
      startsStatement rest = false ∧ (found = false → rest = ks) := by
  rw [statementsOver, ensures_checkpoint, ensures_bind]
  apply (statementOver_found inner ks).mono
  rintro found rest f ⟨hfound, hnone⟩
  cases found with
  | false =>
    obtain ⟨rfl, rfl⟩ := hnone rfl
    rw [ensures_unless_false, ensures_pure]
    exact ⟨hfound.symm, fun _ => rfl⟩
  | true =>
    rw [ensures_unless_true, ensures_bind]
    apply (many_stops (statementOver_advances inner) rest).mono
    intro _ rest' _ hfails
    rw [ensures_pure]
    refine ⟨?_, fun hfalse => by cases hfalse⟩
    have hstop := (Ensures.and hfails (statementOver_found inner rest'))
    rw [ensures_iff] at hstop
    exact hstop.2.1.symm.trans hstop.1

/-- A program stops where no statement starts, if it may go deep enough. -/
theorem programUpTo_stops (depth : Nat) (hle : ks.length ≤ depth) :
    (programUpTo depth).Ensures R ks fun _ rest _ => startsStatement rest = false := by
  cases depth with
  | zero =>
    obtain rfl : ks = [] := List.length_eq_zero_iff.mp (Nat.le_zero.mp hle)
    exact ensures_pure.mpr rfl
  | succ depth =>
    rw [programUpTo, ensures_bind, ensures_left]
    split
    · rename_i hnil
      obtain rfl : ks = [] := List.length_eq_zero_iff.mp hnil
      exact ensures_pure.mpr rfl
    · rw [ensures_bind, ensures_checkpoint, ensures_bind, ensures_tracked]
      apply (statementsOver_stops _ ks).mono
      rintro found rest _ ⟨hstop, hnone⟩
      cases found with
      | false =>
        obtain rfl := hnone rfl
        simpa using hstop
      | true =>
        simp only [Bool.true_or, if_true, ensures_pure, reduceCtorEq, if_false, ensures_bind]
        apply elseTag_shaped.mono
        intro found rest' _ helse
        cases found with
        | false =>
          obtain ⟨rfl, -⟩ := helse
          simpa using hstop
        | true =>
          simp only [if_true, ensures_bind]
          exact (statementsOver_stops _ rest').mono fun _ _ _ h => ensures_pure.mpr h.1

theorem program_stops (ks : List Kind) :
    Grammar.program.Ensures R ks fun _ rest _ => startsStatement rest = false := by
  rw [Grammar.program, ensures_bind, ensures_left]
  exact programUpTo_stops _ (Nat.le_refl _)

end Grammar

end TemplateTree
