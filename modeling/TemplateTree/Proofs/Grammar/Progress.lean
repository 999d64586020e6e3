import TemplateTree.Grammar.Statement
import TemplateTree.Proofs.Grammar.Tokens
import TemplateTree.Proofs.Script.Recording

/-!
# Progress

A rule that has succeeded has taken at least one token, and no script ever
gives back a token that was taken before it started.
-/

namespace TemplateTree

variable {R : KindSet} {ks : List Kind}

namespace Script

theorem ensures_length_rest_le {α : Type} (p : Script α) :
    p.Ensures R ks fun _ rest _ => rest.length ≤ ks.length :=
  ensures_iff.mpr (length_rest_le R p ks)

end Script

namespace Grammar

open Script

/-- The rule takes a token wherever it succeeds. -/
def Advances (rule : Script Bool) (R : KindSet) (ks : List Kind) : Prop :=
  rule.Ensures R ks fun found rest _ => found = true → rest.length < ks.length

theorem leaf_advances {k : Kind} (hk : k ≠ .endOfInput) (ks : List Kind) :
    Advances (leaf k) R ks := by
  rcases leaf_cases (R := R) k hk ks with ⟨rest, rfl, h⟩ | ⟨-, h⟩
  · rw [Advances, ensures_of_eq h]
    intro _
    exact Nat.lt_succ_self _
  · rw [Advances, ensures_of_eq h]
    intro hf
    cases hf

/-- The scope undoes nothing where it answers yes. -/
def Keeps (body : Script (Closing × Bool)) (R : KindSet) (ks : List Kind) : Prop :=
  body.Ensures R ks fun c _ _ => c.2 = true → c.1 ≠ .undo

/-- A scope answers no where a part of it fails. -/
theorem keeps_unless {part : Script Bool} {closing : Closing} {body : Script (Closing × Bool)}
    (hbody : ∀ ks, Keeps body R ks) (ks : List Kind) :
    Keeps (do
      if !(← part) then return (closing, false)
      body) R ks := by
  rw [Keeps, ensures_bind]
  apply (ensures_length_rest_le part).mono
  intro found rest _ _
  cases found with
  | false => simp
  | true => exact hbody rest

theorem keeps_of_part {α : Type} {part : Script α} {body : α → Script (Closing × Bool)}
    (hbody : ∀ a ks, Keeps (body a) R ks) (ks : List Kind) : Keeps (part >>= body) R ks := by
  rw [Keeps, ensures_bind]
  exact (ensures_length_rest_le part).mono fun a rest _ _ => hbody a rest

theorem keeps_return {closing : Closing} {found : Bool} (h : closing ≠ .undo) (ks : List Kind) :
    Keeps (return (closing, found)) R ks := by
  rw [Keeps, ensures_pure]
  exact fun _ => h

/-- A rule that gives up unless its first part has succeeded takes at least what
that part takes. -/
theorem Advances.checkpoint {first : Script Bool} {closing : Closing}
    {body : Script (Closing × Bool)} (hfirst : Advances first R ks)
    (hbody : ∀ ks, Keeps body R ks) :
    Advances (checkpoint do
      if !(← first) then return (closing, false)
      body) R ks := by
  rw [Advances, ensures_checkpoint, ensures_bind]
  apply hfirst.mono
  intro found rest _ hlt
  cases found with
  | false =>
    rw [ensures_unless_false, ensures_pure]
    intro h
    cases h
  | true =>
    rw [ensures_unless_true]
    apply ((hbody rest).and (ensures_length_rest_le body)).mono
    intro c rest' _ h hfound
    rw [if_neg (h.1 hfound)]
    exact Nat.lt_of_le_of_lt h.2 (hlt rfl)

theorem hashPair_advances (ks : List Kind) : Advances hashPair R ks :=
  (leaf_advances (by decide) ks).checkpoint
    (keeps_unless (keeps_unless (keeps_return (by simp))))

theorem elseTag_advances (ks : List Kind) : Advances elseTag R ks :=
  (leaf_advances (by decide) ks).checkpoint (keeps_unless (keeps_return (by simp)))

theorem tag_advances {opening : Kind} (hopening : opening ≠ .endOfInput) (node : Kind)
    (inside : Script Bool) (ks : List Kind) : Advances (tag opening node inside) R ks :=
  (leaf_advances hopening ks).checkpoint
    (keeps_of_part fun _ => keeps_of_part fun _ => keeps_return (by simp))

theorem block_advances {opening : Script Bool} (hopening : Advances opening R ks)
    (malformed : Problem) (inner : Script Unit) : Advances (block opening malformed inner) R ks :=
  hopening.checkpoint (keeps_of_part fun _ => keeps_of_part fun _ => keeps_return (by simp))

theorem path_advances (ks : List Kind) : Advances path R ks := by
  rw [Advances, path, ensures_bind, ensures_view]
  split
  · simp
  · exact (leaf_advances (by decide) ks).checkpoint
      (keeps_of_part fun _ => keeps_of_part fun _ => keeps_return (by simp))

theorem firstOf_advances {rules : List (Script Bool)} (h : ∀ rule ∈ rules, Advances rule R ks) :
    Advances (firstOf rules) R ks := by
  induction rules with
  | nil => simp [Advances, firstOf]
  | cons rule rules ih =>
    rw [Advances, firstOf, ensures_bind, ensures_attempt]
    apply (h rule (by simp)).mono
    intro found rest f hlt
    cases found with
    | false => simpa [Advances] using ih fun r hr => h r (by simp [hr])
    | true => simpa using hlt

theorem param_advances (ks : List Kind) : Advances param R ks := by
  have hfirst : Advances (firstOf [path, leaf .string, leaf .integer, leaf .boolean]) R ks := by
    apply firstOf_advances
    simp only [List.mem_cons, List.not_mem_nil, or_false]
    rintro rule (rfl | rfl | rfl | rfl)
    · exact path_advances ks
    all_goals exact leaf_advances (by decide) ks
  rw [Advances, param, ensures_checkpoint, ensures_bind]
  apply hfirst.mono
  intro found rest _ hlt
  cases found with
  | false => simp
  | true => simpa using hlt

/-- A mustache takes its opening delimiter, where that is there. -/
theorem mustache_advances {k : Kind} (hk : isMustacheOpening k = true) (ks : List Kind) :
    Advances mustache R (k :: ks) := by
  rw [Advances, mustache, ensures_checkpoint, ensures_bind, ensures_current]
  simp only [List.headD_cons, hk, if_true, ensures_bind, ensures_of_eq (leaf_outcome_cons k ks)]
  apply (ensures_length_rest_le expression).mono
  intro _ rest _ hle
  apply (ensures_length_rest_le (greedyLeaf .close)).mono
  intro _ rest' _ hle'
  simp only [ensures_pure, reduceCtorEq, if_false, List.length_cons]
  omega

/-- A statement takes a token, whatever the rule for the program inside a block does. -/
theorem statementOver_advances (inner : Script Unit) (ks : List Kind) :
    Advances (statementOver inner) R ks := by
  have hno : ∀ ks, Advances (return false) R ks := fun ks => by simp [Advances]
  rw [Advances, statementOver, ensures_bind, ensures_current]
  cases ks with
  | nil => exact hno []
  | cons k ks =>
    rw [List.headD_cons]
    cases k with
    | openInverse =>
      rw [ensures_bind, ensures_lookahead]
      apply (ensures_length_rest_le elseTag).mono
      intro found _ _ _
      cases found with
      | false => exact block_advances (tag_advances (by decide) _ _ _) _ inner
      | true => exact hno _
    | openBlock => exact block_advances (tag_advances (by decide) _ _ _) _ inner
    | openValue => exact mustache_advances rfl ks
    | openRaw => exact mustache_advances rfl ks
    | openPartial => exact tag_advances (by decide) _ _ _
    | content => simp
    | comment => simp [commentNode]
    | _ => exact hno _

/-- A tag succeeds where its opening delimiter is there, whatever follows. -/
theorem tag_succeeds (opening node : Kind) (inside : Script Bool) (ks : List Kind) :
    (tag opening node inside).Ensures R (opening :: ks) fun found rest _ =>
      found = true ∧ rest.length ≤ ks.length := by
  rw [tag, ensures_checkpoint, ensures_bind, ensures_of_eq (leaf_outcome_cons opening ks),
    ensures_unless_true, ensures_bind]
  apply (ensures_length_rest_le inside).mono
  intro _ rest _ hle
  rw [ensures_bind]
  apply (ensures_length_rest_le (greedyLeaf .close)).mono
  intro _ rest' _ hle'
  simp only [ensures_pure, reduceCtorEq, if_false, true_and]
  omega

end Grammar

end TemplateTree
