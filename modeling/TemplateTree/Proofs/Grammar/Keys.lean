import TemplateTree.Grammar.Expression

/-!
# Looking ahead for keys

A key is an identifier with an equals sign behind it. Whether one comes next is
seen from two kinds, and where none comes next no pair of a hash does.
-/

namespace TemplateTree.Grammar

variable {R : KindSet} {ks : List Kind}

theorem ahead_zero : (View.ofList R ks).ahead 0 = ks.headD .endOfInput := by
  cases ks <;> rfl

theorem isKeyAhead_of_ne (h : ks.headD .endOfInput ≠ .ident) :
    isKeyAhead (.ofList R ks) = false := by
  rw [isKeyAhead, ahead_zero, decide_eq_false h, Bool.false_and]

theorem isKeyAhead_cons {k : Kind} (h : ks.headD .endOfInput ≠ .equals) :
    isKeyAhead (.ofList R (k :: ks)) = false := by
  have hahead : (View.ofList R (k :: ks)).ahead 1 = ks.headD .endOfInput := by
    cases ks <;> rfl
  rw [isKeyAhead, hahead, decide_eq_false h, Bool.and_false]

/-- A pair starts with a key. -/
theorem isPairAhead_of_isKeyAhead {v : View} (h : isKeyAhead v = false) :
    isPairAhead v = false := by
  have hrun : pairRun v 0 v.left = 0 := by
    cases v.left with
    | zero => rfl
    | succ bound => rw [pairRun, ← isKeyAhead, h, if_neg Bool.false_ne_true]
  rw [isPairAhead, hrun, if_pos rfl]

/-- Whether an identifier and an equals sign lie so many tokens ahead. -/
def IsKeyAt (v : View) (n : Nat) : Prop := v.ahead n = .ident ∧ v.ahead (n + 1) = .equals

/-- The run of keys from a place on ends where there is no key, never because the
count has run out. -/
theorem pairRun_ends {v : View} (hend : ∀ n, v.left ≤ n → v.ahead n = .endOfInput)
    (offset bound : Nat) (hbound : v.left ≤ offset + bound) :
    (∀ m < pairRun v offset bound, IsKeyAt v (offset + 2 * m)) ∧
      ¬ IsKeyAt v (offset + 2 * pairRun v offset bound) := by
  induction bound generalizing offset with
  | zero =>
    refine ⟨fun m hm => absurd hm (Nat.not_lt_zero m), fun hkey => ?_⟩
    have hident := hkey.1
    rw [pairRun, hend _ (by omega)] at hident
    cases hident
  | succ bound ih =>
    rw [pairRun]
    split
    · rename_i hkey
      simp only [Bool.and_eq_true, decide_eq_true_eq] at hkey
      obtain ⟨hbefore, hstop⟩ := ih (offset + 2) (by omega)
      refine ⟨fun m hm => ?_, ?_⟩
      · cases m with
        | zero => exact hkey
        | succ m =>
          have hm' := hbefore m (by omega)
          rwa [show offset + 2 + 2 * m = offset + 2 * (m + 1) by omega] at hm'
      · rwa [show offset + 2 * (pairRun v (offset + 2) bound + 1) =
          offset + 2 + 2 * pairRun v (offset + 2) bound by omega]
    · rename_i hkey
      refine ⟨fun m hm => absurd hm (Nat.not_lt_zero m), ?_⟩
      simpa [IsKeyAt] using hkey

theorem headD_eq_ident_of_isPairAhead (h : isPairAhead (.ofList R ks) = true) :
    ks.headD .endOfInput = .ident := by
  apply Decidable.byContradiction
  intro hne
  rw [isPairAhead_of_isKeyAhead (isKeyAhead_of_ne hne)] at h
  cases h

end TemplateTree.Grammar
