import TemplateTree.Grammar.Leaf
import TemplateTree.Grammar.Derivation
import TemplateTree.Proofs.Lists
import TemplateTree.Proofs.Script.Guarantee
import TemplateTree.Proofs.Grammar.TreeGrammar

/-!
# What single tokens leave behind

The exact outcomes of the rules for single tokens. A token that is there
becomes a leaf; where it is missing, the unreadable tokens at the cursor are
passed over inside an error. The loops that pass over tokens are those of
lists, since their bound is the number of tokens that are left.
-/

namespace TemplateTree

open Rose TreeGrammar

variable {R : KindSet} {ks : List Kind}

namespace Script

/-- Passing over tokens for as long as a condition on the next kind holds. -/
theorem outcome_takeWhile {p : View → Bool} {q : Kind → Bool}
    (h : ∀ k ks, p (.ofList R (k :: ks)) = q k) (ks : List Kind) :
    (takeWhile p).outcome R ks = ⟨(), ks.dropWhile q, (ks.takeWhile q).map .token⟩ := by
  have hloop : ∀ ks : List Kind, (takeUpTo p ks.length).Ensures R ks fun _ rest f =>
      rest = ks.dropWhile q ∧ f = (ks.takeWhile q).map .token := by
    intro ks
    induction ks with
    | nil => simp [takeUpTo]
    | cons k ks ih =>
      rw [List.length_cons, takeUpTo, ensures_bind, ensures_view, h k ks]
      by_cases hq : q k = true
      · simp only [hq, if_true, ensures_bind, ensures_take_cons]
        apply ih.mono
        intro _ rest f h
        obtain ⟨rfl, rfl⟩ := h
        simp [hq]
      · simp [hq]
  apply ensures_eq_iff.mp
  rw [takeWhile, ensures_bind, ensures_left]
  exact (hloop ks).mono fun _ rest f hf => ⟨rfl, hf.1, hf.2⟩

end Script

namespace Grammar

open Script

theorem leaf_outcome_cons (k : Kind) (ks : List Kind) :
    (leaf k).outcome R (k :: ks) = ⟨true, ks, [Derivation.leaf k]⟩ := by
  apply ensures_eq_iff.mp
  simp [leaf, Closing.wrap, Derivation.leaf]

/-- The unreadable tokens at the cursor. -/
def unreadable (ks : List Kind) : List Kind := ks.takeWhile fun k => k = .invalid

/-- What lies behind the unreadable tokens at the cursor. -/
def readable (ks : List Kind) : List Kind := ks.dropWhile fun k => k = .invalid

theorem leaf_outcome_ne {k : Kind} (h : ks.headD .endOfInput ≠ k) :
    (leaf k).outcome R ks =
      ⟨false, readable ks,
        [.node (.failure (Problem.expected k).message) ((unreadable ks).map .token)]⟩ := by
  have hpass : (takeWhile fun v => v.ahead 0 = .invalid).outcome R ks =
      ⟨(), readable ks, (unreadable ks).map .token⟩ :=
    outcome_takeWhile (fun _ _ => rfl) ks
  apply ensures_eq_iff.mp
  rw [leaf, ensures_checkpoint, ensures_bind, ensures_current, if_neg h, ensures_bind,
    ensures_of_eq hpass]
  simp [Problem.closing, Closing.wrap]

/-- A leaf succeeds exactly where its token is. -/
theorem leaf_cases (k : Kind) (hk : k ≠ .endOfInput) (ks : List Kind) :
    (∃ rest, ks = k :: rest ∧ (leaf k).outcome R ks = ⟨true, rest, [Derivation.leaf k]⟩) ∨
      (ks.headD .endOfInput ≠ k ∧ (leaf k).outcome R ks =
        ⟨false, readable ks,
          [.node (.failure (Problem.expected k).message) ((unreadable ks).map .token)]⟩) := by
  by_cases h : ks.headD .endOfInput = k
  · obtain ⟨rest, rfl⟩ := exists_eq_cons_of_headD h hk
    exact .inl ⟨rest, rfl, leaf_outcome_cons k rest⟩
  · exact .inr ⟨h, leaf_outcome_ne h⟩

theorem conformsAll_map_token (rules : Kind → Pattern) (ks : List Kind) :
    ConformsAll rules (ks.map .token) := by
  induction ks with
  | nil => trivial
  | cons k ks ih => exact ⟨trivial, ih⟩

theorem shaped_leaf {k : Kind} (hrule : strictContents k = word k) :
    Shaped (child k) [Derivation.leaf k] :=
  .node (hrule ▸ .word k)

/-- A leaf is a node around its token, or an error. -/
theorem leaf_shaped {k : Kind} (hk : k ≠ .endOfInput) (hrule : strictContents k = word k) :
    (leaf k).Ensures R ks fun found _ f => Shaped (child (if found then k else .error)) f := by
  rcases leaf_cases (R := R) k hk ks with ⟨rest, rfl, h⟩ | ⟨-, h⟩
  · rw [ensures_of_eq h]
    exact shaped_leaf hrule
  · rw [ensures_of_eq h]
    exact .failure (conformsAll_map_token _ _) _

/-- Whether skipping passes over a kind while looking for another. -/
def passes (R : KindSet) (kind k : Kind) : Bool := k ≠ kind && !R.contains k

theorem skip_outcome (kind : Kind) (ks : List Kind) :
    (takeWhile (skips kind)).outcome R ks =
      ⟨(), ks.dropWhile (passes R kind), (ks.takeWhile (passes R kind)).map .token⟩ :=
  outcome_takeWhile (fun k ks => by simp [skips, passes, View.ofList]) ks

/-- The end of a tag, which is late unless the closing delimiter comes next. -/
theorem greedyLeaf_shaped :
    (greedyLeaf .close).Ensures R ks fun _ _ f =>
      Shaped (if ks.headD .endOfInput = .close then child .close else lateClosing) f := by
  have hclose : ∀ ks, (leaf .close).Ensures R ks fun _ _ f =>
      Shaped (child .close + child .error) f := by
    intro ks
    apply (leaf_shaped (by decide) rfl).mono
    intro found rest f hf
    cases found with
    | false => exact hf.right
    | true => exact hf.left
  rw [greedyLeaf, ensures_bind]
  rcases leaf_cases (R := R) .close (by decide) ks with ⟨rest, rfl, h⟩ | ⟨hne, h⟩
  · rw [ensures_of_eq h]
    simp only [if_true, ensures_pure, List.append_nil, List.headD_cons]
    exact shaped_leaf rfl
  · have hfirst : Shaped (child .error) [.node (.failure (Problem.expected .close).message)
        ((unreadable ks).map .token)] := .failure (conformsAll_map_token _ _) _
    rw [ensures_of_eq h, if_neg hne]
    simp only [Bool.false_eq_true, if_false, ensures_bind, ensures_current]
    by_cases hnext : (readable ks).headD .endOfInput = .close
    · rcases leaf_cases (R := R) .close (by decide) (readable ks) with ⟨rest, hr, h'⟩ | ⟨hr, -⟩
      · rw [if_neg (not_not_intro hnext), ensures_of_eq h']
        exact (hfirst.append (shaped_leaf rfl)).left
      · exact absurd hnext hr
    · rw [if_pos hnext]
      simp only [ensures_bind, ensures_complain, ensures_checkpoint, ensures_left,
        ensures_of_eq (skip_outcome _ _)]
      have hreport : Shaped (child .error)
          [.node (.failure (Problem.expected .close).message) []] :=
        .failure (f := []) trivial _
      split
      · simp only [ensures_pure, Problem.closing, Closing.wrap, List.nil_append, List.append_nil]
        apply (hclose _).mono
        intro _ _ f hf
        exact (hfirst.append (hreport.append (Shaped.append
          (.present (.failure (conformsAll_map_token _ _) _)) hf))).right
      · rename_i hstay
        have hnone : (readable ks).takeWhile (passes R .close) = [] := by
          have hsplit := congrArg List.length
            (List.takeWhile_append_dropWhile (p := passes R .close) (l := readable ks))
          rw [List.length_append] at hsplit
          exact List.length_eq_zero_iff.mp (by omega)
        simp only [ensures_pure, hnone, Closing.wrap, List.map_nil, List.nil_append]
        apply (hclose _).mono
        intro _ _ f hf
        exact (hfirst.append (hreport.append (Shaped.append .absent hf))).right

end Grammar

end TemplateTree
