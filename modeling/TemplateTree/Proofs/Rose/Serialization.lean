import TemplateTree.Rose.Steps

/-!
# Serializations

The steps that write a rose tree down determine the tree, and its tokens are the
tokens among the steps. Steps that break off have written down some trees inside
each of the nodes that are still open.
-/

namespace TemplateTree

/-- The token that a step lays, if it lays one. -/
def BuildStep.token? : BuildStep → Option Token
  | .token t => some t
  | _ => none

@[simp] theorem BuildStep.token?_start (label : Label) : (start label).token? = none := rfl

@[simp] theorem BuildStep.token?_token (t : Token) : (token t).token? = some t := rfl

@[simp] theorem BuildStep.token?_finish : finish.token? = none := rfl

namespace Rose

mutual

theorem filterMap_steps (r : Rose Token) : r.steps.filterMap BuildStep.token? = r.leaves := by
  cases r with
  | token t => rfl
  | node label children =>
    have hchildren := filterMap_stepsAll children
    simp [steps, leaves, List.filterMap_cons, hchildren]

/-- The tokens among the steps of trees are their leaves. -/
theorem filterMap_stepsAll (rs : List (Rose Token)) :
    (stepsAll rs).filterMap BuildStep.token? = leavesAll rs := by
  cases rs with
  | nil => rfl
  | cons r rs =>
    rw [stepsAll, List.filterMap_append, filterMap_steps r, filterMap_stepsAll rs, leavesAll]

end

/-- No tree starts where a node finishes. -/
theorem steps_append_ne_finish (r : Rose Token) (xs ys : List BuildStep) :
    r.steps ++ xs ≠ .finish :: ys := by
  cases r with
  | token t => simp [steps]
  | node label children => simp [steps]

mutual

theorem steps_append_inj (r r' : Rose Token) (xs ys : List BuildStep)
    (h : r.steps ++ xs = r'.steps ++ ys) : r = r' ∧ xs = ys := by
  cases r with
  | token t =>
    cases r' with
    | token t' => simpa [steps] using h
    | node label' children' => simp [steps] at h
  | node label children =>
    cases r' with
    | token t' => simp [steps] at h
    | node label' children' =>
      simp only [steps, List.cons_append, List.append_assoc, List.nil_append, List.cons.injEq,
        BuildStep.start.injEq] at h
      obtain ⟨rfl, h⟩ := h
      obtain ⟨rfl, rfl⟩ := stepsAll_finish_inj children children' xs ys h
      exact ⟨rfl, rfl⟩

/-- Where a node finishes is seen from the steps, and so is what stands in it. -/
theorem stepsAll_finish_inj (rs rs' : List (Rose Token)) (xs ys : List BuildStep)
    (h : stepsAll rs ++ .finish :: xs = stepsAll rs' ++ .finish :: ys) : rs = rs' ∧ xs = ys := by
  cases rs with
  | nil =>
    cases rs' with
    | nil => simpa [stepsAll] using h
    | cons r' rs' =>
      rw [stepsAll, stepsAll, List.append_assoc] at h
      exact absurd h.symm (steps_append_ne_finish r' _ _)
  | cons r rs =>
    cases rs' with
    | nil =>
      rw [stepsAll, stepsAll, List.append_assoc] at h
      exact absurd h (steps_append_ne_finish r _ _)
    | cons r' rs' =>
      rw [stepsAll, stepsAll, List.append_assoc, List.append_assoc] at h
      obtain ⟨rfl, hrest⟩ := steps_append_inj r r' _ _ h
      obtain ⟨rfl, rfl⟩ := stepsAll_finish_inj rs rs' xs ys hrest
      exact ⟨rfl, rfl⟩

end

/-- The steps that lead into open nodes, innermost first, each of which has a label and
the trees that were written down in it. -/
def openingSteps : List (Label × List (Rose Token)) → List BuildStep
  | [] => []
  | (label, rs) :: outer => openingSteps outer ++ .start label :: stepsAll rs

/-- What comes of steps, with the number of nodes that are open and of those that
were opened in all: nothing yet, trees inside open nodes, or a whole node. -/
inductive Stage : Nat → Nat → List BuildStep → Prop
  | fresh : Stage 0 0 []
  | inside (label : Label) (rs : List (Rose Token)) (outer : List (Label × List (Rose Token)))
      (count : Nat) : Stage (outer.length + 1) (count + 1) (openingSteps ((label, rs) :: outer))
  | finished (label : Label) (rs : List (Rose Token)) (count : Nat) :
      Stage 0 (count + 1) (Rose.node label rs).steps

namespace Stage

variable {depth count : Nat} {ss : List BuildStep}

/-- A node may start unless a whole one is there. -/
theorem start (h : Stage depth count ss) (label : Label) (hroot : depth = 0 → count = 0) :
    Stage (depth + 1) (count + 1) (ss ++ [.start label]) := by
  cases h with
  | fresh => exact .inside label [] [] 0
  | inside label' rs outer count => exact .inside label [] ((label', rs) :: outer) (count + 1)
  | finished label' rs count => cases hroot rfl

/-- A tree may be added to the innermost open node. -/
theorem add (h : Stage depth count ss) (r : Rose Token) (hopen : depth ≠ 0) :
    Stage depth count (ss ++ r.steps) := by
  cases h with
  | fresh => exact absurd rfl hopen
  | inside label rs outer count =>
    have hadd := inside label (rs ++ [r]) outer count
    simpa [openingSteps, stepsAll] using hadd
  | finished label rs count => exact absurd rfl hopen

/-- The innermost open node may finish. -/
theorem finish (h : Stage (depth + 1) count ss) : Stage depth count (ss ++ [.finish]) := by
  cases h with
  | inside label rs outer count =>
    cases outer with
    | nil => simpa [openingSteps, steps] using finished label rs count
    | cons first outer =>
      obtain ⟨label', rs'⟩ := first
      have hadd := inside label' (rs' ++ [.node label rs]) outer count
      simpa [openingSteps, stepsAll, steps] using hadd

end Stage

end Rose

end TemplateTree
