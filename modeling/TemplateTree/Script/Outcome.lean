import TemplateTree.Script

/-!
# Outcomes of scripts

What a script means: run on a list of kinds, it gives a result, the kinds that
it leaves, and the forest that it has grown over those that it took. A scope
grows a forest of its own, which its closing wraps, keeps or drops; a scope
that is undone also gives back the kinds that it took.
-/

namespace TemplateTree

/-- What a closing makes of the forest of its scope. -/
def Closing.wrap {τ : Type} (forest : List (Rose τ)) : Closing → List (Rose τ)
  | .node kind => [.node (.plain kind) forest]
  | .error message => [.node (.failure message) forest]
  | .splice => forest
  | .undo => []

structure Outcome (α : Type) where
  result : α
  rest : List Kind
  forest : List (Rose Kind)

namespace Script

def outcome {α : Type} (recovery : KindSet) : Script α → List Kind → Outcome α
  | .pure a, ks => ⟨a, ks, []⟩
  | .look next, ks => (next (.ofList recovery ks)).outcome recovery ks
  | .bump next, [] => next.outcome recovery []
  | .bump next, k :: ks =>
    let o := next.outcome recovery ks
    ⟨o.result, o.rest, .token k :: o.forest⟩
  | .report m next, ks =>
    let o := next.outcome recovery ks
    ⟨o.result, o.rest, .node (.failure m) [] :: o.forest⟩
  | .scope body next, ks =>
    let inner := body.outcome recovery ks
    let rest := if inner.result.1 = .undo then ks else inner.rest
    let o := (next inner.result.2).outcome recovery rest
    ⟨o.result, o.rest, inner.result.1.wrap inner.forest ++ o.forest⟩

/-- A script that depends on the result of another starts where that one ended,
and its forest stands behind the other's. -/
theorem outcome_bind {α β : Type} (recovery : KindSet) (p : Script α) (f : α → Script β)
    (ks : List Kind) :
    (p.bind f).outcome recovery ks =
      let o := p.outcome recovery ks
      let q := (f o.result).outcome recovery o.rest
      ⟨q.result, q.rest, o.forest ++ q.forest⟩ := by
  induction p generalizing ks with
  | pure a => rfl
  | look next ih => exact ih _ _ ks
  | bump next ih =>
    cases ks with
    | nil => exact ih _ _
    | cons k ks => simp [bind, outcome, ih]
  | report m next ih => simp [bind, outcome, ih]
  | scope body next _ ih => simp [bind, outcome, ih]

end Script

end TemplateTree
