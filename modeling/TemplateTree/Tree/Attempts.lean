import TemplateTree.Tree.Builder

/-!
# Attempts at building

Commands to a builder, carried out one after the other. A command that is
refused changes nothing, and the commands after it still run. The builder ends
by being finished or dropped, and is dropped if the commands run out first.
-/

namespace TemplateTree.Builder

inductive Command where
  | step (s : BuildStep)
  | finish
  | drop
  deriving DecidableEq, Repr

/-- What came of the commands, and of the final drop if there was one. -/
structure Attempts where
  results : List (Except Fault Unit)
  dropped : Option (Except Fault Unit)
  tree : Option Tree

/-- Carries out commands up to the end of the builder. -/
def attempts (b : Builder) : List Command → Attempts
  | [] => ⟨[], some b.drop, none⟩
  | .finish :: _ =>
    match b.finish with
    | .ok tree => ⟨[.ok ()], none, some tree⟩
    | .error fault => ⟨[.error fault], none, none⟩
  | .drop :: _ => ⟨[b.drop], none, none⟩
  | .step s :: rest =>
    match b.apply s with
    | .ok next =>
      let later := next.attempts rest
      { later with results := .ok () :: later.results }
    | .error fault =>
      let later := b.attempts rest
      { later with results := .error fault :: later.results }

end TemplateTree.Builder
