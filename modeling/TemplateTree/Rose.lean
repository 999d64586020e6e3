import TemplateTree.Kind

/-!
# Rose trees

The shape of a template as a tree with any number of children: tokens at the
leaves, labelled nodes above them. Ranges and links are left out. A label is a
plain kind, or the message of a failure, so that a message always belongs to
an error.
-/

namespace TemplateTree

inductive Label where
  | plain (kind : Kind)
  | failure (message : String)
  deriving DecidableEq, Repr, Inhabited

namespace Label

def kind : Label → Kind
  | plain k => k
  | failure _ => .error

def message? : Label → Option String
  | plain _ => none
  | failure m => some m

end Label

/-- Trees over tokens of type `τ`. -/
inductive Rose (τ : Type) where
  | token (t : τ)
  | node (label : Label) (children : List (Rose τ))
  deriving Repr, Inhabited

namespace Rose

variable {τ : Type}

mutual

/-- The tokens of a tree from left to right. -/
def leaves : Rose τ → List τ
  | token t => [t]
  | node _ children => leavesAll children

def leavesAll : List (Rose τ) → List τ
  | [] => []
  | r :: rs => leaves r ++ leavesAll rs

end

mutual

/-- The labels of the nodes of a tree, each before those below it. -/
def labels : Rose τ → List Label
  | token _ => []
  | node label children => label :: labelsAll children

def labelsAll : List (Rose τ) → List Label
  | [] => []
  | r :: rs => labels r ++ labelsAll rs

end

@[simp] theorem leavesAll_append (rs ss : List (Rose τ)) :
    leavesAll (rs ++ ss) = leavesAll rs ++ leavesAll ss := by
  induction rs with
  | nil => rfl
  | cons r rs ih => simp [leavesAll, ih]

@[simp] theorem labelsAll_append (rs ss : List (Rose τ)) :
    labelsAll (rs ++ ss) = labelsAll rs ++ labelsAll ss := by
  induction rs with
  | nil => rfl
  | cons r rs ih => simp [labelsAll, ih]

end Rose

end TemplateTree
