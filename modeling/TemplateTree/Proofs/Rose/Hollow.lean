import Mathlib.Data.List.Forall2
import TemplateTree.Proofs.Rose.Placing

/-!
# Nodes without tokens

A node that has no tokens covers nothing of the text. Laying a forest over tokens
gives no blank token to such a node, so it can be told from the forest alone which
nodes of the tree are empty.
-/

namespace TemplateTree

open Token

namespace Rose

variable {τ : Type}

mutual

/-- The labels of the nodes of a tree, each before those below it, and whether the
node is without tokens. -/
def hollows : Rose τ → List (Label × Bool)
  | token _ => []
  | node label children => (label, (leavesAll children).isEmpty) :: hollowsAll children

def hollowsAll : List (Rose τ) → List (Label × Bool)
  | [] => []
  | r :: rs => hollows r ++ hollowsAll rs

end

@[simp] theorem hollowsAll_append (rs ss : List (Rose τ)) :
    hollowsAll (rs ++ ss) = hollowsAll rs ++ hollowsAll ss := by
  induction rs with
  | nil => rfl
  | cons r rs ih => simp [hollowsAll, ih]

theorem hollowsAll_map_token (ts : List τ) : hollowsAll (ts.map .token) = [] := by
  induction ts with
  | nil => rfl
  | cons t ts ih => simp [hollowsAll, hollows, ih]

/-- The errors among the nodes. -/
def flaws (rs : List (Rose τ)) : List (Label × Bool) :=
  (hollowsAll rs).filter fun h => h.1.kind = .error

@[simp] theorem flaws_append (rs ss : List (Rose τ)) : flaws (rs ++ ss) = flaws rs ++ flaws ss := by
  simp [flaws]

theorem flaws_failure (m : String) (children rs : List (Rose τ)) :
    flaws (.node (.failure m) children :: rs) =
      (.failure m, (leavesAll children).isEmpty) :: (flaws children ++ flaws rs) := by
  simp [flaws, hollowsAll, hollows, Label.kind]

theorem flaws_plain {k : Kind} (hk : k ≠ .error) (children rs : List (Rose τ)) :
    flaws (.node (.plain k) children :: rs) = flaws children ++ flaws rs := by
  simp [flaws, hollowsAll, hollows, Label.kind, hk]

mutual

theorem map_fst_hollows (r : Rose τ) : r.hollows.map (·.1) = r.labels := by
  cases r with
  | token t => rfl
  | node label children => simp [hollows, labels, map_fst_hollowsAll children]

theorem map_fst_hollowsAll (rs : List (Rose τ)) : (hollowsAll rs).map (·.1) = labelsAll rs := by
  cases rs with
  | nil => rfl
  | cons r rs => simp [hollowsAll, labelsAll, map_fst_hollows r, map_fst_hollowsAll rs]

end

mutual

theorem hollowsAll_lay (r : Rose Kind) (ts : List Token) (more : List Kind)
    (hk : significantKinds ts = r.leaves ++ more) : hollowsAll (lay r ts).1 = r.hollows := by
  cases r with
  | token k => rw [lay, hollowsAll_map_token, hollows]
  | node label children =>
    by_cases hnone : leavesAll children = []
    · have hinside := hollowsAll_layAll children ts more hk
      have hnil := leavesAll_layAll_eq_nil children ts hnone
      simp [lay, hnone, hnil, hollowsAll, hollows, hinside]
    · have hk' : significantKinds (ts.drop (leadingBlanks ts)) = leavesAll children ++ more :=
        (significantKinds_drop_leadingBlanks ts).trans hk
      have hinside := hollowsAll_layAll children _ more hk'
      have hne := leavesAll_layAll_ne_nil hk' hnone
      have hsame : (leavesAll (layAll children (ts.drop (leadingBlanks ts))).1).isEmpty =
          (leavesAll children).isEmpty := by
        rw [List.isEmpty_eq_false_iff.mpr hne, List.isEmpty_eq_false_iff.mpr hnone]
      simp only [lay, if_neg hnone, hollowsAll_append, hollowsAll_map_token, hollowsAll, hollows,
        hinside, hsame, List.nil_append, List.append_nil]

/-- The nodes of a laid forest are without tokens where those of the forest are. -/
theorem hollowsAll_layAll (rs : List (Rose Kind)) (ts : List Token) (more : List Kind)
    (hk : significantKinds ts = leavesAll rs ++ more) :
    hollowsAll (layAll rs ts).1 = hollowsAll rs := by
  cases rs with
  | nil => rfl
  | cons r rs =>
    rw [leavesAll, List.append_assoc] at hk
    have hrest := (significantAll_lay r ts _ hk).2
    rw [layAll, hollowsAll_append, hollowsAll_lay r ts _ hk, hollowsAll_layAll rs _ more hrest,
      hollowsAll]

end

theorem hollows_layRoot (label : Label) (rs : List (Rose Kind)) (ts : List Token)
    (more : List Kind) (hk : significantKinds ts = leavesAll rs ++ more) :
    (layRoot label rs ts).hollows = (label, ts.isEmpty) :: hollowsAll rs := by
  have hleaves : leavesAll ((layAll rs ts).1 ++ (layAll rs ts).2.map .token) = ts :=
    leaves_layRoot label rs ts
  rw [layRoot, hollows, hleaves, hollowsAll_append, hollowsAll_map_token,
    hollowsAll_layAll rs ts more hk, List.append_nil]

/-- A record has the label of its node, and it covers nothing if the node is without
tokens. -/
def IsRecordOf (x : NodeRecord) (h : Label × Bool) : Prop :=
  x.label = h.1 ∧ (h.2 = true → x.span.isEmpty = true)

mutual

theorem forall₂_nodeRecords (parent : Option Nat) (p : Place) (r : Rose Token) :
    List.Forall₂ IsRecordOf (nodeRecords parent p r) r.hollows := by
  cases r with
  | token t => exact .nil
  | node label children =>
    refine .cons ⟨rfl, fun hempty => ?_⟩ (forall₂_nodeRecordsAll p.node (placeInside p) children)
    simp [Span.isEmpty, List.isEmpty_iff.mp hempty]

theorem forall₂_nodeRecordsAll (parent : Nat) (p : Place) (rs : List (Rose Token)) :
    List.Forall₂ IsRecordOf (nodeRecordsAll parent p rs) (hollowsAll rs) := by
  cases rs with
  | nil => exact .nil
  | cons r rs =>
    rw [nodeRecordsAll, hollowsAll]
    exact List.rel_append (forall₂_nodeRecords (some parent) p r)
      (forall₂_nodeRecordsAll parent (placeAfter p [r]) rs)

end

end Rose

end TemplateTree
