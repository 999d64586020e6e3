import TemplateTree.KindSet

/-!
# Sets of kinds as finite sets

A set is put together from lists and arrays of kinds, by inserting kinds, and by
unions. Whatever the order and the repetitions, the bits that are set in the end are
those of the kinds that were put in: the bits of two kinds differ, and no other bit
is ever set. So the word of a set is determined by the kinds that it contains, and
sets obey the laws of finite sets.
-/

namespace TemplateTree

namespace KindSet

variable {s t : KindSet}

/-- Every place before the last is the place of a kind. -/
theorem exists_index_eq {i : Nat} (h : i < Kind.count) : ∃ k : Kind, k.index = i := by
  have hi : i ∈ Kind.all.map Kind.index := by
    rw [Kind.map_index_all]
    exact List.mem_range.mpr h
  obtain ⟨k, -, hk⟩ := List.mem_map.mp hi
  exact ⟨k, hk⟩

/-- Sets that contain the same kinds are the same word. -/
@[ext] theorem ext (h : ∀ k, s.contains k = t.contains k) : s = t := by
  have hbits : s.bits = t.bits := by
    apply BitVec.eq_of_getLsbD_eq
    intro i _
    rcases Nat.lt_or_ge i Kind.count with hi | hi
    · obtain ⟨k, rfl⟩ := exists_index_eq hi
      rw [← contains_eq_getLsbD, ← contains_eq_getLsbD, h k]
    · rw [s.getLsbD_of_count_le i hi, t.getLsbD_of_count_le i hi]
  cases s
  cases t
  cases hbits
  rfl

theorem union_comm (s t : KindSet) : s.union t = t.union s := by
  ext k
  simp [Bool.or_comm]

theorem union_assoc (s t u : KindSet) : (s.union t).union u = s.union (t.union u) := by
  ext k
  simp [Bool.or_assoc]

theorem union_self (s : KindSet) : s.union s = s := by
  ext k
  simp

theorem contains_foldl_insert (kinds : List Kind) (s : KindSet) (k : Kind) :
    (kinds.foldl insert s).contains k = (s.contains k || decide (k ∈ kinds)) := by
  induction kinds generalizing s with
  | nil => simp
  | cons a kinds ih => simp [ih, Bool.or_assoc]

@[simp] theorem contains_ofList (kinds : List Kind) (k : Kind) :
    (ofList kinds).contains k = decide (k ∈ kinds) := by
  simp [ofList, contains_foldl_insert]

theorem ofArray_eq_ofList (kinds : Array Kind) : ofArray kinds = ofList kinds.toList := by
  unfold ofArray ofList
  exact (Array.foldl_toList _).symm

/-- Members are listed from the least to the greatest. -/
theorem pairwise_toList (s : KindSet) : s.toList.Pairwise fun a b => a.index < b.index := by
  have hall : (Kind.all.map Kind.index).Pairwise (· < ·) := by
    rw [Kind.map_index_all]
    exact List.pairwise_lt_range
  exact (List.pairwise_map.mp hall).filter _

theorem nodup_toList (s : KindSet) : s.toList.Nodup :=
  s.pairwise_toList.imp fun h he => absurd (congrArg Kind.index he) (Nat.ne_of_lt h)

theorem ofList_toList (s : KindSet) : ofList s.toList = s := by
  ext k
  rw [contains_ofList, Bool.eq_iff_iff, decide_eq_true_iff]
  exact mem_toList

theorem isEmpty_eq_true_iff : s.isEmpty = true ↔ s = empty := by
  unfold isEmpty
  rw [beq_iff_eq]
  constructor
  · intro h
    ext k
    simp [contains_eq_getLsbD, h, empty]
  · intro h
    rw [h]
    rfl

/-- A set without members is the empty word, and no other is. -/
theorem toList_eq_nil_iff : s.toList = [] ↔ s.isEmpty = true := by
  rw [isEmpty_eq_true_iff]
  constructor
  · intro h
    rw [← s.ofList_toList, h]
    rfl
  · intro h
    rw [h]
    rfl

/-- How a set is put together. -/
inductive Recipe where
  | empty
  | ofArray (kinds : Array Kind)
  | ofList (kinds : List Kind)
  | insert (r : Recipe) (k : Kind)
  | union (q r : Recipe)
  deriving DecidableEq, Repr

namespace Recipe

def set : Recipe → KindSet
  | empty => .empty
  | ofArray kinds => .ofArray kinds
  | ofList kinds => .ofList kinds
  | insert r k => r.set.insert k
  | union q r => q.set.union r.set

/-- The kinds that are put in, each as often as it is put in. -/
def kinds : Recipe → List Kind
  | empty => []
  | ofArray kinds => kinds.toList
  | ofList kinds => kinds
  | insert r k => r.kinds ++ [k]
  | union q r => q.kinds ++ r.kinds

/-- A set contains what was put into it. -/
theorem contains_set (r : Recipe) (k : Kind) : r.set.contains k = decide (k ∈ r.kinds) := by
  induction r with
  | empty => simp [set, kinds]
  | ofArray kinds => rw [set, ofArray_eq_ofList, contains_ofList, Recipe.kinds]
  | ofList kinds => rw [set, contains_ofList, Recipe.kinds]
  | insert r a ih => simp [set, kinds, ih]
  | union q r ihq ihr => simp [set, kinds, ihq, ihr]

/-- The sets that can be put together are the finite sets of kinds. A set contains what
was put in; it lists each member once, in the order of the kinds, and can be collected
again from the list; sets with the same members are equal, so unions are commutative,
associative and idempotent; and a set is empty if it lists nothing. -/
theorem set_algebra (a b c : Recipe) :
    (∀ k, a.set.contains k = true ↔ k ∈ a.kinds) ∧
      (∀ k, a.set.toList.count k = if k ∈ a.kinds then 1 else 0) ∧
      (a.set.toList.Pairwise fun j k => j.index < k.index) ∧
      KindSet.ofList a.set.toList = a.set ∧
      (a.set = b.set ↔ ∀ k, a.set.contains k = b.set.contains k) ∧
      a.set.union b.set = b.set.union a.set ∧
      (a.set.union b.set).union c.set = a.set.union (b.set.union c.set) ∧
      a.set.union a.set = a.set ∧
      (a.set.isEmpty = true ↔ a.set.toList = []) := by
  have hmem : ∀ k, a.set.contains k = true ↔ k ∈ a.kinds := by
    intro k
    rw [contains_set, decide_eq_true_iff]
  refine ⟨hmem, ?_, a.set.pairwise_toList, a.set.ofList_toList, ?_, a.set.union_comm b.set,
    a.set.union_assoc b.set c.set, a.set.union_self, toList_eq_nil_iff.symm⟩
  · intro k
    have hlisted : k ∈ a.set.toList ↔ k ∈ a.kinds := mem_toList.trans (hmem k)
    rw [a.set.nodup_toList.count]
    simp only [hlisted]
  · constructor
    · intro h k
      rw [h]
    · exact ext

example : ((Recipe.ofArray #[.openBlock, .openValue]).union
    ((Recipe.ofList [.close, .openValue, .close]).insert .placeholder)).set.toList =
      [.openValue, .openBlock, .close, .placeholder] := by decide

end Recipe

end KindSet

end TemplateTree
