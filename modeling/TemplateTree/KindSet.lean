import TemplateTree.Kind

/-!
# Sets of kinds

A set is a word of 64 bits. Each kind has the bit at its index and the other bits
are not used, so two sets with the same members are the same word. Members are
listed in the order of the kinds, whatever order they were inserted in.
-/

namespace TemplateTree

structure KindSet where
  bits : BitVec 64
  /-- No bit is set but those of the kinds. -/
  getLsbD_of_count_le : ∀ i, Kind.count ≤ i → bits.getLsbD i = false
  deriving DecidableEq, Repr

namespace KindSet

def empty : KindSet := ⟨0#64, fun _ _ => BitVec.getLsbD_zero⟩

instance : EmptyCollection KindSet := ⟨empty⟩

instance : Inhabited KindSet := ⟨empty⟩

/-- The word whose only bit is that of `k`. -/
def mask (k : Kind) : BitVec 64 := 1#64 <<< k.index

theorem getLsbD_mask (k : Kind) (i : Nat) : (mask k).getLsbD i = decide (k.index = i) := by
  have hk : k.index < 64 := Nat.lt_trans k.index_lt_count (by decide)
  rw [mask, ← BitVec.twoPow_eq, BitVec.getLsbD_twoPow]
  simp [hk]

theorem getLsbD_mask_of_count_le (k : Kind) {i : Nat} (h : Kind.count ≤ i) :
    (mask k).getLsbD i = false := by
  rw [getLsbD_mask, decide_eq_false_iff_not]
  exact Nat.ne_of_lt (Nat.lt_of_lt_of_le k.index_lt_count h)

def insert (s : KindSet) (k : Kind) : KindSet where
  bits := s.bits ||| mask k
  getLsbD_of_count_le i h := by
    rw [BitVec.getLsbD_or, s.getLsbD_of_count_le i h, getLsbD_mask_of_count_le k h, Bool.or_false]

def union (s t : KindSet) : KindSet where
  bits := s.bits ||| t.bits
  getLsbD_of_count_le i h := by
    rw [BitVec.getLsbD_or, s.getLsbD_of_count_le i h, t.getLsbD_of_count_le i h, Bool.or_false]

def contains (s : KindSet) (k : Kind) : Bool := s.bits &&& mask k != 0

def isEmpty (s : KindSet) : Bool := s.bits == 0

instance : Membership Kind KindSet := ⟨fun s k => s.contains k = true⟩

instance (s : KindSet) (k : Kind) : Decidable (k ∈ s) :=
  inferInstanceAs (Decidable (s.contains k = true))

def ofList (kinds : List Kind) : KindSet := kinds.foldl insert empty

def ofArray (kinds : Array Kind) : KindSet := kinds.foldl insert empty

/-- The members, in the order of the kinds. -/
def toList (s : KindSet) : List Kind := Kind.all.filter s.contains

/-- Members between braces, separated by commas. -/
def text (s : KindSet) : String :=
  "\x7b" ++ ", ".intercalate (s.toList.map Kind.name) ++ "\x7d"

/-- The kinds at which skipping of unexpected tokens stops unless told
otherwise: every opening delimiter, and content. -/
def syncPoints : KindSet :=
  ofList [.openValue, .openBlock, .openEnd, .openInverse, .openPartial, .openRaw, .content]

/-- A set contains the kinds whose bits are set. -/
theorem contains_eq_getLsbD (s : KindSet) (k : Kind) : s.contains k = s.bits.getLsbD k.index := by
  have hmask : BitVec.twoPow 64 k.index ≠ 0#64 := by cases k <;> decide
  rw [contains, mask, ← BitVec.twoPow_eq, BitVec.and_twoPow]
  cases s.bits.getLsbD k.index <;> simp [hmask]

@[simp] theorem contains_empty (k : Kind) : empty.contains k = false := by
  simp [empty, contains_eq_getLsbD]

@[simp] theorem contains_insert (s : KindSet) (a k : Kind) :
    (s.insert a).contains k = (s.contains k || decide (k = a)) := by
  have h : decide (a.index = k.index) = decide (k = a) :=
    decide_eq_decide.mpr ⟨fun e => (Kind.index_injective e).symm, fun e => e ▸ rfl⟩
  simp [insert, contains_eq_getLsbD, getLsbD_mask, h]

@[simp] theorem contains_union (s t : KindSet) (k : Kind) :
    (s.union t).contains k = (s.contains k || t.contains k) := by
  simp [union, contains_eq_getLsbD]

@[simp] theorem mem_toList {s : KindSet} {k : Kind} : k ∈ s.toList ↔ k ∈ s := by
  show k ∈ Kind.all.filter s.contains ↔ s.contains k = true
  simp [Kind.mem_all]

end KindSet

end TemplateTree
