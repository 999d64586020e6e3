/-!
# Offsets and ranges of a text

Offsets count bytes and are 32-bit numbers: a sum that does not fit has no
value. A span is a half-open range of offsets. It cuts a piece out of a text
only where both of its ends lie between characters.
-/

namespace TemplateTree

/-- Offsets are smaller than this. -/
def offsetLimit : Nat := Nat.pow 2 32

/-- The offset that lies `length` bytes after `offset`. -/
def advance? (offset length : Nat) : Option Nat :=
  if offset + length < offsetLimit then some (offset + length) else none

theorem advance?_eq_some_iff {offset length stop : Nat} :
    advance? offset length = some stop ↔ offset + length = stop ∧ stop < offsetLimit := by
  unfold advance?
  split
  · rename_i hlt
    rw [Option.some_inj]
    exact ⟨fun h => ⟨h, h ▸ hlt⟩, And.left⟩
  · rename_i hge
    refine ⟨nofun, ?_⟩
    rintro ⟨rfl, hlt⟩
    exact absurd hlt hge

theorem advance?_eq_none_iff {offset length : Nat} :
    advance? offset length = none ↔ offsetLimit ≤ offset + length := by
  simp [advance?]

structure Span where
  start : Nat
  stop : Nat
  deriving DecidableEq, Repr, Inhabited

namespace Span

def isEmpty (s : Span) : Bool := s.start == s.stop

def length (s : Span) : Nat := s.stop - s.start

/-- Both ends with two dots between them. -/
def text (s : Span) : String := toString s.start ++ ".." ++ toString s.stop

end Span

/-- A byte offset of a text that lies between two characters or at an end. -/
def IsBoundary (source : String) (offset : Nat) : Prop :=
  ∃ before after : String, source = before ++ after ∧ before.utf8ByteSize = offset

theorem isBoundary_iff {source : String} {offset : Nat} :
    IsBoundary source offset ↔ (⟨offset⟩ : String.Pos.Raw).IsValid source := by
  rw [String.Pos.Raw.isValid_iff_exists_append]
  constructor
  · rintro ⟨a, b, h, rfl⟩
    exact ⟨a, b, h, rfl⟩
  · rintro ⟨a, b, h, e⟩
    exact ⟨a, b, h, by simpa using congrArg String.Pos.Raw.byteIdx e.symm⟩

instance (source : String) (offset : Nat) : Decidable (IsBoundary source offset) :=
  decidable_of_iff _ isBoundary_iff.symm

theorem isBoundary_zero (source : String) : IsBoundary source 0 :=
  ⟨"", source, String.empty_append.symm, rfl⟩

theorem IsBoundary.le {source : String} {offset : Nat} (h : IsBoundary source offset) :
    offset ≤ source.utf8ByteSize := by
  obtain ⟨before, after, rfl, rfl⟩ := h
  rw [String.utf8ByteSize_append]
  exact Nat.le_add_right _ _

/-- The piece of `source` that a span covers, if it cuts no character in two. -/
def Span.slice? (s : Span) (source : String) : Option String :=
  if h : IsBoundary source s.start ∧ IsBoundary source s.stop ∧ s.start ≤ s.stop then
    some (source.extract (source.pos ⟨s.start⟩ (isBoundary_iff.mp h.1))
      (source.pos ⟨s.stop⟩ (isBoundary_iff.mp h.2.1)))
  else none

theorem Span.slice?_isSome_iff {s : Span} {source : String} :
    (s.slice? source).isSome ↔
      IsBoundary source s.start ∧ IsBoundary source s.stop ∧ s.start ≤ s.stop := by
  unfold slice?
  split <;> simp_all

/-- A span that covers one of three texts laid end to end cuts that text out. -/
theorem Span.slice?_append (a b c : String) :
    Span.slice? ⟨a.utf8ByteSize, a.utf8ByteSize + b.utf8ByteSize⟩ (a ++ b ++ c) = some b := by
  have h₁ : IsBoundary (a ++ b ++ c) a.utf8ByteSize := ⟨a, b ++ c, String.append_assoc, rfl⟩
  have h₂ : IsBoundary (a ++ b ++ c) (a.utf8ByteSize + b.utf8ByteSize) :=
    ⟨a ++ b, c, rfl, String.utf8ByteSize_append⟩
  rw [Span.slice?, dif_pos ⟨h₁, h₂, Nat.le_add_right _ _⟩, Option.some_inj, ← String.toByteArray_inj]
  have h : a.toByteArray.extract a.utf8ByteSize (a.utf8ByteSize + b.utf8ByteSize) = .empty :=
    ByteArray.extract_eq_empty_iff.mpr (by simp)
  have hb : b.toByteArray.extract 0 b.utf8ByteSize = b.toByteArray := by
    rw [← String.size_toByteArray, ByteArray.extract_zero_size]
  simp [ByteArray.extract_append, h, hb]

end TemplateTree
