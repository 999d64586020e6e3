import TemplateTree.Proofs.Tree.Arena

/-!
# Nesting

Of two nodes the one that opens later lies within the span of the other or begins where
that has ended, so two spans never overlap in part. In the table of a rose tree this
holds of any two records, and with it the records begin at offsets that never decrease.
-/

namespace TemplateTree

/-- The second span lies within the first or does not begin before the end of it. -/
def Span.Nests (s u : Span) : Prop := (s.start ≤ u.start ∧ u.stop ≤ s.stop) ∨ s.stop ≤ u.start

namespace Rose

/-- The span of a record keeps between two offsets. -/
def Keeps (start stop : Nat) (x : NodeRecord) : Prop :=
  start ≤ x.span.start ∧ x.span.start ≤ x.span.stop ∧ x.span.stop ≤ stop

theorem Keeps.mono {start stop start' stop' : Nat} {x : NodeRecord} (h : Keeps start stop x)
    (hstart : start' ≤ start) (hstop : stop ≤ stop') : Keeps start' stop' x :=
  ⟨Nat.le_trans hstart h.1, h.2.1, Nat.le_trans h.2.2 hstop⟩

mutual

theorem keeps_nodeRecords (parent : Option Nat) (p : Place) (r : Rose Token) :
    ∀ x ∈ nodeRecords parent p r, Keeps p.offset (p.offset + extent r.leaves) x := by
  cases r with
  | token t => exact fun x hx => nomatch hx
  | node label children =>
    have hchildren := keeps_nodeRecordsAll p.node (placeInside p) children
    intro x hx
    rcases List.mem_cons.mp hx with rfl | hx
    · exact ⟨Nat.le_refl _, Nat.le_add_right _ _, Nat.le_refl _⟩
    · exact hchildren x hx

/-- The nodes of a forest lie within the span of the forest. -/
theorem keeps_nodeRecordsAll (parent : Nat) (p : Place) (rs : List (Rose Token)) :
    ∀ x ∈ nodeRecordsAll parent p rs, Keeps p.offset (p.offset + extent (leavesAll rs)) x := by
  cases rs with
  | nil => exact fun x hx => nomatch hx
  | cons r rs =>
    have hfirst := keeps_nodeRecords (some parent) p r
    have hothers := keeps_nodeRecordsAll parent (placeAfter p [r]) rs
    have hafter : (placeAfter p [r]).offset = p.offset + extent r.leaves := by
      simp [placeAfter, leavesAll]
    rw [leavesAll, extent_append]
    intro x hx
    rcases List.mem_append.mp hx with hx | hx
    · exact (hfirst x hx).mono (Nat.le_refl _) (by omega)
    · exact (hothers x hx).mono (by omega) (by omega)

end

/-- The first of two records begins no later, and the second lies within it or behind it. -/
def InOrder (x y : NodeRecord) : Prop :=
  x.span.start ≤ y.span.start ∧ x.span.Nests y.span

mutual

theorem pairwise_nodeRecords (parent : Option Nat) (p : Place) (r : Rose Token) :
    (nodeRecords parent p r).Pairwise InOrder := by
  cases r with
  | token t => exact .nil
  | node label children =>
    have hchildren := keeps_nodeRecordsAll p.node (placeInside p) children
    refine List.pairwise_cons.mpr ⟨fun y hy => ?_, pairwise_nodeRecordsAll _ _ children⟩
    obtain ⟨hstart, -, hstop⟩ := hchildren y hy
    exact ⟨hstart, .inl ⟨hstart, hstop⟩⟩

/-- The nodes of a forest are in order. -/
theorem pairwise_nodeRecordsAll (parent : Nat) (p : Place) (rs : List (Rose Token)) :
    (nodeRecordsAll parent p rs).Pairwise InOrder := by
  cases rs with
  | nil => exact .nil
  | cons r rs =>
    have hafter : (placeAfter p [r]).offset = p.offset + extent r.leaves := by
      simp [placeAfter, leavesAll]
    refine List.pairwise_append.mpr ⟨pairwise_nodeRecords (some parent) p r,
      pairwise_nodeRecordsAll parent (placeAfter p [r]) rs, fun x hx y hy => ?_⟩
    obtain ⟨-, hle, hstop⟩ := keeps_nodeRecords (some parent) p r x hx
    obtain ⟨hstart, -, -⟩ := keeps_nodeRecordsAll parent (placeAfter p [r]) rs y hy
    have hbehind : x.span.stop ≤ y.span.start := by omega
    exact ⟨Nat.le_trans hle hbehind, .inr hbehind⟩

end

/-- The nodes of an arena are in order. -/
theorem pairwise_nodes_arena (text : String) (r : Rose Token) :
    (arena text r).nodes.toList.Pairwise InOrder :=
  pairwise_nodeRecords none .front r

end Rose

end TemplateTree
