import TemplateTree.Proofs.Grammar.ExpressionGaps
import TemplateTree.Proofs.Grammar.StatementReading

/-!
# Tags by their opening delimiters

Each opening delimiter has a kind of tag to it, with a rule for what stands inside. An
opening delimiter starts its tag wherever a rule for the tag looks, and the tag goes
up to the next closing delimiter if no kind of the recovery set comes before that,
whatever else stands between the two. What is behind the closing delimiter has no
influence on the tag.
-/

namespace TemplateTree

open Rose

variable {ι : Type} {g : Gap ι} {R : KindSet} {ks : List Kind} {m : List (Option Kind)}

namespace Grammar

open Script

/-- The kinds of opening delimiters. -/
def opensTag (k : Kind) : Bool :=
  k = .openValue || k = .openRaw || k = .openPartial || k = .openBlock || k = .openInverse
    || k = .openEnd

/-- The kind of the tag that starts with an opening delimiter. -/
def tagKind : Kind → Kind
  | .openPartial => .partialTag
  | .openBlock => .blockTag
  | .openInverse => .inverseTag
  | .openEnd => .endTag
  | _ => .mustache

/-- The rule for what stands inside the tag. -/
def tagInside : Kind → Script Bool
  | .openPartial => partialPaths
  | .openEnd => path
  | _ => expression

/-- The rule for the tag that starts with an opening delimiter. -/
def tagAt (k : Kind) : Script Bool := tag k (tagKind k) (tagInside k)

/-- A mustache is a tag like the others where its opening delimiter is there. -/
theorem mustache_outcome_eq {k : Kind} (hk : k = .openValue ∨ k = .openRaw) (ks : List Kind) :
    mustache.outcome R (k :: ks) = (tagAt k).outcome R (k :: ks) := by
  have hopening : isMustacheOpening k = true := by
    rcases hk with rfl | rfl <;> rfl
  have htag : tagAt k = tag k .mustache expression := by
    rcases hk with rfl | rfl <;> rfl
  have hread : mustache.Ensures R (k :: ks) fun found rest f =>
      (tagAt k).outcome R (k :: ks) = ⟨found, rest, f⟩ := by
    rw [mustache, ensures_checkpoint, ensures_bind, ensures_current, List.headD_cons, hopening,
      if_pos rfl, ensures_bind, ensures_of_eq (leaf_outcome_cons k ks), ensures_bind]
    refine ensures_iff.mpr ?_
    rw [ensures_bind]
    refine ensures_iff.mpr (ensures_pure.mpr (ensures_eq_iff.mp ?_))
    rw [htag, tag, ensures_checkpoint, ensures_bind, ensures_of_eq (leaf_outcome_cons k ks),
      ensures_unless_true, ensures_bind]
    refine ensures_iff.mpr ?_
    rw [ensures_bind]
    exact ensures_iff.mpr (ensures_pure.mpr ⟨rfl, rfl, by simp⟩)
  exact (ensures_iff.mp hread).symm

theorem isInner_of_opensTag {k : Kind} (hk : opensTag k = true) : isInner k = false := by
  cases k <;> first | rfl | cases hk

theorem tagInside_blind [Nonempty ι] (hfirst : isInner g.first = false) (k : Kind)
    (m : List (Option Kind)) : Blind g R (fun _ => tagInside k) m := by
  have hpaths := partialPaths_blind (R := R) hfirst m
  have hpath := path_blind (R := R) hfirst m
  have hexpression := expression_blind (R := R) hfirst m
  cases k <;> first | exact hexpression | exact hpath | exact hpaths

/-- The inside of a tag ends before any token that has no place there. -/
theorem tagInside_halts {k : Kind} (hk : isInner k = false) (opening : Kind) (ks : List Kind) :
    Halts (tagInside opening) R k ks :=
  halts_of_blind (fun _ _ hfirst => tagInside_blind (by rw [hfirst, hk]) opening _) ks

/-- What holds of the kinds in front is passed over up to a kind of which it does not hold. -/
theorem span_append_cons {q : Kind → Bool} {k : Kind} (hk : q k = false) (ks later : List Kind) :
    (ks ++ k :: later).takeWhile q = ks.takeWhile q ∧
      (ks ++ k :: later).dropWhile q = ks.dropWhile q ++ k :: later := by
  induction ks with
  | nil => simp [hk]
  | cons k' ks ih => cases hk' : q k' <;> simp [hk', ih]

/-- An error for a closing delimiter that does not come where it should, over the tokens
that come instead. -/
def lateError (ks : List Kind) : Rose Kind :=
  .node (.failure (Problem.expected .close).message) (ks.map .token)

theorem leavesAll_lateError (ks : List Kind) (f : List (Rose Kind)) :
    leavesAll (lateError ks :: f) = ks ++ leavesAll f := by
  rw [leavesAll, lateError, leaves, leavesAll_map_token]

theorem leaf_outcome_late {k : Kind} (hk : k ≠ .close) (later : List Kind) :
    (leaf .close).outcome R (k :: ks ++ .close :: later) =
      ⟨false, readable (k :: ks) ++ .close :: later, [lateError (unreadable (k :: ks))]⟩ := by
  obtain ⟨htaken, hleft⟩ := span_append_cons (q := fun k => k = .invalid)
    (show decide (Kind.close = .invalid) = false from rfl) (k :: ks) later
  rw [leaf_outcome_ne (show (k :: ks ++ .close :: later).headD .endOfInput ≠ .close from hk),
    readable, unreadable, htaken, hleft]
  rfl

/-- Everything before the closing delimiter is skipped if the skipping does not stop there. -/
theorem skip_outcome_late (hks : ∀ k ∈ ks, passes R .close k = true) (later : List Kind) :
    (takeWhile (skips .close)).outcome R (ks ++ .close :: later) =
      ⟨(), .close :: later, ks.map .token⟩ := by
  have hclose : passes R .close .close = false := by simp [passes]
  rw [skip_outcome, List.takeWhile_append_of_pos hks, List.dropWhile_append_of_pos hks]
  simp [hclose]

/-- Where the closing delimiter is not yet there, what can be read is skipped up to it. -/
theorem greedyLeaf_outcome_late {taken skipped later : List Kind} {k : Kind}
    (hfirst : (leaf .close).outcome R ks =
      ⟨false, k :: skipped ++ .close :: later, [lateError taken]⟩)
    (hpasses : ∀ k' ∈ k :: skipped, passes R .close k' = true) :
    (greedyLeaf .close).outcome R ks =
      ⟨true, later, [lateError taken, lateError [], lateError (k :: skipped),
        Derivation.leaf .close]⟩ := by
  have hk : k ≠ .close := by
    rintro rfl
    simpa [passes] using hpasses .close (by simp)
  have hskip := skip_outcome_late (R := R) hpasses later
  apply ensures_eq_iff.mp
  rw [greedyLeaf, ensures_bind, ensures_of_eq hfirst]
  simp only [Bool.false_eq_true, if_false, ensures_bind, ensures_current]
  rw [List.cons_append, List.headD_cons, if_pos hk]
  simp only [ensures_bind, ensures_complain, ensures_checkpoint, ensures_left]
  rw [← List.cons_append, ensures_of_eq hskip]
  rw [if_pos (by simp only [List.length_append, List.length_cons]; omega)]
  simp only [ensures_pure, Problem.closing, reduceCtorEq, if_false, Closing.wrap]
  rw [ensures_of_eq (leaf_outcome_cons _ _)]
  simp [lateError]

/-- The search for a closing delimiter finds it behind kinds at which it does not stop. -/
theorem greedyLeaf_reads (hclose : .close ∉ ks) (hrecovery : ∀ k ∈ ks, R.contains k = false) :
    ∃ f, leavesAll f = ks ++ [.close] ∧
      ∀ later, (greedyLeaf .close).outcome R (ks ++ .close :: later) = ⟨true, later, f⟩ := by
  cases ks with
  | nil => exact ⟨[Derivation.leaf .close], rfl, fun later => greedyLeaf_outcome .close⟩
  | cons k ks =>
    have hk : k ≠ .close := fun he => hclose (he ▸ List.mem_cons_self)
    have hsplit : unreadable (k :: ks) ++ readable (k :: ks) = k :: ks :=
      List.takeWhile_append_dropWhile
    have hpasses : ∀ k' ∈ readable (k :: ks), passes R .close k' = true := by
      intro k' h
      have hmem : k' ∈ k :: ks := (List.dropWhile_sublist _).subset h
      have hne : k' ≠ .close := fun he => hclose (he ▸ hmem)
      rw [passes, hrecovery k' hmem, decide_eq_true hne]
      rfl
    have hfirst : ∀ later, (leaf .close).outcome R (k :: ks ++ .close :: later) =
        ⟨false, readable (k :: ks) ++ .close :: later, [lateError (unreadable (k :: ks))]⟩ :=
      leaf_outcome_late hk
    generalize unreadable (k :: ks) = taken at hfirst hsplit
    generalize readable (k :: ks) = rest at hfirst hsplit hpasses
    cases rest with
    | nil =>
      refine ⟨[lateError taken, Derivation.leaf .close], ?_, fun later => ?_⟩
      · rw [leavesAll_lateError, ← hsplit, List.append_nil]
        rfl
      · apply ensures_eq_iff.mp
        rw [greedyLeaf, ensures_bind, ensures_of_eq (hfirst later)]
        simp only [Bool.false_eq_true, if_false, ensures_bind, ensures_current]
        rw [List.nil_append, List.headD_cons, if_neg (not_not_intro rfl),
          ensures_of_eq (leaf_outcome_cons _ _)]
        exact ⟨rfl, rfl, rfl⟩
    | cons k' rest =>
      refine ⟨[lateError taken, lateError [], lateError (k' :: rest), Derivation.leaf .close], ?_,
        fun later => greedyLeaf_outcome_late (hfirst later) hpasses⟩
      rw [leavesAll_lateError, leavesAll_lateError, leavesAll_lateError, ← hsplit,
        List.append_assoc]
      rfl

/-- A tag ends with the next closing delimiter if no kind of the recovery set comes
before that. -/
theorem tagAt_reads {k : Kind} (hclose : .close ∉ ks) (hrecovery : ∀ k ∈ ks, R.contains k = false) :
    ∃ f, leavesAll f = ks ++ [.close] ∧ ∀ later,
      (tagAt k).outcome R (k :: (ks ++ .close :: later)) =
        ⟨true, later, [.node (.plain (tagKind k)) (Derivation.leaf k :: f)]⟩ := by
  obtain ⟨found, rest, f, rfl, hinside⟩ := tagInside_halts (R := R) (k := .close) rfl k ks
  have hclose' : .close ∉ rest := fun h => hclose (List.mem_append_right _ h)
  have hrecovery' : ∀ k ∈ rest, R.contains k = false :=
    fun k h => hrecovery k (List.mem_append_right _ h)
  obtain ⟨f', hf', hend⟩ := greedyLeaf_reads hclose' hrecovery'
  refine ⟨f ++ f', by rw [leavesAll_append, hf', List.append_assoc], fun later => ?_⟩
  apply ensures_eq_iff.mp
  rw [tagAt, tag, ensures_checkpoint, ensures_bind, ensures_of_eq (leaf_outcome_cons _ _),
    ensures_unless_true, ensures_bind, ensures_of_eq (hinside later), ensures_bind,
    ensures_of_eq (hend later)]
  exact ensures_pure.mpr ⟨rfl, rfl, by simp [Closing.wrap]⟩

end Grammar

end TemplateTree
