import Mathlib.Order.Bounds.Basic
import TemplateTree.Proofs.Grammar.Derivation
import TemplateTree.Proofs.Grammar.StatementReading
import TemplateTree.Proofs.Rose.Laying
import TemplateTree.Proofs.Session.Frame

/-!
# The search for a token

A rule that skips on its way to a token of some kind has three loops: it passes over the
unreadable tokens at the cursor, it skips up to a token of that kind or of the recovery
set, and it passes over unreadable tokens again where the token is still not there. Taken
together they are one search, which ends with the first token of the kind and does not go
beyond a kind of the recovery set. Only unreadable tokens are passed over even if the
recovery set has them; if it does not, the place where the search stops is the first that
has the kind, or a kind of the recovery set, or the end of the input.
-/

namespace TemplateTree

open Rose

variable {R : KindSet} {kind : Kind} {ks : List Kind}

namespace Grammar

open Script

/-- An error for a token that is not where it should be, over the tokens there. -/
def errorOver (kind : Kind) (ks : List Kind) : Rose Kind :=
  .node (.failure (Problem.expected kind).message) (ks.map .token)

/-- Such an error if there are any tokens. -/
def errorsOver (kind : Kind) : List Kind → List (Rose Kind)
  | [] => []
  | k :: ks => [errorOver kind (k :: ks)]

@[simp] theorem errorsOver_nil (kind : Kind) : errorsOver kind [] = [] := rfl

@[simp] theorem leaves_errorOver (kind : Kind) (ks : List Kind) :
    (errorOver kind ks).leaves = ks :=
  leavesAll_map_token ks

@[simp] theorem leavesAll_errorsOver (kind : Kind) (ks : List Kind) :
    leavesAll (errorsOver kind ks) = ks := by
  cases ks with
  | nil => rfl
  | cons k ks => rw [errorsOver, leavesAll, leaves_errorOver, leavesAll, List.append_nil]

/-- The skipping stops at the token that is looked for. -/
theorem skip_eq_of_headD (h : ks.headD .endOfInput = kind) :
    ks.takeWhile (passes R kind) = [] ∧ ks.dropWhile (passes R kind) = ks := by
  cases ks with
  | nil => exact ⟨rfl, rfl⟩
  | cons k ks =>
    have hstop : passes R kind k = false := by
      rw [show kind = k from h.symm, passes]
      simp
    rw [List.takeWhile_cons_of_neg (by simp [hstop]), List.dropWhile_cons_of_neg (by simp [hstop])]
    exact ⟨rfl, rfl⟩

/-- Where the token is not at the cursor, the search leaves an error over the unreadable
tokens there. Unless the token comes next it leaves an error over nothing and one over what
it skips, and it then looks for the token once more. -/
theorem greedyLeaf_outcome_of_ne (h : ks.headD .endOfInput ≠ kind) :
    let retry := (leaf kind).outcome R ((readable ks).dropWhile (passes R kind))
    (greedyLeaf kind).outcome R ks =
      ⟨retry.result, retry.rest, errorOver kind (unreadable ks) ::
        ((if (readable ks).headD .endOfInput = kind then [] else [errorOver kind []])
          ++ errorsOver kind ((readable ks).takeWhile (passes R kind)) ++ retry.forest)⟩ := by
  intro retry
  apply ensures_eq_iff.mp
  rw [greedyLeaf, ensures_bind, ensures_of_eq (leaf_outcome_ne h)]
  simp only [Bool.false_eq_true, if_false, ensures_bind, ensures_current]
  by_cases hnext : (readable ks).headD .endOfInput = kind
  · obtain ⟨hskipped, hleft⟩ := skip_eq_of_headD (R := R) hnext
    have hretry : (leaf kind).outcome R (readable ks) = retry := by
      simp only [retry, hleft]
    rw [if_neg (not_not_intro hnext), if_pos hnext, ensures_of_eq hretry, hskipped]
    exact ⟨rfl, rfl, rfl⟩
  · rw [if_pos hnext, if_neg hnext]
    simp only [ensures_bind, ensures_complain, ensures_checkpoint, ensures_left,
      ensures_of_eq (skip_outcome _ _)]
    have hlength := congrArg List.length
      (List.takeWhile_append_dropWhile (p := passes R kind) (l := readable ks))
    rw [List.length_append] at hlength
    cases hskipped : (readable ks).takeWhile (passes R kind) with
    | nil =>
      rw [hskipped, List.length_nil] at hlength
      rw [if_neg (by omega)]
      exact ensures_pure.mpr (ensures_iff.mpr ⟨rfl, rfl, rfl⟩)
    | cons k skipped =>
      rw [hskipped, List.length_cons] at hlength
      rw [if_pos (by omega)]
      refine ensures_pure.mpr (ensures_iff.mpr ⟨rfl, rfl, ?_⟩)
      simp [errorOver, errorsOver, Problem.closing, Closing.wrap, retry]

theorem eq_invalid_of_mem_unreadable {k : Kind} (h : k ∈ unreadable ks) : k = .invalid :=
  of_decide_eq_true (List.all_eq_true.mp List.all_takeWhile k h)

/-- A kind that the search may take on its way. -/
def IsOnTheWay (R : KindSet) (kind k : Kind) : Prop :=
  k ≠ kind ∧ (R.contains k = true → k = .invalid)

/-- The rule takes a token of the kind at the end if it succeeds, and otherwise only tokens
that are on the way. -/
def Seeks (rule : Script Bool) (kind : Kind) (R : KindSet) (ks : List Kind) : Prop :=
  rule.Ensures R ks fun found _ f => ∃ passed,
    leavesAll f = passed ++ (if found then [kind] else []) ∧ ∀ k ∈ passed, IsOnTheWay R kind k

theorem unreadable_isOnTheWay (hinvalid : kind ≠ .invalid) :
    ∀ k ∈ unreadable ks, IsOnTheWay R kind k := by
  intro k hk
  obtain rfl := eq_invalid_of_mem_unreadable hk
  exact ⟨hinvalid.symm, fun _ => rfl⟩

theorem isOnTheWay_of_passes {k : Kind} (h : passes R kind k = true) : IsOnTheWay R kind k := by
  obtain ⟨hne, hrecovery⟩ := Bool.and_eq_true_iff.mp h
  refine ⟨of_decide_eq_true hne, fun hcontains => ?_⟩
  rw [hcontains] at hrecovery
  cases hrecovery

theorem leaf_seeks (hkind : kind ≠ .endOfInput) (hinvalid : kind ≠ .invalid) (ks : List Kind) :
    Seeks (leaf kind) kind R ks := by
  obtain ⟨rest, rfl, h⟩ | ⟨-, h⟩ := leaf_cases (R := R) kind hkind ks
  · exact (ensures_of_eq h).mpr ⟨[], rfl, List.forall_mem_nil _⟩
  · refine (ensures_of_eq h).mpr ⟨unreadable ks, ?_, unreadable_isOnTheWay hinvalid⟩
    show leavesAll [errorOver kind (unreadable ks)] = _
    simp [leavesAll]

theorem greedyLeaf_seeks (hkind : kind ≠ .endOfInput) (hinvalid : kind ≠ .invalid)
    (ks : List Kind) : Seeks (greedyLeaf kind) kind R ks := by
  by_cases h : ks.headD .endOfInput = kind
  · obtain ⟨rest, rfl⟩ := exists_eq_cons_of_headD h hkind
    exact (ensures_of_eq (greedyLeaf_outcome kind)).mpr ⟨[], rfl, List.forall_mem_nil _⟩
  · obtain ⟨passed, hretry, hpassed⟩ := ensures_iff.mp (leaf_seeks (R := R) hkind hinvalid
      ((readable ks).dropWhile (passes R kind)))
    refine (ensures_of_eq (greedyLeaf_outcome_of_ne h)).mpr ⟨unreadable ks
      ++ ((readable ks).takeWhile (passes R kind) ++ passed), ?_, ?_⟩
    · have hreport : leavesAll (if (readable ks).headD .endOfInput = kind then []
          else [errorOver kind []]) = [] := by
        split
        · rfl
        · rfl
      rw [leavesAll, leavesAll_append, leavesAll_append, leaves_errorOver, hreport,
        leavesAll_errorsOver, hretry]
      simp
    · intro k hk
      obtain hk | hk := List.mem_append.mp hk
      · exact unreadable_isOnTheWay hinvalid k hk
      · obtain hk | hk := List.mem_append.mp hk
        · exact isOnTheWay_of_passes (List.all_eq_true.mp List.all_takeWhile k hk)
        · exact hpassed k hk

/-- Where the skipping has stopped, a second look finds the token or nothing. -/
theorem leaf_outcome_stop (hkind : kind ≠ .endOfInput) (hinvalid : kind ≠ .invalid)
    (hrecovery : R.contains .invalid = false) (ks : List Kind) :
    let stop := ks.dropWhile (passes R kind)
    (leaf kind).outcome R stop =
      if stop.headD .endOfInput = kind then ⟨true, stop.tail, [Derivation.leaf kind]⟩
      else ⟨false, stop, [errorOver kind []]⟩ := by
  intro stop
  by_cases h : stop.headD .endOfInput = kind
  · obtain ⟨later, hlater⟩ := exists_eq_cons_of_headD h hkind
    rw [if_pos h, hlater, leaf_outcome_cons]
    rfl
  · have hnone : unreadable stop = [] ∧ readable stop = stop := by
      cases hstop : stop with
      | nil => exact ⟨rfl, rfl⟩
      | cons k later =>
        have hhead := List.head?_dropWhile_not (passes R kind) ks
        rw [show ks.dropWhile (passes R kind) = k :: later from hstop] at hhead
        have hne : ¬ decide (k = .invalid) = true := by
          intro hk
          obtain rfl := of_decide_eq_true hk
          simp [passes, hrecovery, hinvalid.symm] at hhead
        exact ⟨List.takeWhile_cons_of_neg hne, List.dropWhile_cons_of_neg hne⟩
    rw [if_neg h, leaf_outcome_ne h, hnone.1, hnone.2]
    rfl

/-- The trees that hold any tokens. -/
def holding (f : List (Rose Kind)) : List (Rose Kind) := f.filter fun r => !r.leaves.isEmpty

@[simp] theorem holding_nil : holding [] = [] := rfl

@[simp] theorem holding_append (f g : List (Rose Kind)) :
    holding (f ++ g) = holding f ++ holding g :=
  List.filter_append f g

@[simp] theorem holding_errorOver (kind : Kind) (ks : List Kind) (f : List (Rose Kind)) :
    holding (errorOver kind ks :: f) = errorsOver kind ks ++ holding f := by
  cases ks with
  | nil => rfl
  | cons k ks => rfl

@[simp] theorem holding_errorsOver (kind : Kind) (ks : List Kind) :
    holding (errorsOver kind ks) = errorsOver kind ks := by
  cases ks with
  | nil => rfl
  | cons k ks => rfl

theorem not_errorFree_errorOver (kind : Kind) (ks : List Kind) (f : List (Rose Kind)) :
    ¬ ErrorFree (errorOver kind ks :: f) :=
  fun h => (errorFree_node.mp h).1 rfl

/-- If the recovery set has no unreadable tokens, the search stops at the first token that
has the kind or is in the recovery set. It leaves errors over nothing, one over the
unreadable tokens at the cursor and one over what else is before that token. -/
theorem greedyLeaf_stops (hkind : kind ≠ .endOfInput) (hinvalid : kind ≠ .invalid)
    (herror : kind ≠ .error) (hrecovery : R.contains .invalid = false) (ks : List Kind) :
    let stop := ks.dropWhile (passes R kind)
    (greedyLeaf kind).Ensures R ks fun found rest f =>
      (found = true ↔ stop.headD .endOfInput = kind) ∧
        rest = (if stop.headD .endOfInput = kind then stop.tail else stop) ∧
        (ErrorFree f ↔ ks.headD .endOfInput = kind) ∧
        ∃ others, ks.takeWhile (passes R kind) = unreadable ks ++ others ∧
          holding f = errorsOver kind (unreadable ks) ++ errorsOver kind others
            ++ if found then [Derivation.leaf kind] else [] := by
  intro stop
  by_cases h : ks.headD .endOfInput = kind
  · obtain ⟨hskipped, hstop⟩ := skip_eq_of_headD (R := R) h
    obtain ⟨later, rfl⟩ := exists_eq_cons_of_headD h hkind
    have hnone : unreadable (kind :: later) = [] :=
      List.takeWhile_cons_of_neg (by simpa using hinvalid)
    rw [ensures_of_eq (greedyLeaf_outcome kind)]
    simp only [stop, hstop, hskipped, hnone, List.headD_cons, if_true, true_and]
    refine ⟨rfl, iff_of_true (Derivation.errorFree_leaf herror) trivial, [], rfl, rfl⟩
  · have hpasses : ∀ k ∈ unreadable ks, passes R kind k = true := by
      intro k hk
      obtain rfl := eq_invalid_of_mem_unreadable hk
      simp [passes, hrecovery, hinvalid.symm]
    have hsplit : unreadable ks ++ readable ks = ks := List.takeWhile_append_dropWhile
    have htaken : ks.takeWhile (passes R kind) =
        unreadable ks ++ (readable ks).takeWhile (passes R kind) := by
      conv_lhs => rw [← hsplit]
      exact List.takeWhile_append_of_pos hpasses
    have hstop : stop = (readable ks).dropWhile (passes R kind) := by
      simp only [stop]
      conv_lhs => rw [← hsplit]
      exact List.dropWhile_append_of_pos hpasses
    have hretry := leaf_outcome_stop hkind hinvalid hrecovery (readable ks)
    have houtcome := greedyLeaf_outcome_of_ne (R := R) h
    simp only [← hstop] at hretry houtcome
    have hholding : ∀ f, holding (errorOver kind (unreadable ks) ::
        ((if (readable ks).headD .endOfInput = kind then [] else [errorOver kind []])
          ++ errorsOver kind ((readable ks).takeWhile (passes R kind)) ++ f)) =
        errorsOver kind (unreadable ks)
          ++ errorsOver kind ((readable ks).takeWhile (passes R kind)) ++ holding f := by
      intro f
      split
      · simp
      · simp
    rw [ensures_of_eq houtcome, hretry]
    have hfree : ∀ f, ErrorFree (errorOver kind (unreadable ks) :: f) ↔
        ks.headD .endOfInput = kind := fun f => iff_of_false (not_errorFree_errorOver _ _ f) h
    by_cases hfound : stop.headD .endOfInput = kind
    · simp only [if_pos hfound]
      exact ⟨iff_of_true trivial hfound, trivial, hfree _, _, htaken, hholding _⟩
    · simp only [if_neg hfound]
      exact ⟨iff_of_false Bool.false_ne_true hfound, trivial, hfree _, _, htaken, hholding _⟩

end Grammar

namespace Session

variable {s : Session} {taken later : List Kind}

/-- The kinds from the cursor on, by their places. -/
theorem kindAt_eq_getD (s : Session) {i : Nat} (h : s.cursor ≤ i) :
    s.stream.kindAt i = s.rest.getD (i - s.cursor) .endOfInput := by
  rw [TokenStream.kindAt_eq_getD, rest, List.getD_eq_getElem?_getD, List.getD_eq_getElem?_getD,
    List.getElem?_drop, Nat.add_sub_cancel' h]

theorem getElem?_of_append_eq_rest (h : taken ++ later = s.rest) {i : Nat} (hle : s.cursor ≤ i)
    (hlt : i < s.cursor + taken.length) : taken[i - s.cursor]? = some (s.stream.kindAt i) := by
  have hindex : i - s.cursor < taken.length := by omega
  rw [s.kindAt_eq_getD hle, ← h, List.getD_eq_getElem?_getD, List.getElem?_append_left hindex,
    List.getElem?_eq_getElem hindex, Option.getD_some]

theorem headD_of_append_eq_rest (h : taken ++ later = s.rest) :
    later.headD .endOfInput = s.stream.kindAt (s.cursor + taken.length) := by
  rw [s.kindAt_eq_getD (Nat.le_add_right _ _), ← h, Nat.add_sub_cancel_left,
    List.getD_eq_getElem?_getD, List.getElem?_append_right (Nat.le_refl _), Nat.sub_self,
    ← List.head?_eq_getElem?, List.headD_eq_head?_getD]

end Session

namespace Grammar

open Script

/-- The place where a search has to stop: the first from the cursor on that has the kind, or
a kind of the recovery set, or is the end of the input. -/
def IsStop (s : Session) (kind : Kind) (place : Nat) : Prop :=
  IsLeast {i | s.cursor ≤ i ∧ (s.stream.size ≤ i ∨ s.stream.kindAt i = kind ∨
    s.stream.kindAt i ∈ s.recovery)} place

/-- It comes behind what the skipping passes over. -/
theorem isStop_length_takeWhile (s : Session) (kind : Kind) :
    IsStop s kind (s.cursor + (s.rest.takeWhile (passes s.recovery kind)).length) := by
  have hsplit : s.rest.takeWhile (passes s.recovery kind)
      ++ s.rest.dropWhile (passes s.recovery kind) = s.rest := List.takeWhile_append_dropWhile
  have hlength := congrArg List.length hsplit
  rw [List.length_append, s.length_rest] at hlength
  constructor
  · refine ⟨Nat.le_add_right _ _, ?_⟩
    rw [← Session.headD_of_append_eq_rest hsplit]
    cases hstop : s.rest.dropWhile (passes s.recovery kind) with
    | nil =>
      rw [hstop, List.length_nil] at hlength
      exact .inl (by omega)
    | cons k later =>
      have hnot := List.head?_dropWhile_not (passes s.recovery kind) s.rest
      rw [hstop] at hnot
      by_cases hk : k = kind
      · exact .inr (.inl hk)
      · have hmem : s.recovery.contains k = true := by simpa [passes, hk] using hnot
        exact .inr (.inr hmem)
  · intro i hi
    obtain ⟨hle, hi⟩ := hi
    by_contra hlt
    have hkind := List.mem_of_getElem?
      (Session.getElem?_of_append_eq_rest hsplit hle (Nat.lt_of_not_le hlt))
    have hpasses := List.all_eq_true.mp List.all_takeWhile _ hkind
    obtain ⟨hne, hrecovery⟩ := Bool.and_eq_true_iff.mp hpasses
    obtain hend | hfound | hmem := hi
    · omega
    · exact of_decide_eq_true hne hfound
    · rw [show s.recovery.contains (s.stream.kindAt i) = true from hmem] at hrecovery
      cases hrecovery

/-- The rule takes no kind of the recovery set on its way to a token but unreadable tokens. It
takes at most one token of the kind, and only as the last one, and it succeeds exactly if it
takes one. -/
theorem Seeks.run {rule : Script Bool} {s : Session} (h : Seeks rule kind s.recovery s.rest) :
    (∀ i, s.cursor ≤ i → i < (rule.run s).2.cursor → s.stream.kindAt i ∈ s.recovery →
      s.stream.kindAt i = kind ∨ s.stream.kindAt i = .invalid) ∧
    (∀ i, s.cursor ≤ i → i < (rule.run s).2.cursor → s.stream.kindAt i = kind →
      i + 1 = (rule.run s).2.cursor ∧ (rule.run s).1 = true) ∧
    ((rule.run s).1 = true →
      ∃ i, s.cursor ≤ i ∧ i < (rule.run s).2.cursor ∧ s.stream.kindAt i = kind) := by
  obtain ⟨passed, htaken, hpassed⟩ := ensures_iff.mp h
  have hrest := leavesAll_append_rest s.recovery rule s.rest
  rw [cursor_run, fst_run]
  rw [htaken] at hrest ⊢
  generalize (rule.outcome s.recovery s.rest).result = found at hrest ⊢
  have hmem : ∀ i, s.cursor ≤ i → i < s.cursor + (passed ++ if found then [kind] else []).length →
      i < s.cursor + passed.length ∧ IsOnTheWay s.recovery kind (s.stream.kindAt i) ∨
        i = s.cursor + passed.length ∧ found = true ∧ s.stream.kindAt i = kind := by
    intro i hle hlt
    have hkind := Session.getElem?_of_append_eq_rest hrest hle hlt
    by_cases hi : i < s.cursor + passed.length
    · rw [List.getElem?_append_left (by omega)] at hkind
      exact .inl ⟨hi, hpassed _ (List.mem_of_getElem? hkind)⟩
    · cases found with
      | false =>
        rw [List.length_append] at hlt
        exact absurd hlt hi
      | true =>
        rw [List.length_append] at hlt
        have hi' : i = s.cursor + passed.length := by
          simp only [if_true, List.length_singleton] at hlt
          omega
        subst hi'
        rw [Nat.add_sub_cancel_left, List.getElem?_append_right (Nat.le_refl _), Nat.sub_self]
          at hkind
        exact .inr ⟨rfl, rfl, (Option.some.inj hkind).symm⟩
  refine ⟨fun i hle hlt hi => ?_, fun i hle hlt hi => ?_, fun hfound => ?_⟩
  · obtain ⟨-, hway⟩ | ⟨-, -, hkind⟩ := hmem i hle hlt
    · exact .inr (hway.2 hi)
    · exact .inl hkind
  · obtain ⟨-, hway⟩ | ⟨hi', rfl, -⟩ := hmem i hle hlt
    · exact absurd hi hway.1
    · rw [List.length_append, hi']
      exact ⟨rfl, rfl⟩
  · subst hfound
    have hlt : s.cursor + passed.length < s.cursor + (passed ++ [kind]).length := by simp
    obtain ⟨hnot, -⟩ | ⟨-, -, hkind⟩ := hmem _ (Nat.le_add_right _ _) hlt
    · exact absurd hnot (Nat.lt_irrefl _)
    · exact ⟨_, Nat.le_add_right _ _, hlt, hkind⟩

/-- What the search leaves in a session, if the recovery set has no unreadable tokens. -/
theorem greedyLeaf_run (s : Session) (hkind : kind ≠ .endOfInput) (hinvalid : kind ≠ .invalid)
    (herror : kind ≠ .error) (hrecovery : s.recovery.contains .invalid = false) :
    let run := (greedyLeaf kind).run s
    ∃ place f others, IsStop s kind place ∧
      (run.1 = true ↔ s.stream.kindAt place = kind) ∧
      run.2.cursor = (if s.stream.kindAt place = kind then place + 1 else place) ∧
      (greedyLeaf kind).Records s run.1 f ∧
      (ErrorFree f ↔ s.current = kind) ∧
      s.rest.take (place - s.cursor) = unreadable s.rest ++ others ∧
      holding f = errorsOver kind (unreadable s.rest) ++ errorsOver kind others
        ++ if run.1 then [Derivation.leaf kind] else [] := by
  intro run
  obtain ⟨hfound, hrest, hfree, others, htaken, hholding⟩ :=
    ensures_iff.mp (greedyLeaf_stops hkind hinvalid herror hrecovery s.rest)
  have hsplit : s.rest.takeWhile (passes s.recovery kind)
      ++ s.rest.dropWhile (passes s.recovery kind) = s.rest := List.takeWhile_append_dropWhile
  have hhead := Session.headD_of_append_eq_rest hsplit
  have hcurrent : s.rest.headD .endOfInput = s.current := s.stream.headD_drop_kinds s.cursor
  have hlength := congrArg List.length hsplit
  rw [List.length_append] at hlength
  have hleaves := length_leavesAll s.recovery (greedyLeaf kind) s.rest
  have hresult : run.1 = ((greedyLeaf kind).outcome s.recovery s.rest).result := fst_run _ s
  have hcursor : run.2.cursor = _ := cursor_run (greedyLeaf kind) s
  have hrecords : (greedyLeaf kind).Records s run.1
      ((greedyLeaf kind).outcome s.recovery s.rest).forest := by
    rw [hresult]
    exact records_of_outcome_eq rfl
  rw [hhead] at hfound hrest
  rw [hcurrent] at hfree
  rw [← hresult] at hfound hholding
  refine ⟨_, _, others, isStop_length_takeWhile s kind, hfound, ?_, hrecords, hfree, ?_, hholding⟩
  · rw [hcursor]
    rw [hrest] at hleaves
    by_cases h : s.stream.kindAt
        (s.cursor + (s.rest.takeWhile (passes s.recovery kind)).length) = kind
    · obtain ⟨later, hlater⟩ := exists_eq_cons_of_headD (hhead.trans h) hkind
      rw [if_pos h, hlater, List.tail_cons] at hleaves
      rw [hlater, List.length_cons] at hlength
      rw [if_pos h]
      omega
    · rw [if_neg h] at hleaves
      rw [if_neg h]
      omega
  · rw [Nat.add_sub_cancel_left, ← htaken]
    exact (List.prefix_iff_eq_take.mp (List.takeWhile_prefix _)).symm

/-- Greedy recovery stops at the next synchronization point. Whatever the recovery set is, the
search for a token takes no kind of it on the way but unreadable tokens, it takes at most one
token of the kind and only as the last one, and it succeeds exactly if it takes one. If the
recovery set has no unreadable tokens, the search goes up to the first place that has the kind,
or a kind of the recovery set, or is the end of the input. It succeeds exactly if the kind is
there, and takes it. It records no error exactly if the kind is at the cursor. All that is
before the place is in two errors, one over the unreadable tokens at the cursor and one over
everything else, neither of which is there if there is nothing for it to hold; any other error
holds nothing. -/
theorem greedyLeaf_searches (s : Session) {kind : Kind} (hterminal : kind.isTerminal = true)
    (hinvalid : kind ≠ .invalid) :
    let run := (greedyLeaf kind).run s
    (∀ i, s.cursor ≤ i → i < run.2.cursor → s.stream.kindAt i ∈ s.recovery →
      s.stream.kindAt i = kind ∨ s.stream.kindAt i = .invalid) ∧
    (∀ i, s.cursor ≤ i → i < run.2.cursor → s.stream.kindAt i = kind → i + 1 = run.2.cursor) ∧
    (run.1 = true ↔ ∃ i, s.cursor ≤ i ∧ i < run.2.cursor ∧ s.stream.kindAt i = kind) ∧
    (.invalid ∉ s.recovery → ∃ place f others, IsStop s kind place ∧
      (run.1 = true ↔ s.stream.kindAt place = kind) ∧
      run.2.cursor = (if s.stream.kindAt place = kind then place + 1 else place) ∧
      (greedyLeaf kind).Records s run.1 f ∧
      (ErrorFree f ↔ s.current = kind) ∧
      s.rest.take (place - s.cursor) = unreadable s.rest ++ others ∧
      holding f = errorsOver kind (unreadable s.rest) ++ errorsOver kind others
        ++ if run.1 then [Derivation.leaf kind] else []) := by
  intro run
  have hkind : kind ≠ .endOfInput := by
    rintro rfl
    cases hterminal
  have herror : kind ≠ .error := by
    rintro rfl
    cases hterminal
  obtain ⟨hway, hlast, htakes⟩ := (greedyLeaf_seeks hkind hinvalid s.rest).run
  refine ⟨hway, fun i hle hlt hi => (hlast i hle hlt hi).1, ⟨htakes, fun h => ?_⟩, fun h => ?_⟩
  · obtain ⟨i, hle, hlt, hi⟩ := h
    exact (hlast i hle hlt hi).2
  · exact greedyLeaf_run s hkind hinvalid herror (Bool.eq_false_iff.mpr h)

/-- Behind two unreadable tokens there are an identifier and another unreadable token before the
closing delimiter. -/
theorem greedyLeaf_searches_close :
    let s : Session :=
      ⟨⟨"\x7b\x7b##a#\x7d\x7dx", #[⟨.openValue, 2⟩, ⟨.invalid, 1⟩, ⟨.invalid, 1⟩, ⟨.ident, 1⟩,
        ⟨.invalid, 1⟩, ⟨.close, 2⟩, ⟨.content, 1⟩], #[0, 1, 2, 3, 4, 5, 6], by decide⟩,
        .syncPoints, 1, #[.placeholder]⟩
    Kind.isTerminal .close = true ∧ Kind.close ≠ .invalid ∧ Kind.invalid ∉ s.recovery ∧
      ∃ place f others, IsStop s .close place ∧
        (((greedyLeaf .close).run s).1 = true ↔ s.stream.kindAt place = .close) ∧
        ((greedyLeaf .close).run s).2.cursor =
          (if s.stream.kindAt place = .close then place + 1 else place) ∧
        (greedyLeaf .close).Records s ((greedyLeaf .close).run s).1 f ∧
        (ErrorFree f ↔ s.current = .close) ∧
        s.rest.take (place - s.cursor) = unreadable s.rest ++ others ∧
        holding f = errorsOver .close (unreadable s.rest) ++ errorsOver .close others
          ++ if ((greedyLeaf .close).run s).1 then [Derivation.leaf .close] else [] := by
  intro s
  have hterminal : Kind.isTerminal .close = true := rfl
  have hinvalid : Kind.close ≠ .invalid := by decide
  have hrecovery : Kind.invalid ∉ s.recovery := by decide
  obtain ⟨-, -, -, hstops⟩ := greedyLeaf_searches s hterminal hinvalid
  exact ⟨hterminal, hinvalid, hrecovery, hstops hrecovery⟩

end Grammar

end TemplateTree
