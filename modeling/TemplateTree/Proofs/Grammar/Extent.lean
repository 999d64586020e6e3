import Mathlib.Data.Nat.Find
import TemplateTree.Proofs.Grammar.Search
import TemplateTree.Proofs.Grammar.Tags

/-!
# How far a tag goes

A tag that has started goes up to the next closing delimiter, and takes it, or it
ends before the next kind of the recovery set or with the input, whichever comes
first. The rule for the inside may fail anywhere on the way: it takes none but the
kinds that a tag is made of, and whatever it leaves is skipped. Provided that the
recovery set has none of these kinds, the end of a tag is therefore the same for all
that may stand inside.
-/

namespace TemplateTree

open Rose

variable {R : KindSet} {ks : List Kind}

namespace Grammar

open Script

/-- The rule for the tag that starts with an opening delimiter, by its name. -/
def tagRule : Kind → Rule
  | .openPartial => .partialTag
  | .openBlock => .blockTag
  | .openInverse => .inverseTag
  | .openEnd => .endTag
  | _ => .mustache

theorem tagRule_outcome {k : Kind} (hk : opensTag k = true) (ks : List Kind) :
    (tagRule k).script.outcome R (k :: ks) = (tagAt k).outcome R (k :: ks) := by
  cases k with
  | openValue => exact mustache_outcome_eq (.inl rfl) ks
  | openRaw => exact mustache_outcome_eq (.inr rfl) ks
  | openPartial => rfl
  | openBlock => rfl
  | openInverse => rfl
  | openEnd => rfl
  | _ => cases hk

/-- What is left behind a tag, of the kinds behind its opening delimiter: the search for
the closing delimiter takes that one, and stops before a kind of the recovery set. -/
def afterTag (R : KindSet) (ks : List Kind) : List Kind :=
  match ks.dropWhile (passes R .close) with
  | .close :: later => later
  | rest => rest

@[simp] theorem afterTag_nil : afterTag R [] = [] := rfl

theorem afterTag_cons_of_passes {k : Kind} (h : passes R .close k = true) :
    afterTag R (k :: ks) = afterTag R ks := by
  rw [afterTag, List.dropWhile_cons_of_pos h, afterTag]

theorem afterTag_append {taken : List Kind} (h : ∀ k ∈ taken, passes R .close k = true) :
    afterTag R (taken ++ ks) = afterTag R ks := by
  rw [afterTag, List.dropWhile_append_of_pos h, afterTag]

@[simp] theorem afterTag_close : afterTag R (.close :: ks) = ks := by
  simp [afterTag, passes]

theorem afterTag_cons_of_ne {k : Kind} (hpasses : passes R .close k = false) (hk : k ≠ .close) :
    afterTag R (k :: ks) = k :: ks := by
  rw [afterTag, List.dropWhile_cons_of_neg (by rw [hpasses]; exact Bool.false_ne_true)]
  split
  · rename_i heq
    exact absurd (List.cons.inj heq).1 hk
  · rfl

theorem afterTag_eq (R : KindSet) (ks : List Kind) :
    let stop := ks.dropWhile (passes R .close)
    afterTag R ks = if stop.headD .endOfInput = .close then stop.tail else stop := by
  intro stop
  rw [afterTag]
  cases hstop : ks.dropWhile (passes R .close) with
  | nil => simp [stop, hstop]
  | cons k later =>
    simp only [stop, hstop, List.headD_cons, List.tail_cons]
    split
    · rename_i heq
      rw [List.cons.injEq] at heq
      rw [if_pos heq.1, heq.2]
    · rename_i hnot
      rw [if_neg fun hk => hnot later (by rw [hk])]

/-- The search for the closing delimiter ends where the tag does. -/
theorem greedyLeaf_rest (hinvalid : R.contains .invalid = false) (ks : List Kind) :
    (greedyLeaf .close).Ensures R ks fun _ rest _ => rest = afterTag R ks := by
  rw [afterTag_eq]
  have hclose : Kind.close ≠ .endOfInput ∧ Kind.close ≠ .invalid ∧ Kind.close ≠ .error := by
    decide
  exact (greedyLeaf_stops hclose.1 hclose.2.1 hclose.2.2 hinvalid ks).mono fun _ _ _ h => h.2.1

/-- The inside of a tag is made of nothing but the kinds that have a place there. -/
theorem tagInside_inner (opening : Kind) (ks : List Kind) :
    (tagInside opening).Ensures R ks fun _ _ f => ∀ k ∈ leavesAll f, isInner k = true := by
  have hinner : ∀ k ∈ ks.takeWhile isInner, isInner k = true :=
    List.all_eq_true.mp List.all_takeWhile
  have hsplit : ks.takeWhile isInner ++ ks.dropWhile isInner = ks :=
    List.takeWhile_append_dropWhile
  cases hlater : ks.dropWhile isInner with
  | nil =>
    rw [hlater, List.append_nil] at hsplit
    rw [hsplit] at hinner
    refine ensures_iff.mpr fun k hk => hinner k ?_
    rw [← leavesAll_append_rest R (tagInside opening) ks]
    exact List.mem_append_left _ hk
  | cons k later =>
    have hk : isInner k = false := by
      have hhead := List.head?_dropWhile_not isInner ks
      rw [hlater] at hhead
      simpa using hhead
    obtain ⟨found, rest, f, htaken, houtcome⟩ :=
      tagInside_halts (R := R) hk opening (ks.takeWhile isInner)
    rw [← hsplit, hlater, ensures_of_eq (houtcome later)]
    intro k' hk'
    exact hinner k' (htaken ▸ List.mem_append_left _ hk')

/-- A tag that has started succeeds, and where it ends has nothing to do with what
stands inside. -/
theorem tagAt_outcome {k : Kind} (hR : ∀ k, isInner k = true → R.contains k = false)
    (ks : List Kind) :
    ∃ contents, (tagAt k).outcome R (k :: ks) =
      ⟨true, afterTag R ks, [.node (.plain (tagKind k)) (Derivation.leaf k :: contents)]⟩ := by
  let inside := (tagInside k).outcome R ks
  let closing := (greedyLeaf .close).outcome R inside.rest
  have hpasses : ∀ k' ∈ leavesAll inside.forest, passes R .close k' = true := by
    intro k' hk'
    have hinner := ensures_iff.mp (tagInside_inner (R := R) k ks) k' hk'
    have hne : k' ≠ .close := by
      rintro rfl
      cases hinner
    rw [passes, hR k' hinner, decide_eq_true hne]
    rfl
  have hend : closing.rest = afterTag R ks :=
    calc closing.rest = afterTag R inside.rest :=
          ensures_iff.mp (greedyLeaf_rest (hR .invalid rfl) inside.rest)
      _ = afterTag R (leavesAll inside.forest ++ inside.rest) := (afterTag_append hpasses).symm
      _ = afterTag R ks := by rw [leavesAll_append_rest]
  refine ⟨inside.forest ++ closing.forest, ensures_eq_iff.mp ?_⟩
  rw [tagAt, tag, ensures_checkpoint, ensures_bind, ensures_of_eq (leaf_outcome_cons _ _),
    ensures_unless_true, ensures_bind, ensures_iff, ensures_bind, ensures_iff]
  exact ensures_pure.mpr ⟨rfl, hend, by simp [Closing.wrap, inside, closing]⟩

end Grammar

namespace TokenStream

open Grammar

/-- The kinds from a token on, as long as there is one. -/
theorem drop_kinds_of_lt {s : TokenStream} {i : Nat} (h : i < s.size) :
    s.kinds.drop i = s.kindAt i :: s.kinds.drop (i + 1) := by
  rw [size_eq_length_kinds] at h
  rw [List.drop_eq_getElem_cons h, kindAt_eq_getD, List.getD_eq_getElem?_getD,
    List.getElem?_eq_getElem h, Option.getD_some]

/-- The place where the search for the end of a tag stops: the first behind the opening
delimiter where there is a closing delimiter or a kind of the recovery set, or the end
of the input if there is none. -/
structure StopsTag (s : TokenStream) (R : KindSet) (opening place : Nat) : Prop where
  behind : opening < place
  le_size : place ≤ s.size
  passes : ∀ i, opening < i → i < place → s.kindAt i ≠ .close ∧ R.contains (s.kindAt i) = false
  stops : place < s.size → s.kindAt place = .close ∨ R.contains (s.kindAt place) = true

variable {s : TokenStream} {R : KindSet} {opening place : Nat}

theorem exists_stopsTag (R : KindSet) (h : opening < s.size) :
    ∃ place, s.StopsTag R opening place := by
  let Stops (n : Nat) : Prop :=
    opening < n ∧ (s.size ≤ n ∨ s.kindAt n = .close ∨ R.contains (s.kindAt n) = true)
  have hend : Stops s.size := ⟨h, .inl (Nat.le_refl _)⟩
  have hstops : ∃ n, Stops n := ⟨s.size, hend⟩
  obtain ⟨hbehind, hplace⟩ := Nat.find_spec hstops
  refine ⟨Nat.find hstops, hbehind, Nat.find_min' hstops hend, fun i hi hlt => ?_, fun hlt => ?_⟩
  · have hnot := Nat.find_min hstops hlt
    simp only [Stops, hi, true_and, not_or, Bool.not_eq_true] at hnot
    exact hnot.2
  · exact hplace.resolve_left (Nat.not_le.mpr hlt)

/-- What is left behind a tag is what comes behind a closing delimiter, and what comes from
the place on where anything else stops the search. -/
theorem StopsTag.afterTag_eq (h : s.StopsTag R opening place) :
    afterTag R (s.kinds.drop (opening + 1)) =
      s.kinds.drop (if s.kindAt place = .close then place + 1 else place) := by
  have hskip : ∀ n, opening + 1 + n ≤ place →
      afterTag R (s.kinds.drop (opening + 1)) = afterTag R (s.kinds.drop (opening + 1 + n)) := by
    intro n
    induction n with
    | zero => exact fun _ => rfl
    | succ n ih =>
      intro hle
      obtain ⟨hclose, hrecovery⟩ := h.passes (opening + 1 + n) (by omega) (by omega)
      have hlt : opening + 1 + n < s.size := Nat.lt_of_lt_of_le hle h.le_size
      rw [ih (by omega), drop_kinds_of_lt hlt, afterTag_cons_of_passes]
      · rfl
      · simp [Grammar.passes, hclose, hrecovery]
  have hplace := hskip (place - (opening + 1)) (by have := h.behind; omega)
  rw [Nat.add_sub_cancel' h.behind] at hplace
  rw [hplace]
  rcases Nat.lt_or_ge place s.size with hlt | hge
  · rw [drop_kinds_of_lt hlt]
    by_cases hclose : s.kindAt place = .close
    · rw [hclose, if_pos rfl, afterTag_close]
    · have hrecovery := (h.stops hlt).resolve_left hclose
      rw [if_neg hclose, afterTag_cons_of_ne (by simp [Grammar.passes, hrecovery]) hclose,
        drop_kinds_of_lt hlt]
  · rw [size_eq_length_kinds] at hge
    have hend : s.kindAt place = .endOfInput := by
      rw [kindAt_eq_getD, List.getD_eq_getElem?_getD, List.getElem?_eq_none hge, Option.getD_none]
    rw [hend, if_neg (by decide), List.drop_eq_nil_of_le hge, afterTag_nil]

theorem StopsTag.target_le_size (h : s.StopsTag R opening place) :
    (if s.kindAt place = .close then place + 1 else place) ≤ s.size := by
  split
  · rename_i hclose
    exact lt_size_of_kindAt (by rw [hclose]; decide)
  · exact h.le_size

end TokenStream

namespace Grammar

open Script

/-- Wherever the current token is an opening delimiter, and the recovery set has none of
the kinds that the inside of a tag is made of, the rule for the tag succeeds and
records one node. It ends behind the next closing delimiter, unless a kind of the
recovery set or the end of the input comes before that; then it ends there. -/
theorem tagRule_records (s : Session) (hopening : opensTag s.current = true)
    (hrecovery : ∀ k, isInner k = true → s.recovery.contains k = false) :
    let rule := (tagRule s.current).script
    (∃ contents, rule.Records s true
      [.node (.plain (tagKind s.current)) (Derivation.leaf s.current :: contents)]) ∧
    (∃ place, s.stream.StopsTag s.recovery s.cursor place) ∧
    ∀ place, s.stream.StopsTag s.recovery s.cursor place →
      (rule.run s).2.cursor = if s.stream.kindAt place = .close then place + 1 else place := by
  intro rule
  have hlt : s.cursor < s.stream.size := by
    apply TokenStream.lt_size_of_kindAt
    intro hend
    rw [show s.current = .endOfInput from hend] at hopening
    cases hopening
  have hrest : s.rest = s.current :: s.stream.kinds.drop (s.cursor + 1) :=
    TokenStream.drop_kinds_of_lt hlt
  obtain ⟨contents, hcontents⟩ := tagAt_outcome (k := s.current) hrecovery
    (s.stream.kinds.drop (s.cursor + 1))
  rw [← tagRule_outcome hopening, ← hrest] at hcontents
  refine ⟨⟨contents, records_of_outcome_eq hcontents⟩, TokenStream.exists_stopsTag _ hlt,
    fun place hplace => ?_⟩
  have hleft := rest_run rule s
  rw [hcontents, hplace.afterTag_eq] at hleft
  have hlength := congrArg List.length hleft
  rw [Session.length_rest, stream_run, List.length_drop, ← TokenStream.size_eq_length_kinds]
    at hlength
  have hcursor := cursor_run_le rule (Nat.le_of_lt hlt)
  have hplace := hplace.target_le_size
  omega

theorem tagRule_records_broken :
    let s : Session :=
      ⟨⟨"\x7b\x7b=a#\x7d\x7dx", #[⟨.openValue, 2⟩, ⟨.equals, 1⟩, ⟨.ident, 1⟩, ⟨.invalid, 1⟩,
        ⟨.close, 2⟩, ⟨.content, 1⟩], #[0, 1, 2, 3, 4, 5], by decide⟩, .syncPoints, 0, #[.placeholder]⟩
    opensTag s.current = true ∧ (∀ k, isInner k = true → s.recovery.contains k = false) ∧
      s.stream.StopsTag s.recovery s.cursor 4 ∧
      (∃ contents, (tagRule s.current).script.Records s true
        [.node (.plain (tagKind s.current)) (Derivation.leaf s.current :: contents)]) ∧
      ((tagRule s.current).script.run s).2.cursor = 5 := by
  intro s
  have hopening : opensTag s.current = true := by decide
  have hrecovery : ∀ k, isInner k = true → s.recovery.contains k = false := by
    intro k
    cases k <;> decide
  have hpasses : ∀ i < 4, s.cursor < i →
      s.stream.kindAt i ≠ .close ∧ s.recovery.contains (s.stream.kindAt i) = false := by decide
  have hplace : s.stream.StopsTag s.recovery s.cursor 4 :=
    ⟨by decide, by decide, fun i hi hlt => hpasses i hlt hi, fun _ => .inl (by decide)⟩
  obtain ⟨hrecords, -, hend⟩ := tagRule_records s hopening hrecovery
  have hcursor := hend 4 hplace
  rw [if_pos (by decide)] at hcursor
  exact ⟨hopening, hrecovery, hplace, hrecords, hcursor⟩

end Grammar

end TemplateTree
