import TemplateTree.Proofs.Grammar.ExpressionReading
import TemplateTree.Proofs.Script.Recording

/-!
# Looking ahead for a pair

Whether a complete pair lies ahead is answered by counting the run of keys ahead
and looking at the kind behind it. Two other answers are compared with this one:
to read a pair and see whether that succeeds, and to go along the run by
recursion. In all three the value of a key may be a path only if no complete pair
starts there, so one more key in front turns the answer around.
-/

namespace TemplateTree

variable {R : KindSet} {ks : List Kind}

namespace Script

/-- One of several rules succeeds where any of them does. -/
theorem firstOf_found (rules : List (Script Bool)) :
    (firstOf rules).Ensures R ks fun found _ _ =>
      found = rules.any fun rule => (rule.outcome R ks).result := by
  induction rules with
  | nil => exact ensures_pure.mpr rfl
  | cons rule rules ih =>
    rw [firstOf, ensures_bind, ensures_attempt, ensures_iff]
    cases hfound : (rule.outcome R ks).result with
    | false => simpa [hfound] using ih
    | true => simp [hfound]

/-- A lookahead answers what its rule answers, and the session stays as it was. -/
theorem lookahead_run (rule : Script Bool) (s : Session) :
    (lookahead rule).run s = ((rule.run s).1, s) := by
  apply run_eq_self
  apply ensures_eq_iff.mp
  rw [ensures_lookahead, ensures_iff, fst_run]
  exact ⟨rfl, rfl, rfl⟩

end Script

namespace Grammar

open Script

/-- A value of one of these kinds is a single token. -/
def isLiteral (kind : Kind) : Bool := kind = .string || kind = .integer || kind = .boolean

theorem startsParam_eq (kind : Kind) : startsParam kind = (kind = .ident || isLiteral kind) := by
  simp only [startsParam, isLiteral, Bool.or_assoc]

/-- Where the count suffices, the run of keys is as long as it is with any other
count that does. -/
theorem pairRun_eq_of_le {v : View} (hend : ∀ n, v.left ≤ n → v.ahead n = .endOfInput)
    {offset bound bound' : Nat} (h : v.left ≤ offset + bound) (h' : v.left ≤ offset + bound') :
    pairRun v offset bound = pairRun v offset bound' := by
  obtain ⟨hkeys, hstop⟩ := pairRun_ends hend offset bound h
  obtain ⟨hkeys', hstop'⟩ := pairRun_ends hend offset bound' h'
  rcases Nat.lt_trichotomy (pairRun v offset bound) (pairRun v offset bound') with hlt | heq | hgt
  · exact absurd (hkeys' _ hlt) hstop
  · exact heq
  · exact absurd (hkeys _ hgt) hstop'

/-- Behind two kinds more the run is counted as before. -/
theorem pairRun_cons_cons (a b : Kind) (offset bound : Nat) :
    pairRun (.ofList R (a :: b :: ks)) (offset + 2) bound = pairRun (.ofList R ks) offset bound := by
  induction bound generalizing offset with
  | zero => rfl
  | succ bound ih =>
    rw [pairRun, pairRun, ih]
    rfl

theorem ahead_of_length_le {n : Nat} (h : ks.length ≤ n) :
    (View.ofList R ks).ahead n = .endOfInput := by
  show ks.getD n .endOfInput = .endOfInput
  rw [List.getD_eq_getElem?_getD, List.getElem?_eq_none h, Option.getD_none]

/-- A key in front makes the run of keys longer by one. -/
theorem pairRun_key :
    pairRun (.ofList R (.ident :: .equals :: ks)) 0 (ks.length + 2) =
      pairRun (.ofList R ks) 0 ks.length + 1 := by
  have hcount : pairRun (.ofList R ks) 0 (ks.length + 1) = pairRun (.ofList R ks) 0 ks.length :=
    pairRun_eq_of_le (fun _ => ahead_of_length_le) (show ks.length ≤ 0 + (ks.length + 1) by omega)
      (show ks.length ≤ 0 + ks.length by omega)
  rw [pairRun, pairRun_cons_cons, hcount]
  rfl

/-- Behind a key stands a literal, or an identifier at which no complete pair starts. -/
theorem isPairAhead_key :
    isPairAhead (.ofList R (.ident :: .equals :: ks)) =
      (isLiteral (ks.headD .endOfInput) ||
        (ks.headD .endOfInput = .ident && !isPairAhead (.ofList R ks))) := by
  let run := pairRun (.ofList R ks) 0 ks.length
  have hkey : isPairAhead (.ofList R (.ident :: .equals :: ks)) =
      (startsParam ((View.ofList R ks).ahead (2 * run)) == ((run + 1) % 2 == 1)) := by
    rw [isPairAhead, show (View.ofList R (.ident :: .equals :: ks)).left = ks.length + 2 from rfl,
      pairRun_key]
    rfl
  have hrest : isPairAhead (.ofList R ks) =
      if run = 0 then false
      else startsParam ((View.ofList R ks).ahead (2 * run)) == (run % 2 == 1) := rfl
  rw [hkey, hrest]
  by_cases hrun : run = 0
  · rw [if_pos hrun, hrun, Nat.mul_zero, ahead_zero, startsParam_eq]
    cases isLiteral (ks.headD .endOfInput) <;> simp
  · -- The run goes on behind the key, so an identifier comes next, and the answer turns.
    have hident : ks.headD .endOfInput = .ident := by
      have hkeys := (pairRun_ends (fun _ => ahead_of_length_le (R := R)) 0 ks.length
        (show ks.length ≤ 0 + ks.length by omega)).1 0 (Nat.pos_of_ne_zero hrun)
      rw [← ahead_zero (R := R)]
      exact hkeys.1
    have hparity : ((run + 1) % 2 == 1) = !(run % 2 == 1) := by
      rcases Nat.mod_two_eq_zero_or_one run with h | h <;> simp [Nat.add_mod, h]
    rw [if_neg hrun, hident, hparity]
    cases startsParam ((View.ofList R ks).ahead (2 * run)) <;> cases run % 2 == 1 <;> rfl

/-- A path succeeds where an identifier stands at which no complete pair starts. -/
theorem path_found :
    path.Ensures R ks fun found _ _ =>
      found = (decide (ks.headD .endOfInput = .ident) && !isPairAhead (.ofList R ks)) := by
  rw [path, ensures_bind, ensures_view]
  cases hpair : isPairAhead (.ofList R ks) with
  | true => simp
  | false =>
    rw [if_neg Bool.false_ne_true, ensures_checkpoint, ensures_bind]
    rcases leaf_cases (R := R) .ident (by decide) ks with ⟨rest, rfl, hleaf⟩ | ⟨hne, hleaf⟩
    · rw [ensures_of_eq hleaf, ensures_unless_true, ensures_bind, ensures_left, ensures_bind,
        ensures_iff]
      simp
    · rw [ensures_of_eq hleaf, decide_eq_false hne]
      exact ensures_pure.mpr rfl

theorem leaf_found {k : Kind} (hk : k ≠ .endOfInput) :
    ((leaf k).outcome R ks).result = decide (ks.headD .endOfInput = k) := by
  rcases leaf_cases (R := R) k hk ks with ⟨rest, rfl, hleaf⟩ | ⟨hne, hleaf⟩
  · simp [hleaf]
  · rw [hleaf, decide_eq_false hne]

theorem param_found :
    param.Ensures R ks fun found _ _ =>
      found = (isLiteral (ks.headD .endOfInput) ||
        (ks.headD .endOfInput = .ident && !isPairAhead (.ofList R ks))) := by
  rw [param, ensures_checkpoint, ensures_bind]
  apply (firstOf_found _).mono
  intro found _ _ hfound
  have hpath := ensures_iff.mp (@path_found R ks)
  rw [List.any_cons, hpath, List.any_cons, leaf_found (by decide), List.any_cons,
    leaf_found (by decide), List.any_cons, leaf_found (by decide), List.any_nil, Bool.or_false]
    at hfound
  rw [Bool.or_comm, ← Bool.or_assoc, ← isLiteral] at hfound
  cases found with
  | false => exact ensures_pure.mpr hfound
  | true => exact ensures_pure.mpr hfound

/-- Reading a pair succeeds where a complete pair lies ahead. -/
theorem hashPair_found :
    hashPair.Ensures R ks fun found _ _ => found = isPairAhead (.ofList R ks) := by
  cases hkey : isKeyAhead (.ofList R ks) with
  | false =>
    rw [isPairAhead_of_isKeyAhead hkey]
    exact hashPair_fails hkey
  | true =>
    obtain ⟨rest, rfl⟩ : ∃ rest, ks = .ident :: .equals :: rest := by
      match ks, hkey with
      | [], hkey => cases hkey
      | [k], hkey => simp [isKeyAhead, View.ofList] at hkey
      | k :: k' :: rest, hkey =>
        simp only [isKeyAhead, View.ofList, List.getD_cons_zero, List.getD_cons_succ,
          Bool.and_eq_true, decide_eq_true_eq] at hkey
        exact ⟨rest, by rw [hkey.1, hkey.2]⟩
    rw [isPairAhead_key, hashPair, ensures_checkpoint, ensures_bind,
      ensures_of_eq (leaf_outcome_cons _ _), ensures_unless_true, ensures_bind,
      ensures_of_eq (leaf_outcome_cons _ _), ensures_unless_true, ensures_bind]
    apply param_found.mono
    intro found _ _ hfound
    cases found with
    | false => exact ensures_pure.mpr hfound
    | true => exact ensures_pure.mpr hfound

end Grammar

namespace TokenStream

open Grammar

theorem lt_size_of_kindAt {s : TokenStream} {i : Nat} (h : s.kindAt i ≠ .endOfInput) :
    i < s.size := by
  apply Nat.lt_of_not_le
  intro hle
  rw [size_eq_length_kinds] at hle
  rw [kindAt_eq_getD, List.getD_eq_getElem?_getD, List.getElem?_eq_none hle] at h
  exact h rfl

/-- Whether a complete pair starts at a token, found by recursion from key to key. -/
def startsPair (s : TokenStream) (i : Nat) : Bool :=
  if h : s.kindAt i = .ident then
    s.kindAt (i + 1) = .equals &&
      (isLiteral (s.kindAt (i + 2)) || (s.kindAt (i + 2) = .ident && !s.startsPair (i + 2)))
  else false
termination_by s.size - i
decreasing_by
  have hlt : i < s.size := lt_size_of_kindAt (by rw [h]; decide)
  omega

/-- The kinds from a token on, the first of them in front. -/
theorem drop_kinds_of_kindAt {s : TokenStream} {i : Nat} {k : Kind} (h : s.kindAt i = k)
    (hk : k ≠ .endOfInput) : s.kinds.drop i = k :: s.kinds.drop (i + 1) := by
  have hlt := lt_size_of_kindAt (h.trans_ne hk)
  rw [size_eq_length_kinds] at hlt
  rw [kindAt_eq_getD, List.getD_eq_getElem?_getD, List.getElem?_eq_getElem hlt, Option.getD_some] at h
  rw [List.drop_eq_getElem_cons hlt, h]

theorem headD_drop_kinds (s : TokenStream) (i : Nat) :
    (s.kinds.drop i).headD .endOfInput = s.kindAt i := by
  rw [kindAt_eq_getD, List.headD_eq_head?_getD, List.head?_drop, List.getD_eq_getElem?_getD]

/-- Counting the run and going along it by recursion agree at every token. -/
theorem isPairAhead_drop_kinds (s : TokenStream) (R : KindSet) (i : Nat) :
    isPairAhead (.ofList R (s.kinds.drop i)) = s.startsPair i := by
  fun_induction startsPair s i with
  | case1 i h ih =>
    rw [drop_kinds_of_kindAt h (by decide)]
    by_cases hequals : s.kindAt (i + 1) = .equals
    · rw [drop_kinds_of_kindAt hequals (by decide), isPairAhead_key, headD_drop_kinds, ih,
        decide_eq_true hequals, Bool.true_and]
    · rw [decide_eq_false hequals, Bool.false_and]
      apply isPairAhead_of_isKeyAhead
      apply isKeyAhead_cons
      rwa [headD_drop_kinds]
  | case2 i h =>
    apply isPairAhead_of_isKeyAhead
    apply isKeyAhead_of_ne
    rwa [headD_drop_kinds]

end TokenStream

namespace Grammar

open Script

/-- Three ways to find out whether a complete pair lies ahead agree wherever the
cursor of a session stands: to count the run of keys, to read a pair and see
whether that succeeds, which changes nothing if it is done as a lookahead, and to
go from key to key by recursion. -/
theorem isPairAhead_eq_hashPair_run (s : Session) :
    isPairAhead s.view = (hashPair.run s).1 ∧
      (lookahead hashPair).run s = (isPairAhead s.view, s) ∧
      isPairAhead s.view = s.stream.startsPair s.cursor := by
  have hfound : isPairAhead s.view = (hashPair.run s).1 := by
    rw [fst_run, s.view_eq_ofList]
    exact (ensures_iff.mp hashPair_found).symm
  refine ⟨hfound, ?_, ?_⟩
  · rw [lookahead_run, ← hfound]
  · rw [s.view_eq_ofList]
    exact s.stream.isPairAhead_drop_kinds s.recovery s.cursor

end Grammar

end TemplateTree
