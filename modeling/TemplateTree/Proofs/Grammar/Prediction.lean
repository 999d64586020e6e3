import TemplateTree.Proofs.Grammar.Termination
import TemplateTree.Proofs.Session.Frame

/-!
# Expressions read by prediction

The rule for an expression tries a hash behind the path, then parameters, then a
hash again, and keeps or undoes each of them depending on what it answered and on
how far it went. None of this is needed: the kinds at the cursor tell which of the
attempts will be kept. A key begins a hash that is kept in any case. Otherwise
parameters follow for as long as a parameter lies ahead, and behind them a hash is
kept if it starts with an identifier or with a token that cannot be read.
-/

namespace TemplateTree

variable {R : KindSet} {ks : List Kind}

namespace Script

variable {α β : Type}

theorem outcome_bind_of_eq {p : Script α} {f : α → Script β} {a : α} {rest : List Kind}
    {g : List (Rose Kind)} (h : p.outcome R ks = ⟨a, rest, g⟩) :
    (p >>= f).outcome R ks = ⟨((f a).outcome R rest).result, ((f a).outcome R rest).rest,
      g ++ ((f a).outcome R rest).forest⟩ := by
  refine (outcome_bind R p f ks).trans ?_
  rw [h]

/-- What takes and grows nothing is not noticed by what comes behind it. -/
theorem outcome_bind_of_stays {p : Script α} {f : α → Script β} {a : α}
    (h : p.outcome R ks = ⟨a, ks, []⟩) : (p >>= f).outcome R ks = (f a).outcome R ks :=
  outcome_bind_of_eq h

/-- Scripts that start with the same outcome and go on with the same outcome. -/
theorem outcome_bind_congr {p q : Script α} {f g : α → Script β}
    (h : p.outcome R ks = q.outcome R ks)
    (hlater : (f (q.outcome R ks).result).outcome R (q.outcome R ks).rest =
      (g (q.outcome R ks).result).outcome R (q.outcome R ks).rest) :
    (p >>= f).outcome R ks = (q >>= g).outcome R ks := by
  rw [outcome_bind_of_eq h, hlater]
  exact (outcome_bind_of_eq rfl).symm

theorem outcome_checkpoint_congr {p q : Script (Closing × α)}
    (h : p.outcome R ks = q.outcome R ks) :
    (checkpoint p).outcome R ks = (checkpoint q).outcome R ks := by
  simp only [checkpoint, outcome, h]

/-- Loops over rules with the same outcomes have the same outcomes. -/
theorem countedLoop_outcome_congr {p q : Script Bool} (h : ∀ ks, p.outcome R ks = q.outcome R ks)
    (bound : Nat) (ks : List Kind) :
    (countedLoop p bound).outcome R ks = (countedLoop q bound).outcome R ks := by
  induction bound generalizing ks with
  | zero => rfl
  | succ bound ih =>
    apply outcome_bind_congr (h ks)
    cases (q.outcome R ks).result with
    | false => rfl
    | true => exact ih _

/-- It does not matter how large the count of a loop is, as long as it is no less than
the number of tokens that are left. -/
theorem countedLoop_outcome_of_le {body : Script Bool}
    (hahead : ∀ ks, Grammar.Advances body R ks) (hend : body.outcome R [] = ⟨false, [], []⟩)
    {m n : Nat} (hm : ks.length ≤ m) (hn : ks.length ≤ n) :
    (countedLoop body m).outcome R ks = (countedLoop body n).outcome R ks := by
  have hnil : ∀ bound, (countedLoop body bound).outcome R [] = ⟨(), [], []⟩ := by
    intro bound
    cases bound with
    | zero => rfl
    | succ bound => exact outcome_bind_of_eq hend
  induction m generalizing n ks with
  | zero =>
    obtain rfl := List.length_eq_zero_iff.mp (Nat.le_zero.mp hm)
    rw [hnil, hnil]
  | succ m ih =>
    cases n with
    | zero =>
      obtain rfl := List.length_eq_zero_iff.mp (Nat.le_zero.mp hn)
      rw [hnil, hnil]
    | succ n =>
      apply outcome_bind_congr rfl
      have hlt := ensures_iff.mp (hahead ks)
      cases hfound : (body.outcome R ks).result with
      | false => rfl
      | true =>
        have hlt := hlt hfound
        exact ih (by omega) (by omega)

end Script

namespace Grammar

open Script

/-- Whether a parameter lies ahead: a literal, or an identifier at which no complete
pair starts. -/
def isParamAhead (v : View) : Bool :=
  isLiteral (v.ahead 0) || (v.ahead 0 = .ident && !isPairAhead v)

/-- Reads a parameter if one lies ahead. -/
def predictedParam : Script Bool := do
  if isParamAhead (← view) then param else return false

/-- Reads parameters for as long as one lies ahead. -/
def predictedParams : Script Unit := checkpoint do
  countedLoop predictedParam (← left)
  return (.node .params, ())

/-- Reads a hash if the next kind can start one. -/
def predictedHash : Script Unit := do
  if startsHash (← current) then
    let _ ← hash

/-- Reads parameters and what may be a hash behind them, if the next kind can start a
parameter. -/
def predictedArguments : Script Unit := do
  if startsParam (← current) then
    predictedParams
    predictedHash

/-- Reads a hash if a key comes first, and parameters if not. -/
def predictedTail : Script Unit := do
  if isKeyAhead (← view) then
    let _ ← hash
  else predictedArguments

/-- Reads an expression without giving anything back. -/
def predictedExpression : Script Bool := checkpoint do
  if !(← path) then return ((Problem.expected .path).closing, false)
  predictedTail
  return (.node .expression, true)

/-- Behind parameters a hash is kept where it can start. -/
theorem predictedHash_outcome : predictedHash.outcome R ks = trailingHash.outcome R ks := by
  cases h : startsHash (ks.headD .endOfInput) with
  | true =>
    rw [trailingHash_outcome_of_startsHash h]
    apply ensures_eq_iff.mp
    rw [predictedHash, ensures_bind, ensures_current, if_pos h, ensures_bind, ensures_iff]
    exact ensures_pure.mpr ⟨rfl, rfl, by simp⟩
  | false =>
    rw [trailingHash_outcome_of_stays h]
    apply ensures_eq_iff.mp
    rw [predictedHash, ensures_bind, ensures_current, h]
    exact ensures_pure.mpr ⟨rfl, rfl, rfl⟩

theorem param_outcome_eq :
    param.outcome R ks =
      ⟨isParamAhead (.ofList R ks), (param.outcome R ks).rest, (param.outcome R ks).forest⟩ := by
  have hfound := ensures_iff.mp (@param_found R ks)
  rw [← ahead_zero (R := R)] at hfound
  exact ensures_eq_iff.mp (ensures_iff.mpr ⟨hfound, rfl, rfl⟩)

/-- An attempt at a parameter is kept where a parameter lies ahead. -/
theorem predictedParam_outcome (ks : List Kind) :
    predictedParam.outcome R ks = (attempt param).outcome R ks := by
  have hparam := @param_outcome_eq R ks
  cases h : isParamAhead (.ofList R ks) with
  | true =>
    rw [h] at hparam
    rw [attempt_outcome_of_reads hparam]
    apply ensures_eq_iff.mp
    rw [predictedParam, ensures_bind, ensures_view, h, if_pos rfl, ensures_of_eq hparam]
    exact ⟨rfl, rfl, rfl⟩
  | false =>
    rw [h] at hparam
    rw [attempt_outcome_of_fails (fails_of_outcome hparam)]
    apply ensures_eq_iff.mp
    rw [predictedParam, ensures_bind, ensures_view, h]
    exact ensures_pure.mpr ⟨rfl, rfl, rfl⟩

theorem predictedParam_advances (ks : List Kind) : Advances predictedParam R ks := by
  have h := ensures_iff.mp (attempt_advances (param_advances (R := R) ks))
  rw [← predictedParam_outcome] at h
  exact ensures_iff.mpr h

/-- Attempts at parameters go on for as long as a parameter lies ahead. -/
theorem many_param_outcome {bound : Nat} (h : ks.length ≤ bound) :
    (many param).outcome R ks = (countedLoop predictedParam bound).outcome R ks := by
  have hmany : (many param).outcome R ks = (countedLoop (attempt param) ks.length).outcome R ks := by
    rw [← repeatUpTo_eq_countedLoop]
    rfl
  have hbound : (countedLoop (attempt param) ks.length).outcome R ks =
      (countedLoop (attempt param) bound).outcome R ks :=
    countedLoop_outcome_of_le (fun ks => attempt_advances (param_advances ks))
      Loop.params.body_outcome_nil (Nat.le_refl _) h
  rw [hmany, hbound]
  exact countedLoop_outcome_congr (fun ks => (predictedParam_outcome ks).symm) bound ks

/-- Where a parameter lies ahead, the rule for parameters succeeds, and prediction does
the same. -/
theorem params_outcome_eq (h : isParamAhead (.ofList R ks) = true) :
    params.outcome R ks =
      ⟨true, (predictedParams.outcome R ks).rest, (predictedParams.outcome R ks).forest⟩ := by
  have hparam := @param_outcome_eq R ks
  rw [h] at hparam
  have hlt := ensures_iff.mp (param_advances (R := R) ks) (congrArg Outcome.result hparam)
  obtain ⟨bound, hbound⟩ : ∃ bound, ks.length = bound + 1 := Nat.exists_eq_succ_of_ne_zero (by omega)
  have hothers := @many_param_outcome R (param.outcome R ks).rest bound (by omega)
  have hfirst := (predictedParam_outcome (R := R) ks).trans (attempt_outcome_of_reads hparam)
  have hloop : (countedLoop predictedParam ks.length).outcome R ks =
      ⟨(), ((many param).outcome R (param.outcome R ks).rest).rest,
        (param.outcome R ks).forest ++ ((many param).outcome R (param.outcome R ks).rest).forest⟩ := by
    rw [hbound, hothers]
    exact outcome_bind_of_eq hfirst
  have hpredicted : predictedParams.outcome R ks =
      ⟨(), ((many param).outcome R (param.outcome R ks).rest).rest,
        [.node (.plain .params) ((param.outcome R ks).forest ++
          ((many param).outcome R (param.outcome R ks).rest).forest)]⟩ := by
    apply ensures_eq_iff.mp
    rw [predictedParams, ensures_checkpoint, ensures_bind, ensures_left, ensures_bind,
      ensures_of_eq hloop, ensures_pure]
    exact ⟨rfl, rfl, by simp [Closing.wrap]⟩
  rw [hpredicted]
  apply ensures_eq_iff.mp
  rw [params, ensures_checkpoint, ensures_bind, ensures_of_eq hparam, ensures_unless_true,
    ensures_bind, ensures_iff]
  exact ensures_pure.mpr ⟨rfl, rfl, by simp [Closing.wrap]⟩

theorem predictedArguments_outcome (h : isKeyAhead (.ofList R ks) = false) :
    predictedArguments.outcome R ks = arguments.outcome R ks := by
  have hahead : isParamAhead (.ofList R ks) = startsParam (ks.headD .endOfInput) := by
    rw [isParamAhead, ahead_zero, isPairAhead_of_isKeyAhead h, startsParam_eq, Bool.not_false,
      Bool.and_true, Bool.or_comm]
  cases hstarts : startsParam (ks.headD .endOfInput) with
  | false =>
    rw [arguments_outcome_of_fails (fails_of_outcome (param_outcome_of_startsParam hstarts))]
    apply ensures_eq_iff.mp
    rw [predictedArguments, ensures_bind, ensures_current, hstarts]
    exact ensures_pure.mpr ⟨rfl, rfl, rfl⟩
  | true =>
    have hparams := params_outcome_eq (hahead.trans hstarts)
    have harguments : arguments.outcome R ks =
        ⟨(), (trailingHash.outcome R (predictedParams.outcome R ks).rest).rest,
          (predictedParams.outcome R ks).forest ++
            (trailingHash.outcome R (predictedParams.outcome R ks).rest).forest⟩ := by
      apply ensures_eq_iff.mp
      rw [arguments, ensures_checkpoint, ensures_bind, ensures_of_eq hparams, ensures_unless_true,
        ensures_bind, ensures_iff]
      exact ensures_pure.mpr ⟨rfl, rfl, by simp [Closing.wrap]⟩
    rw [harguments, ← predictedHash_outcome]
    apply ensures_eq_iff.mp
    rw [predictedArguments, ensures_bind, ensures_current, if_pos hstarts, ensures_bind,
      ensures_iff]
    exact ensures_iff.mpr ⟨rfl, rfl, rfl⟩

theorem predictedTail_outcome_of_key (h : isKeyAhead (.ofList R ks) = true) :
    predictedTail.outcome R ks = ⟨(), (hash.outcome R ks).rest, (hash.outcome R ks).forest⟩ := by
  apply ensures_eq_iff.mp
  rw [predictedTail, ensures_bind, ensures_view, h, if_pos rfl, ensures_bind, ensures_iff]
  simp

theorem predictedTail_outcome_of_isKeyAhead (h : isKeyAhead (.ofList R ks) = false) :
    predictedTail.outcome R ks = arguments.outcome R ks := by
  rw [← predictedArguments_outcome h]
  apply ensures_eq_iff.mp
  rw [predictedTail, ensures_bind, ensures_view, h, if_neg Bool.false_ne_true]
  exact ensures_iff.mpr ⟨rfl, rfl, List.nil_append _⟩

/-- Prediction and attempts come to the same. -/
theorem predictedExpression_outcome :
    predictedExpression.outcome R ks = expression.outcome R ks := by
  apply outcome_checkpoint_congr
  apply outcome_bind_congr rfl
  cases (path.outcome R ks).result with
  | false => rfl
  | true =>
    show (predictedTail >>= _).outcome R _ = (leadingHash >>= _).outcome R _
    cases h : isKeyAhead (.ofList R (path.outcome R ks).rest) with
    | true =>
      rw [outcome_bind_of_eq (predictedTail_outcome_of_key h),
        outcome_bind_of_eq (leadingHash_outcome_of_key h)]
      rfl
    | false =>
      rw [outcome_bind_of_stays (leadingHash_outcome_of_isKeyAhead h)]
      exact outcome_bind_congr (predictedTail_outcome_of_isKeyAhead h) rfl

/-- Behind a path a key is the beginning of a hash, whatever follows. -/
theorem expression_outcome_of_key {rest : List Kind} {steps : List (Rose Kind)}
    (hpath : path.outcome R ks = ⟨true, rest, steps⟩)
    (hkey : isKeyAhead (.ofList R rest) = true) :
    ∃ pairs, expression.outcome R ks = ⟨true, (hash.outcome R rest).rest,
      [.node (.plain .expression) (steps ++ [.node (.plain .hash) pairs])]⟩ := by
  obtain ⟨pairs, hpairs⟩ :=
    (ensures_iff.mp (@hash_moves R rest (startsHash_of_isKeyAhead hkey))).2
  refine ⟨pairs, ensures_eq_iff.mp ?_⟩
  rw [expression, ensures_checkpoint, ensures_bind, ensures_of_eq hpath, ensures_unless_true,
    ensures_bind, ensures_of_eq (leadingHash_outcome_of_key hkey), ensures_unless_true, hpairs]
  exact ensures_pure.mpr ⟨rfl, rfl, by simp [Closing.wrap]⟩

/-- Wherever a session stands, (1) the rule for an expression does what prediction
does, (2) what ends the parameters that prediction reads is that no parameter lies
ahead, and never their count, and (3) where a key comes behind the path, the rule
records the path and a hash and no parameters. -/
theorem expression_agreesAt (s : Session) :
    expression.AgreesAt predictedExpression s ∧
    (∃ n ≤ s.stream.size - s.cursor,
      Loops predictedParam n s ((countedLoop predictedParam s.view.left).run s).2) ∧
    ((path.run s).1 = true → isKeyAhead (path.run s).2.view = true →
      ∃ steps pairs, path.Records s true steps ∧
        expression.Records s true
          [.node (.plain .expression) (steps ++ [.node (.plain .hash) pairs])]) := by
  refine ⟨agreesAt_of_outcome_eq predictedExpression_outcome.symm, ?_, fun hpath hkey => ?_⟩
  · rw [show s.view.left = s.rest.length from s.length_rest.symm]
    refine exists_loops (fun t => (predictedParam_advances t.rest).run) (fun t ht => ?_) _ s
      (Nat.le_refl _)
    apply run_eq_self
    rw [ht, predictedParam_outcome]
    exact Loop.params.body_outcome_nil
  · rw [fst_run] at hpath
    rw [Session.view_eq_ofList, rest_run, run_eq] at hkey
    have houtcome : path.outcome s.recovery s.rest =
        ⟨true, (path.outcome s.recovery s.rest).rest, (path.outcome s.recovery s.rest).forest⟩ :=
      ensures_eq_iff.mp (ensures_iff.mpr ⟨hpath, rfl, rfl⟩)
    obtain ⟨pairs, hexpression⟩ := expression_outcome_of_key houtcome hkey
    exact ⟨_, pairs, records_of_outcome_eq houtcome, records_of_outcome_eq hexpression⟩

theorem expression_agreesAt_broken_key :
    let s : Session :=
      ⟨⟨"\x7b\x7bfoo bar=\x7d\x7d", #[⟨.openValue, 2⟩, ⟨.ident, 3⟩, ⟨.blank, 1⟩, ⟨.ident, 3⟩,
        ⟨.equals, 1⟩, ⟨.close, 2⟩], #[0, 1, 3, 4, 5], by decide⟩, .syncPoints, 1, #[.token 0]⟩
    (path.run s).1 = true ∧ isKeyAhead (path.run s).2.view = true ∧
      ∃ steps pairs, path.Records s true steps ∧
        expression.Records s true
          [.node (.plain .expression) (steps ++ [.node (.plain .hash) pairs])] := by
  intro s
  have hpath : (path.run s).1 = true := by decide +kernel
  have hkey : isKeyAhead (path.run s).2.view = true := by decide +kernel
  exact ⟨hpath, hkey, (expression_agreesAt s).2.2 hpath hkey⟩

end Grammar

end TemplateTree
