import TemplateTree.Proofs.Grammar.PairLookahead
import TemplateTree.Session.Checked

/-!
# Sessions only gain

Whatever is done in a session, what the journal held before stays as it was: new
entries stand behind it, and a checkpoint rewrites or removes nothing that is
older than itself. So the way back from a checkpoint leads to the very session in
which it was opened, and no closing ever finds in the journal anything other than
what it relies on.

What a script adds, how far the cursor goes and what the result is are the same in
all sessions with the same stream, the same recovery set and the same cursor.
-/

namespace TemplateTree

open Session

namespace Script

variable {α : Type}

/-- Two scripts do the same in a session but for the placeholders that they leave
in the journal. -/
def AgreesAt (p q : Script α) (s : Session) : Prop :=
  ∃ result tokens entries entries',
    p.run s = (result, s.after tokens entries) ∧ q.run s = (result, s.after tokens entries') ∧
      Journal.settled entries = Journal.settled entries'

/-- Scripts with one outcome differ in nothing but placeholders. -/
theorem agreesAt_of_outcome_eq {p q : Script α} {s : Session}
    (h : p.outcome s.recovery s.rest = q.outcome s.recovery s.rest) : p.AgreesAt q s := by
  have hq := q.run_eq s
  rw [← h] at hq
  refine ⟨_, _, _, _, p.run_eq s, hq, ?_⟩
  rw [settled_recording, settled_recording, h]

/-- In a session a script gives this result and records this forest, over as many of
the tokens that come next as it takes, placeholders aside. -/
structure Records (p : Script α) (s : Session) (result : α) (f : List (Rose Kind)) : Prop where
  tokens : Rose.leavesAll f <+: s.rest
  run : ∃ entries, p.run s = (result, s.after (Rose.leavesAll f).length entries) ∧
    Journal.settled entries = Journal.settled (Rose.entriesAll s.cursor f)

/-- A script records the forest of its outcome. -/
theorem records_of_outcome_eq {p : Script α} {s : Session} {a : α} {rest : List Kind}
    {f : List (Rose Kind)} (h : p.outcome s.recovery s.rest = ⟨a, rest, f⟩) : p.Records s a f := by
  have htokens := leavesAll_append_rest s.recovery p s.rest
  have hrun := p.run_eq s
  have hrecorded := settled_recording s.recovery p s.cursor s.rest
  rw [h] at htokens hrun hrecorded
  exact ⟨⟨rest, htokens⟩, _, hrun, hrecorded⟩

/-- What a script does in a session depends on the stream, the recovery set and the
cursor alone. -/
theorem exists_run_eq_after (p : Script α) (s : Session) :
    ∃ result tokens entries, ∀ t : Session,
      t.stream = s.stream → t.recovery = s.recovery → t.cursor = s.cursor →
        p.run t = (result, t.after tokens entries) := by
  refine ⟨(p.outcome s.recovery s.rest).result,
    (Rose.leavesAll (p.outcome s.recovery s.rest).forest).length,
    p.recording s.recovery s.cursor s.rest, fun t hstream hrecovery hcursor => ?_⟩
  have hrest : t.rest = s.rest := by rw [rest, rest, hstream, hcursor]
  rw [p.run_eq t, hrest, hrecovery, hcursor]

/-- An attempt answers what its rule answers. It leaves no trace if the rule fails,
and does what the rule does if not. -/
theorem attempt_run (rule : Script Bool) (s : Session) :
    ((attempt rule).run s).1 = (rule.run s).1 ∧
      ((rule.run s).1 = false → (attempt rule).run s = (false, s)) ∧
      ((rule.run s).1 = true → (attempt rule).AgreesAt rule s) := by
  rw [fst_run, fst_run]
  cases h : (rule.outcome s.recovery s.rest).result with
  | false =>
    have hfails := attempt_outcome_of_fails (ensures_iff.mpr h)
    exact ⟨by rw [hfails], fun _ => run_eq_self _ s hfails, nofun⟩
  | true =>
    have hrule : rule.outcome s.recovery s.rest =
        ⟨true, (rule.outcome s.recovery s.rest).rest, (rule.outcome s.recovery s.rest).forest⟩ :=
      ensures_eq_iff.mp (ensures_iff.mpr ⟨h, rfl, rfl⟩)
    have hreads := (attempt_outcome_of_reads hrule).trans hrule.symm
    exact ⟨by rw [hreads, h], nofun, fun _ => agreesAt_of_outcome_eq hreads⟩

end Script

namespace Session

/-- Right after what was recorded since, every closing of a checkpoint finds what it
relies on. -/
theorem canClose_after_opened (s : Session) (n : Nat) (es : List Entry) (c : Closing) :
    (s.opened.after n es).canClose s.checkpoint c = true := by
  have hopening : (s.opened.after n es).journal[s.journal.size]? = some .placeholder := by
    simp [after, opened]
  cases c with
  | node kind => simp only [canClose, checkpoint, hopening]
  | error message => simp only [canClose, checkpoint, hopening]
  | splice =>
    cases es with
    | nil => simp [canClose, checkpoint, after, opened]
    | cons e es => simp [canClose, checkpoint, after, opened]
  | undo => rfl

theorem closeChecked_after_opened (s : Session) (n : Nat) (es : List Entry) (c : Closing) :
    (s.opened.after n es).closeChecked s.checkpoint c =
      some (s.after (if c = .undo then 0 else n) (c.record es)) := by
  rw [closeChecked, if_pos (s.canClose_after_opened n es c), close_after_opened]

end Session

/-- A script never meets a journal that does not allow what it does. -/
theorem Script.runChecked_eq {α : Type} (p : Script α) (s : Session) :
    p.runChecked s = some (p.run s) := by
  induction p generalizing s with
  | pure a => rfl
  | look next ih => exact ih _ s
  | bump next ih => exact ih _
  | report m next ih => exact ih _
  | scope body next ihb ih =>
    rw [runChecked, ihb, Option.bind_some, body.run_eq s.opened, closeChecked_after_opened,
      Option.bind_some, ih]
    simp only [run, body.run_eq s.opened, close_after_opened]

/-- An else tag that is not there leaves no trace. -/
theorem Grammar.elseTag_run {s : Session} (h : (elseTag.run s).1 = false) :
    elseTag.run s = (false, s) := by
  have houtcome : elseTag.Ensures s.recovery s.rest fun found rest f =>
      found = false → rest = s.rest ∧ f = [] := by
    rw [elseTag, Script.ensures_checkpoint, Script.ensures_bind]
    rcases leaf_cases (R := s.recovery) .openInverse (by decide) s.rest with
      ⟨rest, _, hleaf⟩ | ⟨-, hleaf⟩
    · rw [Script.ensures_of_eq hleaf, Script.ensures_unless_true, Script.ensures_bind,
        Script.ensures_iff]
      cases ((leaf .close).outcome s.recovery rest).result <;> simp [Closing.wrap]
    · rw [Script.ensures_of_eq hleaf]
      simp [Closing.wrap]
  rw [Script.fst_run] at h
  obtain ⟨hrest, hforest⟩ := Script.ensures_iff.mp houtcome h
  exact Script.run_eq_self elseTag s
    (Script.ensures_eq_iff.mp (Script.ensures_iff.mpr ⟨h, hrest, hforest⟩))

namespace Session

namespace Steered

/-- A session under control that has gone on, with the same checkpoints open. -/
def after (t : Steered) (tokens : Nat) (entries : List Entry) : Steered :=
  { t with session := t.session.after tokens entries }

theorem after_after (t : Steered) (m n : Nat) (es fs : List Entry) :
    (t.after m es).after n fs = t.after (m + n) (es ++ fs) := by
  rw [after, after, Session.after_after]
  rfl

/-- A check that lets a closing pass changes nothing about it. -/
theorem closeInnermost_eq_of_checked {t u : Steered} {closing : Closing}
    (h : t.closeInnermostChecked closing = some u) : t.closeInnermost closing = u := by
  obtain ⟨session, root, marks⟩ := t
  cases marks with
  | nil => cases h
  | cons c marks =>
    obtain ⟨closed, hclosed, rfl⟩ := Option.map_eq_some_iff.mp h
    obtain ⟨-, hclosed⟩ := Option.ite_none_right_eq_some.mp hclosed
    rw [← Option.some.inj hclosed]
    rfl

theorem runScriptChecked_eq (t : Steered) (p : Script Bool) :
    t.runScriptChecked p = some (t.runScript p) := by
  rw [runScriptChecked, p.runChecked_eq, Option.map_some]
  rfl

/-- A check that lets a command pass changes nothing about it. -/
theorem step_eq_of_checked {t : Steered} {c : Command} {r : Answer × Steered}
    (h : t.stepChecked c = some r) : t.step c = r := by
  have hclosing : ∀ {closing : Closing},
      (t.closeInnermostChecked closing).map (fun u => (Answer.nothing, u)) = some r →
        (Answer.nothing, t.closeInnermost closing) = r := by
    intro closing h
    obtain ⟨u, hu, rfl⟩ := Option.map_eq_some_iff.mp h
    rw [closeInnermost_eq_of_checked hu]
  cases c with
  | complete kind => exact hclosing h
  | error message => exact hclosing h
  | abandon => exact hclosing h
  | rollback => exact hclosing h
  | drop => cases h
  | rule rule => exact Option.some.inj ((t.runScriptChecked_eq _).symm.trans h)
  | attempt rule => exact Option.some.inj ((t.runScriptChecked_eq _).symm.trans h)
  | lookahead rule => exact Option.some.inj ((t.runScriptChecked_eq _).symm.trans h)
  | _ => exact Option.some.inj h

theorem perform_eq_of_checked {t : Steered} {commands : List Command} {r : List Answer × Steered}
    (h : t.performChecked commands = some r) : perform step t commands = r := by
  induction commands generalizing t r with
  | nil => exact Option.some.inj h
  | cons c commands ih =>
    obtain ⟨⟨answer, u⟩, hstep, hothers⟩ := Option.bind_eq_some_iff.mp h
    obtain ⟨⟨answers, v⟩, hperform, rfl⟩ := Option.map_eq_some_iff.mp hothers
    rw [perform, step_eq_of_checked hstep]
    simp only [ih hperform]

theorem performChecked_append (t : Steered) (commands later : List Command) :
    t.performChecked (commands ++ later) =
      (t.performChecked commands).bind fun (answers, u) =>
        (u.performChecked later).map fun (others, v) => (answers ++ others, v) := by
  induction commands generalizing t with
  | nil => simp [performChecked]
  | cons c commands ih =>
    cases h : t.stepChecked c with
    | none => simp [performChecked, h]
    | some r =>
      simp only [List.cons_append, performChecked, h, Option.bind_some, ih]
      cases r.2.performChecked commands with
      | none => rfl
      | some r' => simp [Function.comp_def]

/-- A command that neither opens nor closes a checkpoint adds something at most. -/
theorem exists_stepChecked_eq (t : Steered) {c : Command} (hstart : c ≠ .start)
    (hdrop : c ≠ .drop) (hclosing : c.closing? = none) :
    ∃ answer tokens entries, t.stepChecked c = some (answer, t.after tokens entries) := by
  have hself : t = t.after 0 [] := by simp [after]
  have hrun : ∀ p : Script Bool,
      ∃ answer tokens entries, t.runScriptChecked p = some (answer, t.after tokens entries) := by
    intro p
    rw [runScriptChecked_eq, runScript, p.run_eq]
    exact ⟨_, _, _, rfl⟩
  cases c with
  | start => exact absurd rfl hstart
  | drop => exact absurd rfl hdrop
  | complete kind => cases hclosing
  | error message => cases hclosing
  | abandon => cases hclosing
  | rollback => cases hclosing
  | bump =>
    cases h : t.session.rest with
    | nil =>
      refine ⟨.nothing, 0, [], ?_⟩
      rw [← hself]
      show some (Answer.nothing, { t with session := t.session.bump }) = _
      rw [bump_of_rest_nil h]
    | cons k ks =>
      refine ⟨.nothing, 1, [.token t.session.cursor], ?_⟩
      show some (Answer.nothing, { t with session := t.session.bump }) = _
      rw [bump_of_rest_cons h]
      rfl
  | report message => exact ⟨.nothing, 0, [.opening (.failure message), .close], rfl⟩
  | rule r => exact hrun _
  | attempt r => exact hrun _
  | lookahead r => exact hrun _
  | advanced => exact ⟨_, 0, [], congrArg (fun u => some (_, u)) hself⟩
  | «at» kind => exact ⟨_, 0, [], congrArg (fun u => some (_, u)) hself⟩
  | nth n => exact ⟨_, 0, [], congrArg (fun u => some (_, u)) hself⟩
  | recovers => exact ⟨_, 0, [], congrArg (fun u => some (_, u)) hself⟩
  | isPairAhead => exact ⟨_, 0, [], congrArg (fun u => some (_, u)) hself⟩

/-- Closing the innermost checkpoint right after what was added since it was opened. -/
theorem stepChecked_of_closing (t : Steered) {c : Command} {closing : Closing}
    (hc : c.closing? = some closing) (tokens : Nat) (entries : List Entry) :
    ((t.step .start).2.after tokens entries).stepChecked c =
      some (.nothing, t.after (if closing = .undo then 0 else tokens) (closing.record entries)) := by
  simp only [stepChecked, hc]
  show ((((t.session.opened.after tokens entries).closeChecked t.session.checkpoint closing).map
    fun session => (⟨session, t.root, t.marks⟩ : Steered)).map fun u => (Answer.nothing, u)) = _
  rw [closeChecked_after_opened]
  rfl

/-- A scope is left with what its closing makes of what was added inside, and then
the run goes on. -/
theorem performChecked_scope {t : Steered} {inner : List Command} {answers : List Answer}
    {tokens : Nat} {entries : List Entry} {c : Command} {closing : Closing}
    (hinner : (t.step .start).2.performChecked inner =
      some (answers, (t.step .start).2.after tokens entries))
    (hc : c.closing? = some closing) (later : List Command) :
    t.performChecked (.start :: (inner ++ c :: later)) =
      ((t.after (if closing = .undo then 0 else tokens) (closing.record entries)).performChecked
        later).map fun (others, u) => (.nothing :: (answers ++ .nothing :: others), u) := by
  have hclose := t.stepChecked_of_closing hc tokens entries
  show ((t.step .start).2.performChecked (inner ++ c :: later)).map _ = _
  simp only [performChecked_append, hinner, Option.bind_some, performChecked, hclose,
    Option.map_map]
  rfl

/-- A run of commands that closes exactly what it opens is carried out to its end,
and adds something at most. -/
theorem exists_performChecked_eq {commands : List Command} (h : Balanced commands) (t : Steered) :
    ∃ answers tokens entries,
      t.performChecked commands = some (answers, t.after tokens entries) := by
  induction h generalizing t with
  | nil => exact ⟨[], 0, [], by simp [performChecked, after]⟩
  | @plain c later hstart hdrop hclosing _ ih =>
    obtain ⟨answer, m, es, hstep⟩ := t.exists_stepChecked_eq hstart hdrop hclosing
    obtain ⟨answers, n, fs, hlater⟩ := ih (t.after m es)
    refine ⟨answer :: answers, m + n, es ++ fs, ?_⟩
    rw [performChecked, hstep, Option.bind_some]
    simp only [hlater, Option.map_some, after_after]
  | @scope inner later c closing _ hclosing _ ihinner ihlater =>
    obtain ⟨answers, m, es, hinner⟩ := ihinner (t.step .start).2
    obtain ⟨others, n, fs, hlater⟩ :=
      ihlater (t.after (if closing = .undo then 0 else m) (closing.record es))
    rw [performChecked_scope hinner hclosing, hlater, after_after]
    exact ⟨_, _, _, rfl⟩

/-- The way back from a checkpoint leads to where it was opened. -/
theorem perform_rollback {commands : List Command} (h : Balanced commands) (t : Steered) :
    (perform step t (.start :: (commands ++ [.rollback]))).2 = t := by
  obtain ⟨answers, tokens, entries, hinner⟩ := exists_performChecked_eq h (t.step .start).2
  have hscope := performChecked_scope hinner (show Command.rollback.closing? = some .undo from rfl) []
  rw [perform_eq_of_checked hscope]
  simp [after, Closing.record]

end Steered

/-- A command with a place in a run opens a checkpoint, closes one, or does neither. -/
theorem Command.nest_cases {c : Command} {depth depth' : Nat} (h : c.nest depth = some depth') :
    (c = .start ∧ depth' = depth + 1) ∨
      (∃ closing, c.closing? = some closing ∧ depth = depth' + 1) ∨
      (c ≠ .start ∧ c ≠ .drop ∧ c.closing? = none ∧ depth' = depth) := by
  have hclose : ∀ {closing : Closing}, c.closing? = some closing →
      (if depth = 0 ∨ closing = .node .placeholder then none else some (depth - 1)) = some depth' →
        ∃ closing, c.closing? = some closing ∧ depth = depth' + 1 := by
    intro closing hc h
    obtain ⟨hopen, h⟩ := Option.ite_none_left_eq_some.mp h
    have hpos := (not_or.mp hopen).1
    have hdepth := Option.some.inj h
    exact ⟨closing, hc, by omega⟩
  cases c with
  | start => exact .inl ⟨rfl, (Option.some.inj h).symm⟩
  | drop => cases h
  | complete kind => exact .inr (.inl (hclose rfl h))
  | error message => exact .inr (.inl (hclose rfl h))
  | abandon => exact .inr (.inl (hclose rfl h))
  | rollback => exact .inr (.inl (hclose rfl h))
  | _ => exact .inr (.inr ⟨nofun, nofun, rfl, (Option.some.inj h).symm⟩)

/-- Commands that are well nested below some open checkpoints go up to the closing of
the innermost of these with a run that closes what it opens, and are such a run
themselves if none is open. -/
theorem exists_balanced_of_nest {commands : List Command} {depth : Nat}
    (h : commands.foldlM Command.nest depth = some 0) :
    ∃ inner, Balanced inner ∧
      ((depth = 0 ∧ commands = inner) ∨
        ∃ c closing later outer, depth = outer + 1 ∧ commands = inner ++ c :: later ∧
          c.closing? = some closing ∧ later.foldlM Command.nest outer = some 0) := by
  induction hlength : commands.length using Nat.strong_induction_on generalizing commands depth with
  | _ length ih =>
    cases commands with
    | nil => exact ⟨[], .nil, .inl ⟨Option.some.inj h, rfl⟩⟩
    | cons c commands =>
      rw [List.foldlM_cons] at h
      obtain ⟨depth', hnest, hothers⟩ := Option.bind_eq_some_iff.mp h
      have hlt : commands.length < length := hlength ▸ Nat.lt_succ_self _
      rcases Command.nest_cases hnest with ⟨rfl, rfl⟩ | ⟨closing, hc, rfl⟩ |
        ⟨hstart, hdrop, hc, rfl⟩
      · -- The scope ends where its own checkpoint is closed, and the run goes on from there.
        obtain ⟨inner, hinner, ⟨hzero, -⟩ | ⟨c, closing, later, outer, hdepth, rfl, hc, hlater⟩⟩ :=
          ih _ hlt hothers rfl
        · cases hzero
        obtain rfl := Nat.succ.inj hdepth
        have hshort : later.length < length := by
          rw [List.length_append, List.length_cons] at hlt
          omega
        obtain ⟨run, hrun, hend⟩ := ih _ hshort hlater rfl
        refine ⟨.start :: (inner ++ c :: run), .scope hinner hc hrun, ?_⟩
        rcases hend with ⟨hzero, rfl⟩ | ⟨c', closing', later', outer, hdepth, rfl, hend⟩
        · exact .inl ⟨hzero, rfl⟩
        · exact .inr ⟨c', closing', later', outer, hdepth, by simp, hend⟩
      · exact ⟨[], .nil, .inr ⟨c, closing, commands, depth', rfl, rfl, hc, hothers⟩⟩
      · obtain ⟨inner, hinner, hend⟩ := ih _ hlt hothers rfl
        refine ⟨c :: inner, .plain hstart hdrop hc hinner, ?_⟩
        rcases hend with ⟨hzero, rfl⟩ | ⟨c', closing', later', outer, hdepth, rfl, hend⟩
        · exact .inl ⟨hzero, rfl⟩
        · exact .inr ⟨c', closing', later', outer, hdepth, rfl, hend⟩

/-- What is well nested closes exactly what it opens. -/
theorem WellNested.balanced {commands : List Command} (h : WellNested commands) :
    Balanced commands := by
  obtain ⟨inner, hinner, ⟨-, rfl⟩ | ⟨c, closing, later, outer, hdepth, -⟩⟩ :=
    exists_balanced_of_nest h
  · exact hinner
  · cases hdepth

/-- A session only gains. (1) A script is never stopped by what it finds in the journal,
and what it adds, how far it goes and what it answers are the same in all sessions
with the same stream, recovery set and cursor. (2) So it is with a run of commands
that closes exactly the checkpoints that it opens, whatever checkpoints are open
around it; to roll back a checkpoint that was opened before it leads back to the
session as it was. (3) A lookahead answers and changes nothing. (4) A failed attempt
changes nothing, and a successful one does what its rule does. (5) An else tag that is
not there changes nothing. -/
theorem only_appends (s : Session) :
    (∀ {α : Type} (p : Script α),
      p.runChecked s = some (p.run s) ∧
      ∃ result tokens entries, ∀ t : Session,
        t.stream = s.stream → t.recovery = s.recovery → t.cursor = s.cursor →
          p.run t = (result, t.after tokens entries)) ∧
    (∀ (root : Checkpoint) (marks : List Checkpoint) (commands : List Command),
      Balanced commands →
        let t : Steered := ⟨s, root, marks⟩
        t.performChecked commands = some (perform Steered.step t commands) ∧
        (∃ tokens entries,
          (perform Steered.step t commands).2 = ⟨s.after tokens entries, root, marks⟩) ∧
        (perform Steered.step t (.start :: (commands ++ [.rollback]))).2 = t) ∧
    (∀ rule : Script Bool, (Script.lookahead rule).run s = ((rule.run s).1, s)) ∧
    (∀ rule : Script Bool, ((Script.attempt rule).run s).1 = (rule.run s).1 ∧
      ((rule.run s).1 = false → (Script.attempt rule).run s = (false, s)) ∧
      ((rule.run s).1 = true → (Script.attempt rule).AgreesAt rule s)) ∧
    ((Grammar.elseTag.run s).1 = false → Grammar.elseTag.run s = (false, s)) := by
  refine ⟨fun p => ⟨p.runChecked_eq s, p.exists_run_eq_after s⟩, ?_,
    fun rule => rule.lookahead_run s, fun rule => rule.attempt_run s, Grammar.elseTag_run⟩
  intro root marks commands h t
  obtain ⟨answers, tokens, entries, hperform⟩ := t.exists_performChecked_eq h
  refine ⟨?_, ⟨tokens, entries, ?_⟩, ?_⟩
  · rw [hperform, Steered.perform_eq_of_checked hperform]
  · rw [Steered.perform_eq_of_checked hperform]
    rfl
  · exact Steered.perform_rollback h t

theorem only_appends_inside_node :
    let stream : TokenStream :=
      ⟨"\x7b\x7b^a\x7d\x7d", #[⟨.openInverse, 3⟩, ⟨.ident, 1⟩, ⟨.close, 2⟩], #[0, 1, 2], by decide⟩
    let s : Session :=
      ⟨stream, .syncPoints, 0, #[.placeholder, .opening (.failure "m"), .close, .placeholder]⟩
    let t : Steered := ⟨s, ⟨0, 0⟩, [⟨3, 0⟩]⟩
    let commands : List Command := [.attempt .elseTag, .start, .bump, .start, .rule .path, .abandon,
      .complete .expression]
    Balanced commands ∧
      (perform Steered.step t (.start :: (commands ++ [.rollback]))).2 = t ∧
      (Grammar.elseTag.run s).1 = false ∧ (Grammar.elseTag.run s).2 = s ∧
      (Grammar.inverseTag.run s).1 = true ∧
      (Script.attempt Grammar.inverseTag).AgreesAt Grammar.inverseTag s := by
  intro stream s t commands
  have hnested : Balanced commands := WellNested.balanced (by decide)
  have helse : (Grammar.elseTag.run s).1 = false := by decide +kernel
  have htag : (Grammar.inverseTag.run s).1 = true := by decide +kernel
  obtain ⟨-, hcommands, -, hattempt, helseTag⟩ := only_appends s
  obtain ⟨-, -, hrollback⟩ := hcommands ⟨0, 0⟩ [⟨3, 0⟩] commands hnested
  exact ⟨hnested, hrollback, helse, congrArg Prod.snd (helseTag helse), htag,
    (hattempt Grammar.inverseTag).2.2 htag⟩

end Session

end TemplateTree
