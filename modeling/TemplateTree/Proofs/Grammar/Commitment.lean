import TemplateTree.Proofs.Grammar.PairLookahead
import TemplateTree.Proofs.Grammar.Stopping
import TemplateTree.Proofs.Grammar.Termination
import TemplateTree.Proofs.Script.Messages

/-!
# Statements are never given up

Whether a statement starts is told by the kinds of the next two tokens, and one that
has started succeeds, however broken it is and however deep the blocks inside it are.
The rules are prepared for less: a block would turn into an error if its opening tag
failed, and a program would keep what a sequence of statements has taken before it
failed. Neither happens in any session. The first is shown by collecting all that the
rules ever say, in scopes that are undone as well.
-/

namespace TemplateTree

/-- A statement starts at the cursor. An opening delimiter of an inverse block that is
closed at once belongs to an else tag. -/
def Session.StartsStatement (s : Session) : Prop :=
  s.current ∈ [.content, .comment, .openValue, .openRaw, .openPartial, .openBlock] ∨
    s.current = .openInverse ∧ s.ahead 1 ≠ .close

namespace Grammar

open Script

theorem startsStatement_rest (s : Session) :
    startsStatement s.rest = true ↔ s.StartsStatement := by
  have hview := congrArg View.ahead s.view_eq_ofList
  have hcurrent : s.current = s.rest.getD 0 .endOfInput := congrFun hview 0
  have hnext : s.ahead 1 = s.rest.getD 1 .endOfInput := congrFun hview 1
  rw [Session.StartsStatement, hcurrent, hnext]
  cases s.rest with
  | nil => simp [startsStatement]
  | cons k ks => cases k <;> cases ks <;> simp [startsStatement]

/-- Not the message of a block that has lost its opening tag. -/
def IsProper (m : String) : Prop := m ≠ "malformed block" ∧ m ≠ "malformed inverse block"

theorem Problem.isProper {p : Problem} (hblock : p ≠ .malformedBlock)
    (hinverse : p ≠ .malformedInverse) : IsProper p.message := by
  cases p with
  | expected kind => cases kind <;> exact ⟨by decide, by decide⟩
  | malformedBlock => exact absurd rfl hblock
  | malformedInverse => exact absurd rfl hinverse
  | _ => exact ⟨by decide, by decide⟩

theorem Problem.closing_isProper {p : Problem} (hblock : p ≠ .malformedBlock)
    (hinverse : p ≠ .malformedInverse) : ∀ m ∈ p.closing.message?, IsProper m := by
  intro m hm
  obtain rfl := Option.some.inj hm
  exact isProper hblock hinverse

theorem expected_closing (kind : Kind) :
    ∀ m ∈ (Problem.expected kind).closing.message?, IsProper m :=
  Problem.closing_isProper nofun nofun

theorem leaf_proper (kind : Kind) (s : Session) : Says IsProper (leaf kind) s := by
  refine SaysClosing.checkpoint ((says_current _).bind_closing fun k t => ?_)
  split
  · exact (says_take t).bind_closing fun _ => saysClosing_return _ nofun
  · exact (says_takeWhile _ t).bind_closing fun _ => saysClosing_return _ (expected_closing kind)

theorem greedyLeaf_proper (kind : Kind) (s : Session) : Says IsProper (greedyLeaf kind) s := by
  refine (leaf_proper kind s).bind fun found t => ?_
  cases found with
  | true => exact says_return _ t
  | false =>
    refine (says_current t).bind fun k u => ?_
    split
    · have hsaid : IsProper (Problem.expected kind).message := Problem.isProper nofun nofun
      refine (says_complain hsaid u).bind fun _ v => ?_
      refine Says.bind (SaysClosing.checkpoint ?_) fun _ => leaf_proper kind
      refine (says_left _).bind_closing fun before _ => ?_
      refine (says_takeWhile _ _).bind_closing fun _ _ => ?_
      refine (says_left _).bind_closing fun after w => ?_
      split
      · exact saysClosing_return _ (expected_closing kind) w
      · exact saysClosing_return _ nofun w
    · exact leaf_proper kind u

theorem pathStep_proper (s : Session) : Says IsProper pathStep s := by
  refine SaysClosing.checkpoint ((leaf_proper _ _).unless_closing nofun fun t => ?_)
  refine (says_view t).bind_closing fun v u => ?_
  split
  · exact saysClosing_return _ nofun u
  · exact (leaf_proper _ u).bind_closing fun _ => saysClosing_return _ nofun

theorem pathSteps_proper (bound : Nat) (s : Session) : Says IsProper (pathSteps bound) s := by
  induction bound generalizing s with
  | zero => exact says_return _ s
  | succ bound ih =>
    refine (pathStep_proper s).bind fun found t => ?_
    cases found with
    | false => exact says_return _ t
    | true => exact ih t

theorem path_proper (s : Session) : Says IsProper path s := by
  refine (says_view s).bind fun v t => ?_
  split
  · exact says_return _ t
  · refine SaysClosing.checkpoint
      ((leaf_proper _ _).unless_closing (expected_closing _) fun u => ?_)
    exact (says_left u).bind_closing fun _ u' =>
      (pathSteps_proper _ u').bind_closing fun _ => saysClosing_return _ nofun

theorem param_proper (s : Session) : Says IsProper param s := by
  have hfirst : ∀ t,
      Says IsProper (firstOf [path, leaf .string, leaf .integer, leaf .boolean]) t := by
    refine fun t => Says.firstOf (fun rule hrule => ?_) t
    simp only [List.mem_cons, List.not_mem_nil, or_false] at hrule
    obtain rfl | rfl | rfl | rfl := hrule
    · exact path_proper
    all_goals exact leaf_proper _
  refine SaysClosing.checkpoint ((hfirst _).bind_closing fun found t => ?_)
  cases found with
  | false => exact saysClosing_return _ (expected_closing _) t
  | true => exact saysClosing_return _ nofun t

theorem params_proper (s : Session) : Says IsProper params s :=
  SaysClosing.checkpoint ((param_proper _).unless_closing (expected_closing _) fun t =>
    (Says.many param_proper t).bind_closing fun _ => saysClosing_return _ nofun)

theorem hashPair_proper (s : Session) : Says IsProper hashPair s := by
  refine SaysClosing.checkpoint ((leaf_proper _ _).unless_closing (expected_closing _) fun t => ?_)
  refine (leaf_proper _ t).unless_closing (Problem.closing_isProper nofun nofun) fun u => ?_
  exact (param_proper u).unless_closing (expected_closing _) (saysClosing_return _ nofun)

/-- A scope that keeps or undoes what is inside says nothing when it is closed. -/
theorem saysClosing_kept {α : Type} (kept : Bool) (a : α) (s : Session) :
    SaysClosing IsProper (return (if kept then .splice else .undo, a)) s := by
  cases kept with
  | false => exact saysClosing_return _ nofun s
  | true => exact saysClosing_return _ nofun s

theorem hashPairs_proper (bound : Nat) (s : Session) : Says IsProper (hashPairs bound) s := by
  induction bound generalizing s with
  | zero => exact says_return _ s
  | succ bound ih =>
    refine Says.bind (SaysClosing.checkpoint ?_) fun r t => ?_
    · exact (Says.tracked hashPair_proper _).bind_closing fun _ => saysClosing_kept _ _
    · obtain ⟨found, moved⟩ := r
      cases found with
      | false => exact says_return _ t
      | true => exact ih t

theorem hash_proper (s : Session) : Says IsProper hash s := by
  refine SaysClosing.checkpoint ((Says.tracked hashPair_proper _).bind_closing fun r t => ?_)
  obtain ⟨found, moved⟩ := r
  cases found with
  | false =>
    cases moved with
    | false => exact saysClosing_return _ (expected_closing _) t
    | true => exact saysClosing_return _ nofun t
  | true =>
    exact (says_left t).bind_closing fun _ u =>
      (hashPairs_proper _ u).bind_closing fun _ => saysClosing_return _ nofun

theorem trailingHash_proper (s : Session) : Says IsProper trailingHash s :=
  SaysClosing.checkpoint ((Says.tracked hash_proper _).bind_closing fun _ => saysClosing_kept _ _)

theorem arguments_proper (s : Session) : Says IsProper arguments s :=
  SaysClosing.checkpoint ((params_proper _).unless_closing nofun fun t =>
    (trailingHash_proper t).bind_closing fun _ => saysClosing_return _ nofun)

theorem leadingHash_proper (s : Session) : Says IsProper leadingHash s :=
  (says_view s).bind fun _ _ =>
    SaysClosing.checkpoint ((Says.tracked hash_proper _).bind_closing fun _ => saysClosing_kept _ _)

theorem expression_proper (s : Session) : Says IsProper expression s := by
  refine SaysClosing.checkpoint ((path_proper _).unless_closing (expected_closing _) fun t => ?_)
  refine (leadingHash_proper t).bind_closing fun kept u => ?_
  cases kept with
  | false => exact (arguments_proper u).bind_closing fun _ => saysClosing_return _ nofun
  | true => exact saysClosing_return _ nofun u

theorem tag_proper (opening node : Kind) {inside : Script Bool}
    (hinside : ∀ s, Says IsProper inside s) (s : Session) :
    Says IsProper (tag opening node inside) s :=
  SaysClosing.checkpoint ((leaf_proper _ _).unless_closing (expected_closing _) fun t =>
    (hinside t).bind_closing fun _ u =>
      (greedyLeaf_proper _ u).bind_closing fun _ => saysClosing_return _ nofun)

theorem endTag_proper (s : Session) : Says IsProper endTag s := tag_proper _ _ path_proper s

theorem partialTag_proper (s : Session) : Says IsProper partialTag s := by
  refine tag_proper _ _ (fun t => (path_proper t).bind fun found u => ?_) s
  cases found with
  | false => exact says_return _ u
  | true => exact (Says.attempt path_proper u).bind fun _ => says_return _

theorem mustache_proper (s : Session) : Says IsProper mustache s := by
  have hrest : ∀ t, SaysClosing IsProper (do
      let _ ← expression
      let _ ← greedyLeaf .close
      return (Closing.node .mustache, true)) t := fun t =>
    (expression_proper t).bind_closing fun _ u =>
      (greedyLeaf_proper _ u).bind_closing fun _ => saysClosing_return _ nofun
  refine SaysClosing.checkpoint ((says_current _).bind_closing fun k t => ?_)
  split
  · exact (leaf_proper _ t).bind_closing fun _ => hrest
  · have hsaid : IsProper Problem.expectedMustache.message := Problem.isProper nofun nofun
    exact (says_complain hsaid t).bind_closing fun _ => hrest

theorem elseTag_proper (s : Session) : Says IsProper elseTag s :=
  SaysClosing.checkpoint ((leaf_proper _ _).unless_closing nofun fun t =>
    (leaf_proper _ t).unless_closing nofun (saysClosing_return _ nofun))

/-- A block whose opening tag succeeds does not say that it has lost it. -/
theorem block_proper {opening : Script Bool} {inner : Script Unit} {s : Session}
    (hopening : ∀ t, Says IsProper opening t) (hfound : (opening.run s.opened).1 = true)
    (malformed : Problem) (hinner : ∀ t, Says IsProper inner t) :
    Says IsProper (block opening malformed inner) s := by
  refine SaysClosing.checkpoint ((hopening _).bind_closing_of_eq hfound fun t => ?_)
  exact (hinner t).bind_closing fun _ u =>
    (endTag_proper u).bind_closing fun _ => saysClosing_return _ nofun

theorem exists_rest_of_current {s : Session} {k : Kind} (h : s.current = k)
    (hk : k ≠ .endOfInput) : ∃ ks, s.rest = k :: ks := by
  apply exists_eq_cons_of_headD _ hk
  exact (s.stream.headD_drop_kinds s.cursor).trans h

theorem tag_run_opened {s : Session} {opening : Kind} (h : s.current = opening)
    (hopening : opening ≠ .endOfInput) (node : Kind) (inside : Script Bool) :
    ((tag opening node inside).run s.opened).1 = true := by
  obtain ⟨ks, hrest⟩ := exists_rest_of_current h hopening
  rw [fst_run]
  show ((tag opening node inside).outcome s.recovery s.rest).result = true
  rw [hrest]
  exact ensures_iff.mp (tag_found opening node inside ks)

/-- A block is read only where its opening delimiter is, so its opening tag succeeds. -/
theorem statementOver_proper {inner : Script Unit} (hinner : ∀ s, Says IsProper inner s)
    (s : Session) : Says IsProper (statementOver inner) s := by
  have hblock : ∀ opening node malformed (t : Session), opening ≠ .endOfInput →
      t.current = opening → Says IsProper (block (tag opening node expression) malformed inner) t :=
    fun _ _ _ _ hne hcurrent =>
      block_proper (tag_proper _ _ expression_proper) (tag_run_opened hcurrent hne _ _) _ hinner
  refine Says.bind_run (says_current s) ?_
  generalize hk : (current.run s).1 = k
  cases k with
  | openInverse =>
    refine Says.bind_run (Says.lookahead elseTag_proper s) ?_
    rw [show (current.run s).2 = s from rfl, lookahead_run]
    cases (elseTag.run s).1 with
    | false => exact hblock .openInverse .inverseTag .malformedInverse s (by decide) hk
    | true => exact says_return _ s
  | openBlock => exact hblock .openBlock .blockTag .malformedBlock s (by decide) hk
  | openValue => exact mustache_proper s
  | openRaw => exact mustache_proper s
  | openPartial => exact partialTag_proper s
  | content => exact (says_take s).bind fun _ => says_return _
  | comment =>
    exact SaysClosing.checkpoint ((says_take _).bind_closing fun _ => saysClosing_return _ nofun)
  | _ => exact says_return _ s

theorem statementsOver_proper {inner : Script Unit} (hinner : ∀ s, Says IsProper inner s)
    (s : Session) : Says IsProper (statementsOver inner) s :=
  SaysClosing.checkpoint <|
    (statementOver_proper hinner _).unless_closing (expected_closing _) fun t =>
      (Says.many (statementOver_proper hinner) t).bind_closing fun _ => saysClosing_return _ nofun

/-- Programs by induction on how deep blocks may lie in them. -/
theorem programUpTo_proper (depth : Nat) (s : Session) : Says IsProper (programUpTo depth) s := by
  induction depth generalizing s with
  | zero => exact says_return _ s
  | succ depth ih =>
    refine (says_left s).bind fun n t => ?_
    split
    · exact says_return _ t
    · refine Says.bind (SaysClosing.checkpoint ?_) fun found u => ?_
      · exact (Says.tracked (statementsOver_proper ih) _).bind_closing fun _ => saysClosing_kept _ _
      · cases found with
        | false => exact says_return _ u
        | true =>
          refine (elseTag_proper u).bind fun found v => ?_
          cases found with
          | false => exact says_return _ v
          | true => exact (statementsOver_proper ih v).bind fun _ => says_return _

theorem program_proper (s : Session) : Says IsProper program s :=
  (says_left s).bind programUpTo_proper

theorem recover_proper (s : Session) : Says IsProper recover s := by
  have hlast : ∀ before t, Says IsProper (do
      if (← left) = before then
        Script.checkpoint do
          take
          return (Problem.invalidToken.closing, ())) t := by
    intro before t
    refine (says_left t).bind fun n u => ?_
    split
    · exact SaysClosing.checkpoint ((says_take _).bind_closing fun _ =>
        saysClosing_return _ (Problem.closing_isProper nofun nofun))
    · exact says_return _ u
  refine (says_left s).bind fun before t => (says_current t).bind fun k u => ?_
  split
  · refine Says.bind (SaysClosing.checkpoint ?_) fun _ => hlast before
    exact (endTag_proper _).bind_closing fun _ =>
      saysClosing_return _ (Problem.closing_isProper nofun nofun)
  · exact hlast before u

theorem resumeUpTo_proper (bound : Nat) (s : Session) : Says IsProper (resumeUpTo bound) s := by
  induction bound generalizing s with
  | zero => exact says_return _ s
  | succ bound ih =>
    refine (says_left s).bind fun n t => ?_
    split
    · exact says_return _ t
    · exact (recover_proper t).bind fun _ u => (program_proper u).bind fun _ => ih

theorem template_proper (root : Kind) (s : Session) : Says IsProper (template root) s :=
  SaysClosing.checkpoint ((program_proper _).bind_closing fun _ t =>
    (says_left t).bind_closing fun _ u =>
      (resumeUpTo_proper _ u).bind_closing fun _ => saysClosing_return _ nofun)

theorem Rule.proper (r : Rule) (s : Session) : Says IsProper r.script s := by
  cases r with
  | program => exact (program_proper s).bind fun _ => says_return _
  | statements => exact statementsOver_proper program_proper s
  | statement => exact statementOver_proper program_proper s
  | blockTag => exact tag_proper _ _ expression_proper s
  | inverseTag => exact tag_proper _ _ expression_proper s
  | endTag => exact endTag_proper s
  | partialTag => exact partialTag_proper s
  | mustache => exact mustache_proper s
  | elseTag => exact elseTag_proper s
  | expression => exact expression_proper s
  | params => exact params_proper s
  | param => exact param_proper s
  | hash => exact hash_proper s
  | hashPair => exact hashPair_proper s
  | path => exact path_proper s
  | leaf kind => exact leaf_proper kind s
  | greedyLeaf kind => exact greedyLeaf_proper kind s

theorem not_startsStatement_run {α : Type} {p : Script α} {s : Session}
    (h : p.Ensures s.recovery s.rest fun _ rest _ => startsStatement rest = false) :
    ¬ (p.run s).2.StartsStatement := by
  rw [← startsStatement_rest, rest_run, ensures_iff.mp h]
  exact Bool.false_ne_true

/-- Whether a statement succeeds is seen from the next two tokens, and it takes a token
where it does and leaves no trace where it does not. -/
theorem statementOver_run (inner : Script Unit) (s : Session) :
    (((statementOver inner).run s).1 = true ↔ s.StartsStatement) ∧
      (((statementOver inner).run s).1 = true →
        s.cursor < ((statementOver inner).run s).2.cursor) ∧
      (((statementOver inner).run s).1 = false → (statementOver inner).run s = (false, s)) := by
  obtain ⟨hfound, hnone⟩ := ensures_iff.mp (statementOver_found inner s.rest (R := s.recovery))
  refine ⟨?_, Advances.run (statementOver_advances inner s.rest), fun hno => ?_⟩
  · rw [fst_run, hfound, startsStatement_rest]
  · rw [fst_run] at hno
    obtain ⟨hrest, hforest⟩ := hnone hno
    exact run_eq_self _ s (ensures_eq_iff.mp (ensures_iff.mpr ⟨hno, hrest, hforest⟩))

/-- A sequence of statements that fails has taken nothing. -/
theorem statementsOver_run (inner : Script Unit) (s : Session)
    (h : ((statementsOver inner).run s).1 = false) :
    ((statementsOver inner).run s).2.cursor = s.cursor := by
  obtain ⟨-, hnone⟩ := ensures_iff.mp (statementsOver_stops inner s.rest (R := s.recovery))
  rw [fst_run] at h
  have hlength := length_leavesAll s.recovery (statementsOver inner) s.rest
  rw [hnone h] at hlength
  rw [cursor_run]
  omega

/-- So the program around it is never told that one failed after it had moved. -/
theorem tracked_statementsOver_run (inner : Script Unit) (s : Session) :
    ((tracked (statementsOver inner)).run s).1 ≠ (false, true) := by
  have htracked : (tracked (statementsOver inner)).Ensures s.recovery s.rest fun r _ _ =>
      r ≠ (false, true) := by
    rw [ensures_tracked]
    apply (statementsOver_stops inner s.rest).mono
    intro found rest _ h hr
    obtain ⟨hfound, hmoved⟩ := Prod.mk.inj hr
    have hlt := of_decide_eq_true hmoved
    rw [h.2 hfound] at hlt
    exact Nat.lt_irrefl _ hlt
  rw [fst_run]
  exact ensures_iff.mp htracked

/-- Statements never fail midway. In every session, and whatever is read inside blocks, a
statement succeeds exactly where one starts. It moves the cursor there, and where it
fails it leaves the session as it was. So a sequence of statements fails without taking
anything, a program is never told that one failed after it had moved, no rule ever says
that a block has lost its opening tag, whether it is undone later or not, and where a
program stops no statement starts. -/
theorem statement_commits (s : Session) :
    (∀ inner : Script Unit,
      (((statementOver inner).run s).1 = true ↔ s.StartsStatement) ∧
      (((statementOver inner).run s).1 = true →
        s.cursor < ((statementOver inner).run s).2.cursor) ∧
      (((statementOver inner).run s).1 = false → (statementOver inner).run s = (false, s)) ∧
      (((statementsOver inner).run s).1 = false →
        ((statementsOver inner).run s).2.cursor = s.cursor) ∧
      ((tracked (statementsOver inner)).run s).1 ≠ (false, true)) ∧
    (∀ (r : Rule) (m : String),
      (m ∈ r.script.messages s → m ≠ "malformed block" ∧ m ≠ "malformed inverse block") ∧
      (.opening (.failure m) ∈ (r.script.run s).2.journal →
        .opening (.failure m) ∈ s.journal ∨
          m ≠ "malformed block" ∧ m ≠ "malformed inverse block")) ∧
    (∀ (root : Kind), ∀ m ∈ (template root).messages s,
      m ≠ "malformed block" ∧ m ≠ "malformed inverse block") ∧
    ¬ (program.run s).2.StartsStatement := by
  refine ⟨fun inner => ?_, fun r m => ⟨r.proper s m, fun h => ?_⟩,
    fun root => template_proper root s, not_startsStatement_run (program_stops s.rest)⟩
  · obtain ⟨hstarts, hmoves, hstays⟩ := statementOver_run inner s
    exact ⟨hstarts, hmoves, hstays, statementsOver_run inner s,
      tracked_statementsOver_run inner s⟩
  · obtain h | h := mem_messages_of_mem_journal r.script h
    · exact .inl h
    · exact .inr (r.proper s m h)

/-- A block with a broken opening tag and no end is taken. An else tag behind it starts
no statement. -/
theorem statement_commits_broken_block :
    let stream : TokenStream := ⟨"\x7b\x7b#=\x7d\x7d\x7b\x7b^\x7d\x7d", #[⟨.openBlock, 3⟩,
      ⟨.equals, 1⟩, ⟨.close, 2⟩, ⟨.openInverse, 3⟩, ⟨.close, 2⟩], #[0, 1, 2, 3, 4], by decide⟩
    let s : Session := ⟨stream, .syncPoints, 0, #[.placeholder]⟩
    let t : Session := ⟨stream, .syncPoints, 3, #[.placeholder]⟩
    (s.StartsStatement ∧ ((statementOver program).run s).1 = true ∧
        s.cursor < ((statementOver program).run s).2.cursor) ∧
      ¬ t.StartsStatement ∧ (statementOver program).run t = (false, t) := by
  intro stream s t
  obtain ⟨hs, -⟩ := statement_commits s
  obtain ⟨hstarts, hmoves, -⟩ := hs program
  obtain ⟨ht, -⟩ := statement_commits t
  obtain ⟨helse, -, hstays, -⟩ := ht program
  have hblock : s.StartsStatement := .inl (by decide)
  have hmissing : ¬ t.StartsStatement := by
    intro h
    obtain h | h := h
    · revert h
      decide
    · exact h.2 rfl
  have hno : ((statementOver program).run t).1 = false :=
    Bool.eq_false_iff.mpr fun hfound => hmissing (helse.mp hfound)
  exact ⟨⟨hblock, hstarts.mpr hblock, hmoves (hstarts.mpr hblock)⟩, hmissing, hstays hno⟩

end Grammar

end TemplateTree
