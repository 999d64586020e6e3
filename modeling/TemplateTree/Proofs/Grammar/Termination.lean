import TemplateTree.Grammar.Rule
import TemplateTree.Proofs.Grammar.Keys
import TemplateTree.Proofs.Grammar.TemplateShape
import TemplateTree.Proofs.Script.Loop

/-!
# Parsing terminates

The grammar has loops, each of which goes on for as long as something succeeds,
and it has one recursion, from a program through the blocks in it back to a
program. Both end for the same reason: whatever goes on has taken a token. The
rules count down from the number of tokens that are left, and this count is
never what ends them, so the counts are not part of what the rules do.
-/

namespace TemplateTree.Grammar

open Script

variable {R : KindSet} {ks : List Kind}

/-- The loops of the grammar. -/
inductive Loop where
  | statements
  | params
  | hash
  | path
  /-- Passing over unreadable tokens where a leaf is missing. -/
  | unreadable
  /-- Skipping what stands before a token that is looked for. -/
  | skipping (kind : Kind)
  /-- Reading on after a program has ended before the input does. -/
  | resuming
  deriving DecidableEq, Repr

/-- One more pair of a hash: whether it is complete, and whether it took anything. -/
def hashStep : Script (Bool × Bool) := checkpoint do
  let (found, moved) ← tracked hashPair
  return (if found || moved then .splice else .undo, found, moved)

/-- Takes a token if a condition on what lies ahead holds. -/
def takeIf (p : View → Bool) : Script Bool := do
  if p (← view) then
    take
    return true
  return false

/-- Recovers and reads another program, unless nothing is left. -/
def resumeStep : Script Bool := do
  if (← left) = 0 then return false
  recover
  program
  return true

namespace Loop

/-- What a loop repeats. It goes on after a yes. -/
def body : Loop → Script Bool
  | statements => attempt statement
  | params => attempt param
  | hash => do return (← hashStep).1
  | path => pathStep
  | unreadable => takeIf fun v => v.ahead 0 = .invalid
  | skipping kind => takeIf (skips kind)
  | resuming => resumeStep

/-- A loop as the rules have it, counted. -/
def script : Loop → Script Unit
  | statements => many statement
  | params => many param
  | hash => do let _ ← hashPairs (← left)
  | path => do pathSteps (← left)
  | unreadable => takeWhile fun v => v.ahead 0 = .invalid
  | skipping kind => takeWhile (skips kind)
  | resuming => do resumeUpTo (← left)

end Loop

theorem repeatUpTo_eq_countedLoop (rule : Script Bool) (bound : Nat) :
    repeatUpTo rule bound = countedLoop (attempt rule) bound := by
  induction bound with
  | zero => rfl
  | succ bound ih => rw [repeatUpTo, countedLoop, ih]

theorem pathSteps_eq_countedLoop (bound : Nat) : pathSteps bound = countedLoop pathStep bound := by
  induction bound with
  | zero => rfl
  | succ bound ih => rw [pathSteps, countedLoop, ih]

theorem takeUpTo_eq_countedLoop (p : View → Bool) (bound : Nat) :
    takeUpTo p bound = countedLoop (takeIf p) bound := by
  induction bound with
  | zero => rfl
  | succ bound ih =>
    rw [takeUpTo, countedLoop, ih]
    show Script.look _ = Script.look _
    congr 1
    funext v
    cases h : p v <;> simp [h] <;> rfl

theorem hashPairs_eq_countedLoop (bound : Nat) :
    (do let _ ← hashPairs bound) = countedLoop Loop.hash.body bound := by
  induction bound with
  | zero => rfl
  | succ bound ih =>
    show (hashStep.bind fun b => if b.1 then hashPairs bound else .pure !b.2).bind
        (fun _ => .pure ()) =
      (hashStep.bind fun b => .pure b.1).bind
        fun found => if found then countedLoop Loop.hash.body bound else .pure ()
    rw [bind_assoc, bind_assoc]
    congr 1
    funext b
    obtain ⟨found, moved⟩ := b
    cases found with
    | false => rfl
    | true => exact ih

theorem resumeUpTo_eq_countedLoop (bound : Nat) :
    resumeUpTo bound = countedLoop resumeStep bound := by
  induction bound with
  | zero => rfl
  | succ bound ih =>
    rw [resumeUpTo, countedLoop, ih]
    show Script.look _ = Script.look _
    congr 1
    funext v
    by_cases h : v.left = 0
    · simp only [pure_bind, h, if_true]
      rfl
    · simp only [pure_bind, h, if_false]
      show recover.bind (fun _ => program.bind fun _ => countedLoop resumeStep bound) =
        (recover.bind fun _ => program.bind fun _ => .pure true).bind
          fun found => if found then countedLoop resumeStep bound else .pure ()
      simp only [bind_assoc, pure_bind, if_true]

/-- The loop as the rules have it is counted by the tokens that are left. -/
theorem Loop.script_run (l : Loop) (s : Session) :
    l.script.run s = (countedLoop l.body s.rest.length).run s := by
  have hleft : ∀ loop : Nat → Script Unit, (do loop (← left)).run s = (loop s.rest.length).run s := by
    intro loop
    rw [s.length_rest]
    rfl
  cases l with
  | statements => exact (hleft _).trans (by rw [repeatUpTo_eq_countedLoop]; rfl)
  | params => exact (hleft _).trans (by rw [repeatUpTo_eq_countedLoop]; rfl)
  | hash => exact (hleft fun n => do let _ ← hashPairs n).trans (by rw [hashPairs_eq_countedLoop])
  | path => exact (hleft _).trans (by rw [pathSteps_eq_countedLoop]; rfl)
  | unreadable => exact (hleft _).trans (by rw [takeUpTo_eq_countedLoop]; rfl)
  | skipping kind => exact (hleft _).trans (by rw [takeUpTo_eq_countedLoop]; rfl)
  | resuming => exact (hleft _).trans (by rw [resumeUpTo_eq_countedLoop]; rfl)

theorem attempt_advances {rule : Script Bool} (h : Advances rule R ks) :
    Advances (attempt rule) R ks := by
  rw [Advances, ensures_attempt]
  apply h.mono
  intro found rest _ hlt
  cases found with
  | false => simp
  | true => simpa using hlt

theorem pathStep_advances (ks : List Kind) : Advances pathStep R ks := by
  refine (leaf_advances (by decide) ks).checkpoint (keeps_of_part fun v ks => ?_)
  split
  · simp [Keeps]
  · exact keeps_of_part (fun _ => keeps_return (by simp)) ks

theorem hashStep_advances (ks : List Kind) : Advances Loop.hash.body R ks := by
  rw [Advances, Loop.body, hashStep, ensures_bind, ensures_checkpoint, ensures_bind,
    ensures_tracked]
  apply (hashPair_advances ks).mono
  intro found rest _ hlt
  cases found with
  | false => simp
  | true => simpa using hlt

theorem takeIf_advances {p : View → Bool} (hp : p (.ofList R []) = false) (ks : List Kind) :
    Advances (takeIf p) R ks := by
  rw [Advances, takeIf, ensures_bind, ensures_view]
  cases ks with
  | nil => simp [hp]
  | cons k ks => split <;> simp

theorem resumeStep_advances (ks : List Kind) : Advances resumeStep R ks := by
  rw [Advances, resumeStep, ensures_bind, ensures_left]
  cases ks with
  | nil => simp
  | cons k ks =>
    rw [List.length_cons, if_neg (Nat.succ_ne_zero _), ensures_bind]
    apply (recover_shaped k ks).mono
    intro _ rest _ hrecover
    rw [ensures_bind]
    apply (ensures_length_rest_le program).mono
    intro _ rest' _ hle
    rw [ensures_pure]
    have htaken := hrecover.2
    omega

/-- Whatever a loop repeats takes a token where the loop goes on. -/
theorem Loop.body_advances (l : Loop) (ks : List Kind) : Advances l.body R ks := by
  cases l with
  | statements => exact attempt_advances (statementOver_advances _ ks)
  | params => exact attempt_advances (param_advances ks)
  | hash => exact hashStep_advances ks
  | path => exact pathStep_advances ks
  | unreadable => exact takeIf_advances rfl ks
  | skipping kind => exact takeIf_advances rfl ks
  | resuming => exact resumeStep_advances ks

/-- At the end of the input a loop stops without a trace. -/
theorem Loop.body_outcome_nil (l : Loop) : l.body.outcome R [] = ⟨false, [], []⟩ := by
  have hnone : ∀ {rest : List Kind}, ¬ rest.length < ([] : List Kind).length := by simp
  have hattempt : ∀ {rule : Script Bool}, Advances rule R [] →
      (attempt rule).Ensures R [] fun found rest f => found = false ∧ rest = [] ∧ f = [] := by
    intro rule h
    rw [ensures_attempt]
    apply h.mono
    intro found rest _ hlt
    cases found with
    | false => simp
    | true => exact absurd (hlt rfl) hnone
  apply ensures_eq_iff.mp
  cases l with
  | statements => exact hattempt (statementOver_advances _ [])
  | params => exact hattempt (param_advances [])
  | hash =>
    rw [body, hashStep, ensures_bind, ensures_checkpoint, ensures_bind, ensures_tracked]
    apply (hashPair_advances []).mono
    intro found rest _ hlt
    cases found with
    | false => simp [Closing.wrap]
    | true => exact absurd (hlt rfl) hnone
  | path =>
    rw [body, pathStep, ensures_checkpoint, ensures_bind]
    apply (leaf_advances (by decide) []).mono
    intro found rest _ hlt
    cases found with
    | false => simp [Closing.wrap]
    | true => exact absurd (hlt rfl) hnone
  | unreadable => simp [body, takeIf, View.ofList]
  | skipping kind => simp [body, takeIf, skips, View.ofList]
  | resuming => simp [body, resumeStep]

/-- A rule that takes a token where it succeeds moves the cursor of a session there. -/
theorem Advances.run {rule : Script Bool} {s : Session} (h : Advances rule s.recovery s.rest)
    (hfound : (rule.run s).1 = true) : s.cursor < (rule.run s).2.cursor := by
  rw [fst_run] at hfound
  have hlt := ensures_iff.mp h hfound
  have htaken := length_leavesAll s.recovery rule s.rest
  rw [cursor_run]
  omega

/-- Every loop ends after no more turns than there are tokens left, and each time
that it goes on the cursor is further ahead. -/
theorem Loop.exists_loops (l : Loop) (s : Session) :
    ∃ n ≤ s.stream.size - s.cursor, Loops l.body n s (l.script.run s).2 := by
  rw [l.script_run]
  apply Script.exists_loops _ _ _ s (Nat.le_refl _)
  · intro t
    exact (l.body_advances t.rest).run
  · intro t ht
    have hnone := l.body_outcome_nil (R := t.recovery)
    exact run_eq_self _ t (ht ▸ hnone)

/-- One level of a program, given how to read the program inside a block. -/
def programOver (inner : Script Unit) : Script Unit := do
  if (← left) = 0 then return ()
  let found ← checkpoint do
    let (found, moved) ← tracked (statementsOver inner)
    return (if found || moved then .splice else .undo, found)
  if found then
    if ← elseTag then
      let _ ← statementsOver inner

theorem programUpTo_succ (depth : Nat) : programUpTo (depth + 1) = programOver (programUpTo depth) :=
  rfl

section

variable {stream : TokenStream} {place : Nat} {inner inner' : Script Unit}

/-- A block calls the rule for the program inside it behind its opening tag. -/
theorem block_agreeFrom {opening : Script Bool} (hopening : ∀ R ks, Advances opening R ks)
    (malformed : Problem) (h : AgreeFrom stream (place + 1) inner inner') :
    AgreeFrom stream place (block opening malformed inner) (block opening malformed inner') := by
  apply AgreeFrom.checkpoint
  apply AgreeFrom.bind_of_ahead
  · exact fun s => (hopening s.recovery s.rest).run
  · rfl
  · exact h.bind fun _ => .refl _

theorem statementOver_agreeFrom (h : AgreeFrom stream (place + 1) inner inner') :
    AgreeFrom stream place (statementOver inner) (statementOver inner') := by
  refine (AgreeFrom.refl current).bind fun k => ?_
  cases k with
  | openInverse =>
    refine (AgreeFrom.refl _).bind fun found => ?_
    cases found with
    | false => exact block_agreeFrom (fun _ => tag_advances (by decide) _ _) _ h
    | true => exact .refl _
  | openBlock => exact block_agreeFrom (fun _ => tag_advances (by decide) _ _) _ h
  | _ => exact .refl _

theorem statementsOver_agreeFrom (h : AgreeFrom stream (place + 1) inner inner') :
    AgreeFrom stream place (statementsOver inner) (statementsOver inner') := by
  have hstatement := statementOver_agreeFrom h
  refine (hstatement.bind fun found => ?_).checkpoint
  cases found with
  | false => exact .refl _
  | true => exact hstatement.many.bind fun _ => .refl _

theorem programOver_agreeFrom (h : AgreeFrom stream (place + 1) inner inner') :
    AgreeFrom stream place (programOver inner) (programOver inner') := by
  have hstatements := statementsOver_agreeFrom h
  refine (AgreeFrom.refl left).bind fun n => ?_
  split
  · exact .refl _
  · refine ((hstatements.tracked.bind fun _ => .refl _).checkpoint).bind fun found => ?_
    cases found with
    | false => exact .refl _
    | true =>
      refine (AgreeFrom.refl elseTag).bind fun other => ?_
      cases other with
      | false => exact .refl _
      | true => exact hstatements.bind fun _ => .refl _

end

theorem programOver_run_of_end (inner : Script Unit) {s : Session} (h : s.rest.length = 0) :
    (programOver inner).run s = ((), s) := by
  rw [s.length_rest] at h
  show (if s.stream.size - s.cursor = 0 then Script.pure () else _).run s = _
  rw [if_pos h]
  rfl

/-- How deep blocks may be nested makes no difference once it is as deep as there
are tokens left. -/
theorem programUpTo_run_eq (depth depth' : Nat) (s : Session) (h : s.rest.length ≤ depth)
    (h' : s.rest.length ≤ depth') : (programUpTo depth).run s = (programUpTo depth').run s := by
  induction depth generalizing depth' s with
  | zero =>
    cases depth' with
    | zero => rfl
    | succ depth' => exact (programOver_run_of_end _ (Nat.le_zero.mp h)).symm
  | succ depth ih =>
    cases depth' with
    | zero => exact programOver_run_of_end _ (Nat.le_zero.mp h')
    | succ depth' =>
      rw [programUpTo_succ, programUpTo_succ]
      refine @programOver_agreeFrom _ s.cursor _ _ ?_ s rfl (Nat.le_refl _)
      intro t ht hplace
      have hrest := s.length_rest
      have hrest' := t.length_rest
      rw [ht] at hrest'
      exact ih depth' t (by omega) (by omega)

theorem program_run (s : Session) : program.run s = (programUpTo s.rest.length).run s := by
  rw [s.length_rest]
  rfl

/-- A program reads the programs inside blocks as it reads itself. -/
theorem program_run_eq (s : Session) : program.run s = (programOver program).run s := by
  rw [program_run]
  cases hleft : s.rest.length with
  | zero => exact (programOver_run_of_end program hleft).symm
  | succ depth =>
    refine @programOver_agreeFrom _ s.cursor _ _ ?_ s rfl (Nat.le_refl _)
    intro t ht hplace
    have hrest := s.length_rest
    have hrest' := t.length_rest
    rw [ht] at hrest'
    rw [program_run]
    exact programUpTo_run_eq _ _ t (by omega) (Nat.le_refl _)

theorem cursor_template (stream : TokenStream) (recovery : KindSet) (root : Kind) :
    ((template root).run (.start stream recovery)).2.cursor = stream.size := by
  let s := Session.start stream recovery
  have hrest : ((template root).run s).2.rest = [] := by
    rw [rest_run]
    exact (ensures_iff.mp (template_shaped root s.rest)).choose_spec.2.1
  have hlength := ((template root).run s).2.length_rest
  have hle := cursor_run_le (template root) (s := s) (Nat.zero_le _)
  rw [hrest, stream_run] at hlength
  have hleft : 0 = stream.size - ((template root).run s).2.cursor := hlength
  exact Nat.le_antisymm hle (Nat.le_of_sub_eq_zero hleft.symm)

theorem ahead_of_left_le {s : Session} {n : Nat} (h : s.view.left ≤ n) :
    s.view.ahead n = .endOfInput := by
  rw [s.view_eq_ofList] at h ⊢
  show s.rest.getD n .endOfInput = .endOfInput
  rw [List.getD_eq_getElem?_getD, List.getElem?_eq_none h, Option.getD_none]

/-- Parsing terminates by progress. Every loop, the one of recovery included, ends
after no more turns than there are tokens left, and the cursor is further ahead
each time that it goes on. No rule moves the cursor back, and a rule that a loop
or a recursion waits for moves it on. The recursion from a program through the
blocks in it comes back to a program only further ahead. The cursor never stands
behind the last token, and it stands there in the end. The only loop that moves no
cursor, the look along a run of keys, ends at the first place without a key. -/
theorem parsing_terminates :
    (∀ (l : Loop) (s : Session),
      ∃ n ≤ s.stream.size - s.cursor, Loops l.body n s (l.script.run s).2) ∧
    (∀ (r : Rule) (s : Session), s.cursor ≤ (r.script.run s).2.cursor) ∧
    (∀ r ∈ [Rule.statement, .param, .hashPair, .path, .elseTag], ∀ s : Session,
      (r.script.run s).1 = true → s.cursor < (r.script.run s).2.cursor) ∧
    (∀ s : Session, program.run s = (programOver program).run s) ∧
    (∀ (inner inner' : Script Unit) (s : Session),
      (∀ t : Session, t.stream = s.stream → s.cursor < t.cursor → inner.run t = inner'.run t) →
        (programOver inner).run s = (programOver inner').run s) ∧
    (∀ (stream : TokenStream) (recovery : KindSet) (root : Kind),
      (∀ c ∈ (template root).cursors (.start stream recovery), c ≤ stream.size) ∧
        ((template root).run (.start stream recovery)).2.cursor = stream.size) ∧
    (∀ s : Session, (∀ m < pairRun s.view 0 s.view.left, IsKeyAt s.view (2 * m)) ∧
      ¬ IsKeyAt s.view (2 * pairRun s.view 0 s.view.left)) := by
  refine ⟨Loop.exists_loops, fun r s => cursor_le_run r.script s, ?_, program_run_eq, ?_, ?_, ?_⟩
  · intro r hr s
    have hadvances : Advances r.script s.recovery s.rest := by
      simp only [List.mem_cons, List.not_mem_nil, or_false] at hr
      rcases hr with rfl | rfl | rfl | rfl | rfl
      · exact statementOver_advances program s.rest
      · exact param_advances s.rest
      · exact hashPair_advances s.rest
      · exact path_advances s.rest
      · exact elseTag_advances s.rest
    exact hadvances.run
  · intro inner inner' s hagree
    exact programOver_agreeFrom hagree s rfl (Nat.le_refl _)
  · intro stream recovery root
    refine ⟨fun c hc => ?_, cursor_template stream recovery root⟩
    exact (le_of_mem_cursors (template root) (s := .start stream recovery) (Nat.zero_le _) hc).2
  · intro s
    have hends := pairRun_ends (fun _ => ahead_of_left_le (s := s)) 0 s.view.left (by omega)
    simpa only [Nat.zero_add] using hends

theorem parsing_terminates_content :
    let s := Session.start ⟨"x", #[⟨.content, 1⟩], #[0], by decide⟩ .syncPoints
    (Rule.statement.script.run s).1 = true ∧ s.cursor < (Rule.statement.script.run s).2.cursor :=
  ⟨rfl, parsing_terminates.2.2.1 .statement (by simp) _ rfl⟩

end TemplateTree.Grammar
