import TemplateTree.Proofs.Grammar.Settled
import TemplateTree.Proofs.Parse
import TemplateTree.Session.Draft

/-!
# Sessions follow drafts

A session under the control of commands writes a journal in which placeholders
are filled in, removed or left behind; the draft of the same commands keeps
forests and snapshots of them. Each open checkpoint of the session belongs to a
snapshot: what the journal has gained since the checkpoint was opened writes down
the forest of the draft, and the session as it was then followed the draft as it
was then. Every command keeps this up, so when all checkpoints are closed and the
root is completed, the journal writes down the tree of the draft.
-/

namespace TemplateTree

open Rose Session

namespace Draft

/-- A draft that has taken the tokens of a forest and has grown the forest. -/
def grown (d : Draft) (f : List (Rose Kind)) : Draft :=
  { d with cursor := d.cursor + (leavesAll f).length, forest := d.forest ++ f }

@[simp] theorem grown_nil (d : Draft) : d.grown [] = d := by
  simp [grown, leavesAll]

@[simp] theorem grown_grown (d : Draft) (f g : List (Rose Kind)) :
    (d.grown f).grown g = d.grown (f ++ g) := by
  simp [grown, Nat.add_assoc]

theorem rest_grown (d : Draft) (f : List (Rose Kind)) :
    (d.grown f).rest = d.rest.drop (leavesAll f).length := by
  simp [rest, grown]

theorem bump_of_rest_nil {d : Draft} (h : d.rest = []) : d.bump = d := by
  simp [bump, h]

theorem bump_of_rest_cons {d : Draft} {k : Kind} {ks : List Kind} (h : d.rest = k :: ks) :
    d.bump = d.grown [.token k] := by
  simp [bump, h, grown, leavesAll, leaves]

theorem report_eq_grown (d : Draft) (m : String) :
    d.report m = d.grown [.node (.failure m) []] := by
  simp [report, grown, leavesAll, leaves]

/-- Closing a checkpoint adds what the closing makes of the forest grown since. -/
theorem close_grown_opened (d : Draft) (f : List (Rose Kind)) (c : Closing) :
    (d.opened.grown f).close c = d.grown (c.wrap f) := by
  cases c <;> simp [close, opened, grown, Closing.wrap, leavesAll, leaves]

end Draft

/-- Drawn on a draft, a script gives the result of its outcome and grows the
forest of its outcome. -/
theorem Script.draw_eq {α : Type} (p : Script α) (d : Draft) :
    p.draw d =
      ((p.outcome d.recovery d.rest).result, d.grown (p.outcome d.recovery d.rest).forest) := by
  induction p generalizing d with
  | pure a => simp [draw, outcome]
  | look next ih => exact ih _ d
  | bump next ih =>
    cases h : d.rest with
    | nil =>
      rw [draw, Draft.bump_of_rest_nil h, ih, h]
      rfl
    | cons k ks =>
      rw [draw, Draft.bump_of_rest_cons h, ih, Draft.rest_grown, h, Draft.grown_grown]
      rfl
  | report m next ih =>
    rw [draw, Draft.report_eq_grown, ih, Draft.rest_grown, Draft.grown_grown]
    rfl
  | scope body next ihb ih =>
    have hopened : d.opened.rest = d.rest := rfl
    have hrecovery : d.opened.recovery = d.recovery := rfl
    have hdrop := drop_length_leavesAll d.recovery body d.rest
    simp only [draw, ihb, hopened, hrecovery, Draft.close_grown_opened, ih, Draft.rest_grown,
      Draft.grown_grown, outcome, Closing.leavesAll_wrap]
    by_cases hu : (body.outcome d.recovery d.rest).result.1 = .undo
    · simp [hu, Draft.grown]
    · simp [hu, hdrop, Draft.grown]

namespace Session

/-- Entries that write down a forest over the tokens that come next. -/
structure Adds (s : Session) (f : List (Rose Kind)) (es : List Entry) : Prop where
  recorded : Journal.settled es = Journal.settled (entriesAll s.cursor f)
  tokens : leavesAll f <+: s.rest
  settled : Settled f

namespace Adds

variable {s : Session} {f g : List (Rose Kind)} {es fs : List Entry}

theorem nil : s.Adds [] [] := ⟨rfl, List.nil_prefix, .nil⟩

theorem append (hf : s.Adds f es) (hg : (s.after (leavesAll f).length es).Adds g fs) :
    s.Adds (f ++ g) (es ++ fs) := by
  obtain ⟨rest, hrest⟩ := hf.tokens
  refine ⟨?_, ?_, hf.settled.append hg.settled⟩
  · rw [Journal.settled_append, hf.recorded, hg.recorded, entriesAll_append,
      Journal.settled_append]
    rfl
  · have htokens := hg.tokens
    rw [rest_after, ← hrest, drop_length_append] at htokens
    rw [leavesAll_append, ← hrest]
    exact (List.prefix_append_right_inj _).mpr htokens

theorem of_opened {n : Nat} (h : (s.opened.after n es).Adds f fs) : (s.after n es).Adds f fs :=
  ⟨h.recorded, h.tokens, h.settled⟩

/-- What a script records writes its forest down. -/
theorem run {α : Type} {p : Script α}
    (h : p.Ensures s.recovery s.rest fun _ _ f => Settled f) :
    s.Adds (p.outcome s.recovery s.rest).forest (p.recording s.recovery s.cursor s.rest) :=
  ⟨Script.settled_recording .., ⟨_, Script.leavesAll_append_rest ..⟩, Script.ensures_iff.mp h⟩

/-- What is left in the journal of a scope writes down what is left of its forest. -/
theorem wrap (h : s.Adds f es) {c : Closing} (hc : c ≠ .node .placeholder) :
    s.Adds (c.wrap f) (c.record es) := by
  refine ⟨Closing.settled_record h.recorded c, ?_, h.settled.wrap hc⟩
  rw [Closing.leavesAll_wrap]
  split
  · exact List.nil_prefix
  · exact h.tokens

end Adds

/-- The session with these open checkpoints has done what the draft says: since
the innermost checkpoint it has written down the forest of the draft, and before
that checkpoint it had done what the draft said then. -/
inductive Follows (stream : TokenStream) (recovery : KindSet) :
    Session → List Checkpoint → Draft → Prop where
  | root {f es} (added : (Session.start stream recovery).Adds f es) :
    Follows stream recovery
      ((Session.start stream recovery).opened.after (leavesAll f).length es) []
      ((Draft.start stream.kinds recovery).grown f)
  | inner {s marks d f es} (outer : Follows stream recovery s marks d) (added : s.Adds f es) :
    Follows stream recovery (s.opened.after (leavesAll f).length es) (s.checkpoint :: marks)
      (d.opened.grown f)

namespace Follows

variable {stream : TokenStream} {recovery : KindSet} {s : Session} {marks : List Checkpoint}
  {d : Draft}

theorem start :
    Follows stream recovery (Session.start stream recovery).opened []
      (Draft.start stream.kinds recovery) := by
  simpa [leavesAll] using @Follows.root stream recovery [] [] .nil

/-- A session stands where the draft stands that it follows. -/
theorem agrees (h : Follows stream recovery s marks d) :
    s.stream = stream ∧ s.recovery = recovery ∧ d.kinds = stream.kinds ∧ d.recovery = recovery ∧
      d.cursor = s.cursor := by
  induction h with
  | root added => exact ⟨rfl, rfl, rfl, rfl, rfl⟩
  | inner outer added ih =>
    obtain ⟨hstream, hrecovery, hkinds, hrecovery', hcursor⟩ := ih
    refine ⟨hstream, hrecovery, hkinds, hrecovery', ?_⟩
    simp [Draft.grown, Draft.opened, Session.after, Session.opened, hcursor]

theorem rest_eq (h : Follows stream recovery s marks d) : d.rest = s.rest := by
  obtain ⟨hstream, -, hkinds, -, hcursor⟩ := h.agrees
  rw [Draft.rest, hkinds, hcursor, Session.rest, hstream]

theorem view_eq (h : Follows stream recovery s marks d) : d.view = s.view := by
  obtain ⟨-, hrecovery, -, hrecovery', -⟩ := h.agrees
  rw [Session.view_eq_ofList, Draft.view, h.rest_eq, hrecovery, hrecovery']

theorem length_marks (h : Follows stream recovery s marks d) :
    marks.length = d.snapshots.length := by
  induction h with
  | root added => rfl
  | inner outer added ih =>
    show _ + 1 = _ + 1
    rw [ih]

/-- The session goes on following if the journal and the draft gain the same. -/
theorem grow (h : Follows stream recovery s marks d) {f : List (Rose Kind)} {es : List Entry}
    (hf : s.Adds f es) : Follows stream recovery (s.after (leavesAll f).length es) marks
      (d.grown f) := by
  cases h with
  | root added =>
    rw [after_after, Draft.grown_grown, ← List.length_append, ← leavesAll_append]
    exact .root (added.append hf.of_opened)
  | inner outer added =>
    rw [after_after, Draft.grown_grown, ← List.length_append, ← leavesAll_append]
    exact .inner outer (added.append hf.of_opened)

theorem opened (h : Follows stream recovery s marks d) :
    Follows stream recovery s.opened (s.checkpoint :: marks) d.opened := by
  simpa [leavesAll] using inner h .nil

/-- Closing the innermost checkpoint goes back to what came before it, and adds
what the closing leaves. -/
theorem close {c : Checkpoint} (h : Follows stream recovery s (c :: marks) d)
    {closing : Closing} (hc : closing ≠ .node .placeholder) :
    Follows stream recovery (s.close c closing) marks (d.close closing) := by
  cases h with
  | inner outer added =>
    have hgrown := outer.grow (added.wrap hc)
    rw [close_after_opened, Draft.close_grown_opened]
    rwa [Closing.leavesAll_wrap, apply_ite List.length] at hgrown

theorem run (h : Follows stream recovery s marks d) {α : Type} {p : Script α}
    (hp : p.Ensures s.recovery s.rest fun _ _ f => Settled f) :
    (p.run s).1 = (p.draw d).1 ∧ Follows stream recovery (p.run s).2 marks (p.draw d).2 := by
  obtain ⟨-, hrecovery, -, hrecovery', -⟩ := h.agrees
  rw [Script.run_eq, Script.draw_eq, h.rest_eq, hrecovery', ← hrecovery]
  rw [← hrecovery] at h
  exact ⟨rfl, h.grow (.run hp)⟩

end Follows

/-- A session under the control of commands that follows a draft. -/
def Steered.Follows (stream : TokenStream) (recovery : KindSet) (s : Steered) (d : Draft) : Prop :=
  s.root = (Session.start stream recovery).checkpoint ∧
    Session.Follows stream recovery s.session s.marks d

namespace Steered.Follows

variable {stream : TokenStream} {recovery : KindSet} {s : Steered} {d : Draft}

theorem closeInnermost (h : s.Follows stream recovery d) {closing : Closing}
    (hc : closing ≠ .node .placeholder) :
    (s.closeInnermost closing).Follows stream recovery (d.close closing) := by
  obtain ⟨⟨session, root, marks⟩, hroot, hfollows⟩ := s, h
  cases marks with
  | nil =>
    have hsnapshots : d.snapshots = [] :=
      List.length_eq_zero_iff.mp hfollows.length_marks.symm
    refine ⟨hroot, ?_⟩
    rw [Draft.close, hsnapshots]
    exact hfollows
  | cons c marks => exact ⟨hroot, hfollows.close hc⟩

theorem runScript (h : s.Follows stream recovery d) {p : Script Bool}
    (hp : p.Ensures s.session.recovery s.session.rest fun _ _ f => Settled f) :
    (s.runScript p).1 = (d.answer p).1 ∧
      (s.runScript p).2.Follows stream recovery (d.answer p).2 := by
  obtain ⟨hfound, hfollows⟩ := h.2.run hp
  exact ⟨congrArg Answer.truth hfound, h.1, hfollows⟩

/-- The innermost checkpoint of the session and that of the draft were opened at
the same place. -/
theorem advanced (h : s.Follows stream recovery d) :
    s.marks.head?.any s.session.advancedFrom =
      d.snapshots.head?.any fun p => decide (p.cursor < d.cursor) := by
  obtain ⟨⟨session, root, marks⟩, hroot, hfollows⟩ := s, h
  obtain ⟨-, -, -, -, hcursor⟩ := hfollows.agrees
  cases hfollows with
  | root added => rfl
  | @inner base marks b f es outer added =>
    obtain ⟨-, -, -, -, houter⟩ := outer.agrees
    show decide (base.cursor < _) = decide (b.cursor < (b.opened.grown f).cursor)
    rw [houter, hcursor]

/-- A command that closes the innermost checkpoint. -/
theorem closing (h : s.Follows stream recovery d) {closing : Closing} {depth : Nat}
    (hnest : (if s.marks.length = 0 ∨ closing = .node .placeholder then none
      else some (s.marks.length - 1)) = some depth) :
    (s.closeInnermost closing).Follows stream recovery (d.close closing) ∧
      (s.closeInnermost closing).marks.length = depth := by
  split at hnest
  · cases hnest
  · rename_i hc
    obtain ⟨hopen, hc⟩ := not_or.mp hc
    refine ⟨h.closeInnermost hc, ?_⟩
    rw [← Option.some.inj hnest]
    obtain ⟨session, root, marks⟩ := s
    cases marks with
    | nil => exact absurd rfl hopen
    | cons c marks => rfl

/-- A whole call of a rule, in an attempt, in a lookahead or on its own. -/
theorem call (h : s.Follows stream recovery d) (hks : .placeholder ∉ stream.kinds)
    (r : Grammar.Rule) {p : Script Bool}
    (hp : p = r.script ∨ p = .attempt r.script ∨ p = .lookahead r.script) :
    (s.runScript p).1 = (d.answer p).1 ∧
      (s.runScript p).2.Follows stream recovery (d.answer p).2 := by
  have hrest : .placeholder ∉ s.session.rest := by
    rw [Session.rest, h.2.agrees.1]
    exact fun hk => hks ((List.drop_subset _ _) hk)
  have hrule := r.settled (R := s.session.recovery) hrest
  apply h.runScript
  rcases hp with rfl | rfl | rfl
  · exact hrule
  · rw [Script.ensures_attempt]
    apply hrule.mono
    rintro (_ | _) _ f hf
    · exact .nil
    · exact hf
  · rw [Script.ensures_lookahead]
    exact hrule.mono fun _ _ _ _ => .nil

/-- A command with a place in a run is answered as the draft answers it, and the
session goes on following the draft. -/
theorem step (h : s.Follows stream recovery d) (hks : .placeholder ∉ stream.kinds) {c : Command}
    {depth : Nat} (hnest : c.nest s.marks.length = some depth) :
    (s.step c).1 = (d.step c).1 ∧ (s.step c).2.Follows stream recovery (d.step c).2 ∧
      (s.step c).2.marks.length = depth := by
  obtain ⟨hstream, hrecovery, hkinds, hrecovery', hcursor⟩ := h.2.agrees
  cases c with
  | start => exact ⟨rfl, ⟨h.1, h.2.opened⟩, Option.some.inj hnest⟩
  | complete kind => exact ⟨rfl, h.closing hnest⟩
  | error message => exact ⟨rfl, h.closing hnest⟩
  | abandon => exact ⟨rfl, h.closing hnest⟩
  | rollback => exact ⟨rfl, h.closing hnest⟩
  | drop => cases hnest
  | advanced => exact ⟨congrArg Answer.truth h.advanced, h, Option.some.inj hnest⟩
  | bump =>
    have htake : Script.take.Ensures s.session.recovery s.session.rest fun _ _ f => Settled f := by
      cases s.session.rest with
      | nil => exact (Script.ensures_of_eq rfl).mpr .nil
      | cons k ks => exact Script.ensures_take_cons.mpr (.tokens [k])
    exact ⟨rfl, ⟨h.1, (h.2.run htake).2⟩, Option.some.inj hnest⟩
  | report message =>
    have hcomplain : (Script.complain message).Ensures s.session.recovery s.session.rest
        fun _ _ f => Settled f := Script.ensures_complain.mpr (.node (by simp) .nil)
    exact ⟨rfl, ⟨h.1, (h.2.run hcomplain).2⟩, Option.some.inj hnest⟩
  | «at» kind =>
    refine ⟨?_, h, Option.some.inj hnest⟩
    show Answer.truth (decide (s.session.view.ahead 0 = kind)) = .truth (decide (d.view.ahead 0 = kind))
    rw [h.2.view_eq]
  | nth n =>
    refine ⟨?_, h, Option.some.inj hnest⟩
    show s.session.kindAhead n =
      if d.cursor + n < countLimit then .kind (d.view.ahead n) else .offence .uncountable
    rw [h.2.view_eq, hcursor]
    rfl
  | recovers =>
    refine ⟨?_, h, Option.some.inj hnest⟩
    show Answer.truth (s.session.recovery.contains (s.session.view.ahead 0)) =
      .truth (d.recovery.contains (d.view.ahead 0))
    rw [h.2.view_eq, hrecovery, hrecovery']
  | isPairAhead =>
    refine ⟨?_, h, Option.some.inj hnest⟩
    show Answer.truth (Grammar.isPairAhead s.session.view) = .truth (Grammar.isPairAhead d.view)
    rw [h.2.view_eq]
  | rule r =>
    obtain ⟨hfound, hfollows⟩ := h.call hks r (.inl rfl)
    exact ⟨hfound, hfollows, Option.some.inj hnest⟩
  | attempt r =>
    obtain ⟨hfound, hfollows⟩ := h.call hks r (.inr (.inl rfl))
    exact ⟨hfound, hfollows, Option.some.inj hnest⟩
  | lookahead r =>
    obtain ⟨hfound, hfollows⟩ := h.call hks r (.inr (.inr rfl))
    exact ⟨hfound, hfollows, Option.some.inj hnest⟩

/-- A whole run of commands that close what they open. -/
theorem perform (h : s.Follows stream recovery d) (hks : .placeholder ∉ stream.kinds)
    {commands : List Command} {depth : Nat}
    (hnest : commands.foldlM Command.nest s.marks.length = some depth) :
    (perform Steered.step s commands).1 = (perform Draft.step d commands).1 ∧
      (perform Steered.step s commands).2.Follows stream recovery
        (perform Draft.step d commands).2 ∧
      (perform Steered.step s commands).2.marks.length = depth := by
  induction commands generalizing s d with
  | nil => exact ⟨rfl, h, Option.some.inj hnest⟩
  | cons c commands ih =>
    rw [List.foldlM_cons] at hnest
    obtain ⟨inner, hinner, hothers⟩ := Option.bind_eq_some_iff.mp hnest
    obtain ⟨hanswer, hfollows, hmarks⟩ := h.step hks hinner
    rw [← hmarks] at hothers
    obtain ⟨hanswers, hend⟩ := ih hfollows hothers
    exact ⟨congrArg₂ List.cons hanswer hanswers, hend⟩

end Steered.Follows

end Session

end TemplateTree
