import TemplateTree.Proofs.Script.Recording

/-!
# What a script says on the way

A scope that is undone takes its errors back, so a journal does not tell which errors
a script has recorded in the course of its run. Here the messages are collected as
the errors are recorded, whatever becomes of these later. A journal holds no other
errors than those that it held before and those with a message collected here.

That a script says nothing but certain messages is shown along its text, as its
guarantees are. What a scope says in the end depends on how it is closed, so the
closing of a scope is looked at together with its inside.
-/

namespace TemplateTree

/-- The message of the error that a scope becomes. -/
def Closing.message? : Closing → Option String
  | .error message => some message
  | _ => none

namespace Script

variable {α β : Type}

/-- The messages of all errors that a script records in a session, those that are
undone later included. -/
def messages {α : Type} : Script α → Session → List String
  | .pure _, _ => []
  | .look next, s => (next s.view).messages s
  | .bump next, s => next.messages s.bump
  | .report m next, s => m :: next.messages (s.report m)
  | .scope body next, s =>
    let c := s.checkpoint
    match body.run s.opened with
    | ((closing, b), t) =>
      body.messages s.opened ++ closing.message?.toList ++ (next b).messages (t.close c closing)

theorem messages_bind (p : Script α) (f : α → Script β) (s : Session) :
    (p >>= f).messages s = p.messages s ++ (f (p.run s).1).messages (p.run s).2 := by
  induction p generalizing s with
  | pure a => rfl
  | look next ih => exact ih _ _ s
  | bump next ih => exact ih _ _
  | report m next ih => exact congrArg (m :: ·) (ih f (s.report m))
  | scope body next _ ih =>
    have hlater := ih (body.run s.opened).1.2 f
      ((body.run s.opened).2.close s.checkpoint (body.run s.opened).1.1)
    show _ ++ _ ++ ((next (body.run s.opened).1.2) >>= f).messages _ = _
    rw [hlater]
    exact (List.append_assoc ..).symm

theorem messages_checkpoint (body : Script (Closing × α)) (s : Session) :
    (checkpoint body).messages s =
      body.messages s.opened ++ (body.run s.opened).1.1.message?.toList :=
  List.append_nil _

end Script

/-- Closing a scope adds no error to the journal but the one that the scope becomes. -/
theorem Session.mem_journal_of_close {s : Session} {c : Checkpoint} {closing : Closing}
    {m : String} (h : .opening (.failure m) ∈ (s.close c closing).journal) :
    .opening (.failure m) ∈ s.journal ∨ closing.message? = some m := by
  have hcomplete : ∀ label : Label, .opening (.failure m) ∈ (s.complete c label).journal →
      .opening (.failure m) ∈ s.journal ∨ label = .failure m := by
    intro label h
    rw [complete, Array.mem_push] at h
    obtain h | h := h
    · obtain ⟨i, hi, hentry⟩ := Array.mem_iff_getElem.mp h
      rw [Array.getElem_modify] at hentry
      split at hentry
      · exact .inr (by injection hentry)
      · exact .inl (hentry ▸ Array.getElem_mem _)
    · cases h
  cases closing with
  | node kind =>
    obtain h | h := hcomplete _ h
    · exact .inl h
    · cases h
  | error message =>
    obtain h | h := hcomplete _ h
    · exact .inl h
    · exact .inr (congrArg some (Label.failure.inj h))
  | splice =>
    left
    change _ ∈ (s.abandon c).journal at h
    rw [abandon] at h
    split at h
    · rw [← Array.mem_toList_iff, Array.toList_pop] at h
      exact Array.mem_toList_iff.mp ((List.dropLast_sublist _).mem h)
    · exact h
  | undo =>
    left
    change _ ∈ (s.rollback c).journal at h
    rw [rollback] at h
    obtain ⟨i, hi, hentry⟩ := Array.mem_iff_getElem.mp h
    rw [Array.getElem_shrink] at hentry
    exact hentry ▸ Array.getElem_mem _

namespace Script

variable {α β : Type}

/-- An error that stands in the journal in the end stood there before, or the script has
said its message. -/
theorem mem_messages_of_mem_journal (p : Script α) {s : Session} {m : String}
    (h : .opening (.failure m) ∈ (p.run s).2.journal) :
    .opening (.failure m) ∈ s.journal ∨ m ∈ p.messages s := by
  induction p generalizing s with
  | pure a => exact .inl h
  | look next ih => exact ih _ h
  | bump next ih =>
    obtain h | h := ih h
    · left
      rw [Session.bump] at h
      split at h
      · exact h
      · obtain h | h := Array.mem_push.mp h
        · exact h
        · cases h
    · exact .inr h
  | report m' next ih =>
    obtain h | h := ih h
    · rw [Session.report, Array.mem_push, Array.mem_push] at h
      obtain (h | h) | h := h
      · exact .inl h
      · exact .inr (List.mem_cons.mpr (.inl (Label.failure.inj (Entry.opening.inj h))))
      · cases h
    · exact .inr (List.mem_cons_of_mem _ h)
  | scope body next ihb ih =>
    obtain h | h := ih _ h
    · obtain h | h := Session.mem_journal_of_close h
      · obtain h | h := ihb h
        · left
          obtain h | h := Array.mem_push.mp h
          · exact h
          · cases h
        · exact .inr (List.mem_append_left _ (List.mem_append_left _ h))
      · exact .inr (List.mem_append_left _ (List.mem_append_right _ (Option.mem_toList.mpr h)))
    · exact .inr (List.mem_append_right _ h)

/-- In a session the script says nothing but messages of which a condition holds. -/
def Says (C : String → Prop) (p : Script α) (s : Session) : Prop := ∀ m ∈ p.messages s, C m

/-- So does the body of a scope, and so does the scope when it is closed. -/
structure SaysClosing (C : String → Prop) (body : Script (Closing × α)) (s : Session) : Prop where
  inside : Says C body s
  closing : ∀ m ∈ (body.run s).1.1.message?, C m

variable {C : String → Prop} {s : Session}

theorem says_return (a : α) (s : Session) : Says C (return a) s := fun _ h => nomatch h

theorem says_view (s : Session) : Says C view s := fun _ h => nomatch h

theorem says_current (s : Session) : Says C current s := fun _ h => nomatch h

theorem says_left (s : Session) : Says C left s := fun _ h => nomatch h

theorem says_take (s : Session) : Says C take s := fun _ h => nomatch h

theorem says_complain {message : String} (h : C message) (s : Session) :
    Says C (complain message) s := by
  intro m hm
  obtain rfl := List.mem_singleton.mp hm
  exact h

/-- A script goes on with what another has come to. -/
theorem Says.bind_run {p : Script α} {next : α → Script β} (hp : Says C p s)
    (hnext : Says C (next (p.run s).1) (p.run s).2) : Says C (p >>= next) s := by
  intro m hm
  rw [messages_bind] at hm
  obtain hm | hm := List.mem_append.mp hm
  · exact hp m hm
  · exact hnext m hm

theorem Says.bind {p : Script α} {next : α → Script β} (hp : Says C p s)
    (hnext : ∀ a t, Says C (next a) t) : Says C (p >>= next) s :=
  hp.bind_run (hnext _ _)

theorem Says.bind_closing_of_eq {p : Script β} {body : β → Script (Closing × α)} {b : β}
    (hp : Says C p s) (hb : (p.run s).1 = b) (hbody : ∀ t, SaysClosing C (body b) t) :
    SaysClosing C (p >>= body) s := by
  subst hb
  constructor
  · exact hp.bind_run (hbody _).inside
  · rw [run_bind]
    exact (hbody _).closing

theorem Says.bind_closing {p : Script β} {body : β → Script (Closing × α)} (hp : Says C p s)
    (hbody : ∀ b t, SaysClosing C (body b) t) : SaysClosing C (p >>= body) s :=
  hp.bind_closing_of_eq rfl (hbody _)

theorem saysClosing_return {closing : Closing} (a : α) (h : ∀ m ∈ closing.message?, C m)
    (s : Session) : SaysClosing C (return (closing, a)) s :=
  ⟨says_return _ s, h⟩

/-- A scope gives up unless a part of it succeeds. -/
theorem Says.unless_closing {part : Script Bool} {closing : Closing} {a : α}
    {body : Script (Closing × α)} (hpart : Says C part s) (hclosing : ∀ m ∈ closing.message?, C m)
    (hbody : ∀ t, SaysClosing C body t) :
    SaysClosing C (do
      if !(← part) then return (closing, a)
      body) s := by
  refine hpart.bind_closing fun found t => ?_
  cases found with
  | false => exact saysClosing_return a hclosing t
  | true => exact hbody t

theorem SaysClosing.checkpoint {body : Script (Closing × α)} (h : SaysClosing C body s.opened) :
    Says C (checkpoint body) s := by
  intro m hm
  rw [messages_checkpoint] at hm
  obtain hm | hm := List.mem_append.mp hm
  · exact h.inside m hm
  · exact h.closing m (Option.mem_toList.mp hm)

theorem Says.attempt {rule : Script Bool} (h : ∀ s, Says C rule s) (s : Session) :
    Says C (attempt rule) s := by
  refine SaysClosing.checkpoint ((h _).bind_closing fun found t => ?_)
  cases found with
  | false => exact saysClosing_return _ nofun t
  | true => exact saysClosing_return _ nofun t

theorem Says.lookahead {rule : Script Bool} (h : ∀ s, Says C rule s) (s : Session) :
    Says C (lookahead rule) s :=
  SaysClosing.checkpoint ((h _).bind_closing fun _ t => saysClosing_return _ nofun t)

theorem Says.tracked {rule : Script Bool} (h : ∀ s, Says C rule s) (s : Session) :
    Says C (tracked rule) s :=
  (says_left s).bind fun _ t => (h t).bind fun _ u => (says_left u).bind fun _ => says_return _

theorem Says.firstOf {rules : List (Script Bool)} (h : ∀ rule ∈ rules, ∀ s, Says C rule s)
    (s : Session) : Says C (firstOf rules) s := by
  induction rules generalizing s with
  | nil => exact says_return _ s
  | cons rule rules ih =>
    refine (Says.attempt (h rule List.mem_cons_self) s).bind fun found t => ?_
    cases found with
    | false => exact ih (fun r hr => h r (List.mem_cons_of_mem _ hr)) t
    | true => exact says_return _ t

theorem Says.many {rule : Script Bool} (h : ∀ s, Says C rule s) (s : Session) :
    Says C (many rule) s := by
  have hloop : ∀ bound s, Says C (repeatUpTo rule bound) s := by
    intro bound
    induction bound with
    | zero => exact says_return ()
    | succ bound ih =>
      intro s
      refine (Says.attempt h s).bind fun found t => ?_
      cases found with
      | false => exact says_return _ t
      | true => exact ih t
  exact (says_left s).bind hloop

theorem says_takeWhile (p : View → Bool) (s : Session) : Says C (takeWhile p) s := by
  have hloop : ∀ bound s, Says C (takeUpTo p bound) s := by
    intro bound
    induction bound with
    | zero => exact says_return ()
    | succ bound ih =>
      intro s
      refine (says_view s).bind fun v t => ?_
      split
      · exact (says_take t).bind fun _ => ih
      · exact says_return _ t
  exact (says_left s).bind hloop

end Script

end TemplateTree
