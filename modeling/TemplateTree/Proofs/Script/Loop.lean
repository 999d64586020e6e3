import TemplateTree.Proofs.Script.Recording

/-!
# Loops and recursion without a count

Scripts repeat things by counting down from the number of tokens that are left.
Here it is said what it would be to repeat without a count: a loop goes on as
long as its body answers yes, and there need not be an end to it. Where every
such answer comes with a token taken, the loop does end, and the counted script
has done exactly what the loop does. Likewise a rule that calls itself depends
on the call only where the cursor has moved on.
-/

namespace TemplateTree

/-- A loop that runs its body over and over until the body answers no, with the
number of times that it has gone on. Each time the cursor was further ahead. -/
inductive Loops (body : Script Bool) : Nat → Session → Session → Prop
  | stop {s : Session} (hno : (body.run s).1 = false) : Loops body 0 s (body.run s).2
  | again {n : Nat} {s t : Session} (hyes : (body.run s).1 = true)
      (hahead : s.cursor < (body.run s).2.cursor) (hlater : Loops body n (body.run s).2 t) :
      Loops body (n + 1) s t

namespace Script

variable {α β : Type}

/-- Runs a body until it answers no, but no more than `bound` times. -/
def countedLoop (body : Script Bool) : Nat → Script Unit
  | 0 => return ()
  | bound + 1 => do
    if ← body then countedLoop body bound

/-- A bound of as many times as there are tokens left is never what ends a loop,
provided that its body takes a token whenever it answers yes, and that at the
end of the input it answers no without a trace. -/
theorem exists_loops {body : Script Bool}
    (hahead : ∀ s : Session, (body.run s).1 = true → s.cursor < (body.run s).2.cursor)
    (hend : ∀ s : Session, s.rest = [] → body.run s = (false, s)) (bound : Nat) (s : Session)
    (hbound : s.rest.length ≤ bound) :
    ∃ n ≤ s.stream.size - s.cursor, Loops body n s ((countedLoop body bound).run s).2 := by
  induction bound generalizing s with
  | zero =>
    have hstop := hend s (List.length_eq_zero_iff.mp (Nat.le_zero.mp hbound))
    have hloops : Loops body 0 s (body.run s).2 := .stop (by rw [hstop])
    rw [hstop] at hloops
    exact ⟨0, Nat.zero_le _, hloops⟩
  | succ bound ih =>
    rw [countedLoop, run_bind]
    cases hanswer : (body.run s).1 with
    | false => exact ⟨0, Nat.zero_le _, .stop hanswer⟩
    | true =>
      have hlt := hahead s hanswer
      have hsome : s.rest.length ≠ 0 := by
        intro hnone
        rw [hend s (List.length_eq_zero_iff.mp hnone)] at hanswer
        cases hanswer
      have hrest := (body.run s).2.length_rest
      rw [stream_run] at hrest
      rw [Session.length_rest] at hbound hsome
      obtain ⟨n, hn, hlater⟩ := ih (body.run s).2 (by omega)
      rw [stream_run] at hn
      exact ⟨n + 1, by omega, .again hanswer hlt hlater⟩

/-- The places of the cursor in the course of a script. -/
def cursors {α : Type} : Script α → Session → List Nat
  | .pure _, s => [s.cursor]
  | .look next, s => (next s.view).cursors s
  | .bump next, s => s.cursor :: next.cursors s.bump
  | .report m next, s => next.cursors (s.report m)
  | .scope body next, s =>
    let c := s.checkpoint
    match body.run s.opened with
    | ((closing, b), t) => body.cursors s.opened ++ (next b).cursors (t.close c closing)

theorem cursor_run_le (p : Script α) {s : Session} (hs : s.cursor ≤ s.stream.size) :
    (p.run s).2.cursor ≤ s.stream.size := by
  have htaken := length_leavesAll s.recovery p s.rest
  rw [cursor_run]
  rw [Session.length_rest] at htaken
  omega

/-- The cursor never stands before the place where a script has started, nor
behind the last token. -/
theorem le_of_mem_cursors (p : Script α) {s : Session} (hs : s.cursor ≤ s.stream.size) {c : Nat}
    (hc : c ∈ p.cursors s) : s.cursor ≤ c ∧ c ≤ s.stream.size := by
  induction p generalizing s with
  | pure a =>
    obtain rfl := List.mem_singleton.mp hc
    exact ⟨Nat.le_refl _, hs⟩
  | look next ih => exact ih _ hs hc
  | bump next ih =>
    have hle := cursor_le_run take s
    rcases List.mem_cons.mp hc with rfl | hc
    · exact ⟨Nat.le_refl _, hs⟩
    · have hstream : s.bump.stream = s.stream := stream_run take s
      have hafter := ih (s := s.bump) (hstream ▸ cursor_run_le take hs) hc
      rw [hstream] at hafter
      exact ⟨Nat.le_trans hle hafter.1, hafter.2⟩
  | report m next ih => exact ih (s := s.report m) hs hc
  | scope body next ihb ih =>
    rcases List.mem_append.mp hc with hc | hc
    · exact ihb (s := s.opened) hs hc
    · let closed := (body.run s.opened).2.close s.checkpoint (body.run s.opened).1.1
      have hclosed : closed = ((checkpoint body).run s).2 := rfl
      have hstream : closed.stream = s.stream := stream_run (checkpoint body) s
      have hafter := ih _ (s := closed) (hstream ▸ cursor_run_le (checkpoint body) hs) hc
      rw [hstream] at hafter
      exact ⟨Nat.le_trans (cursor_le_run (checkpoint body) s) hafter.1, hafter.2⟩

/-- Two scripts do the same wherever the cursor has come to a given place. -/
def AgreeFrom (stream : TokenStream) (place : Nat) (p q : Script α) : Prop :=
  ∀ s : Session, s.stream = stream → place ≤ s.cursor → p.run s = q.run s

namespace AgreeFrom

variable {stream : TokenStream} {place : Nat} {p q : Script α}

theorem refl (p : Script α) : AgreeFrom stream place p p := fun _ _ _ => rfl

theorem bind {f g : α → Script β} (hpq : AgreeFrom stream place p q)
    (hfg : ∀ a, AgreeFrom stream place (f a) (g a)) :
    AgreeFrom stream place (p >>= f) (q >>= g) := by
  intro s hs hplace
  rw [run_bind, run_bind, ← hpq s hs hplace]
  exact hfg _ _ ((stream_run p s).trans hs) (Nat.le_trans hplace (cursor_le_run p s))

theorem checkpoint {p q : Script (Closing × α)} (hpq : AgreeFrom stream place p q) :
    AgreeFrom stream place (checkpoint p) (checkpoint q) := by
  intro s hs hplace
  rw [run_checkpoint, run_checkpoint, hpq s.opened hs hplace]

theorem attempt {p q : Script Bool} (hpq : AgreeFrom stream place p q) :
    AgreeFrom stream place (attempt p) (attempt q) :=
  (hpq.bind fun _ => refl _).checkpoint

theorem tracked {p q : Script Bool} (hpq : AgreeFrom stream place p q) :
    AgreeFrom stream place (tracked p) (tracked q) :=
  (refl left).bind fun _ => hpq.bind fun _ => refl _

theorem many {p q : Script Bool} (hpq : AgreeFrom stream place p q) :
    AgreeFrom stream place (many p) (many q) := by
  have hloop : ∀ bound, AgreeFrom stream place (repeatUpTo p bound) (repeatUpTo q bound) := by
    intro bound
    induction bound with
    | zero => exact refl _
    | succ bound ih =>
      refine hpq.attempt.bind fun found => ?_
      cases found with
      | false => exact refl _
      | true => exact ih
  exact (refl left).bind hloop

/-- What comes behind a part that takes a token may differ at the place itself. -/
theorem bind_of_ahead {p : Script Bool} {f g : Bool → Script β}
    (hahead : ∀ s : Session, (p.run s).1 = true → s.cursor < (p.run s).2.cursor)
    (hno : f false = g false) (hyes : AgreeFrom stream (place + 1) (f true) (g true)) :
    AgreeFrom stream place (p >>= f) (p >>= g) := by
  intro s hs hplace
  rw [run_bind, run_bind]
  cases hanswer : (p.run s).1 with
  | false => rw [hno]
  | true =>
    have hlt := hahead s hanswer
    exact hyes _ ((stream_run p s).trans hs) (by omega)

end AgreeFrom

end Script

end TemplateTree
