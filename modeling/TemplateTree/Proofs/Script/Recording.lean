import TemplateTree.Proofs.Lists
import TemplateTree.Proofs.Script.Guarantee
import TemplateTree.Session

/-!
# What a script records

The journal after a script is the journal before it, unchanged, and behind it
the recording of the script. A recording depends on nothing but the kinds that
lie ahead and the number of the first of them: the placeholders in it are
exactly those that the session leaves behind, so the equation between the two
semantics is literal. With the placeholders left out a recording writes down
the forest of the outcome, its tokens numbered from left to right.
-/

namespace TemplateTree

namespace Rose

mutual

/-- The entries that write a tree down, its tokens numbered from `number` on. -/
def entries (number : Nat) : Rose Kind → List Entry
  | token _ => [.token number]
  | node label children => .opening label :: (entriesAll number children ++ [.close])

def entriesAll (number : Nat) : List (Rose Kind) → List Entry
  | [] => []
  | r :: rs => entries number r ++ entriesAll (number + r.leaves.length) rs

end

theorem entriesAll_append (number : Nat) (rs ss : List (Rose Kind)) :
    entriesAll number (rs ++ ss) =
      entriesAll number rs ++ entriesAll (number + (leavesAll rs).length) ss := by
  induction rs generalizing number with
  | nil => rfl
  | cons r rs ih => simp [entriesAll, leavesAll, ih, Nat.add_assoc]

end Rose

namespace Journal

/-- A journal without its placeholders. -/
def settled (entries : List Entry) : List Entry := entries.filter (· ≠ .placeholder)

@[simp] theorem settled_nil : settled [] = [] := rfl

@[simp] theorem settled_append (es fs : List Entry) :
    settled (es ++ fs) = settled es ++ settled fs := List.filter_append ..

theorem settled_cons (e : Entry) (es : List Entry) :
    settled (e :: es) = settled [e] ++ settled es := settled_append [e] es

@[simp] theorem settled_placeholder : settled [.placeholder] = [] := rfl

theorem settled_singleton {e : Entry} (h : e ≠ .placeholder) : settled [e] = [e] := by
  simp [settled, h]

end Journal

namespace Closing

/-- What the closing of a scope makes of the entries recorded in it. -/
def record (inner : List Entry) : Closing → List Entry
  | .node kind => .opening (.plain kind) :: (inner ++ [.close])
  | .error message => .opening (.failure message) :: (inner ++ [.close])
  | .splice => if inner = [] then [] else .placeholder :: inner
  | .undo => []

/-- A closing that undoes nothing keeps all the tokens of its scope. -/
theorem leavesAll_wrap {τ : Type} (f : List (Rose τ)) (c : Closing) :
    Rose.leavesAll (c.wrap f) = if c = .undo then [] else Rose.leavesAll f := by
  cases c <;> simp [wrap, Rose.leavesAll, Rose.leaves]

/-- Entries that write a forest down write down, once the scope around them is
closed, what the closing makes of the forest. -/
theorem settled_record {inner : List Entry} {n : Nat} {f : List (Rose Kind)}
    (h : Journal.settled inner = Journal.settled (Rose.entriesAll n f)) (c : Closing) :
    Journal.settled (c.record inner) = Journal.settled (Rose.entriesAll n (c.wrap f)) := by
  have hnode : ∀ l : Label, Journal.settled (.opening l :: (inner ++ [.close])) =
      Journal.settled (Rose.entriesAll n [.node l f]) := by
    intro l
    rw [Journal.settled_cons, Journal.settled_append, h, ← Journal.settled_append,
      ← Journal.settled_cons]
    simp [Rose.entriesAll, Rose.entries]
  cases c with
  | node kind => exact hnode _
  | error message => exact hnode _
  | splice =>
    by_cases hi : inner = []
    · simpa [record, wrap, hi] using h
    · simp only [record, wrap, hi, if_false]
      rw [Journal.settled_cons, Journal.settled_placeholder, List.nil_append, h]
  | undo => rfl

end Closing

namespace Script

/-- The entries that a script adds to a journal, where `number` tokens have
been taken before and `ks` are the kinds that are left. -/
def recording {α : Type} (recovery : KindSet) : Script α → Nat → List Kind → List Entry
  | .pure _, _, _ => []
  | .look next, n, ks => (next (.ofList recovery ks)).recording recovery n ks
  | .bump next, n, [] => next.recording recovery n []
  | .bump next, n, _ :: ks => .token n :: next.recording recovery (n + 1) ks
  | .report m next, n, ks =>
    .opening (.failure m) :: .close :: next.recording recovery n ks
  | .scope body next, n, ks =>
    let inner := body.outcome recovery ks
    let taken := (Rose.leavesAll (inner.result.1.wrap inner.forest)).length
    let rest := if inner.result.1 = .undo then ks else inner.rest
    inner.result.1.record (body.recording recovery n ks)
      ++ (next inner.result.2).recording recovery (n + taken) rest

/-- The tokens of the forest are the kinds that were taken, in order. -/
theorem leavesAll_append_rest {α : Type} (R : KindSet) (p : Script α) (ks : List Kind) :
    Rose.leavesAll (p.outcome R ks).forest ++ (p.outcome R ks).rest = ks := by
  induction p generalizing ks with
  | pure a => rfl
  | look next ih => exact ih _ ks
  | bump next ih =>
    cases ks with
    | nil => exact ih []
    | cons k ks => simp [outcome, Rose.leavesAll, Rose.leaves, ih]
  | report m next ih => simp [outcome, Rose.leavesAll, Rose.leaves, ih]
  | scope body next ihb ih =>
    have hb := ihb ks
    simp only [outcome, Rose.leavesAll_append, List.append_assoc, ih, Closing.leavesAll_wrap]
    split
    · rfl
    · exact hb

/-- Without its placeholders a recording writes down the forest of the outcome. -/
theorem settled_recording {α : Type} (R : KindSet) (p : Script α) (n : Nat) (ks : List Kind) :
    Journal.settled (p.recording R n ks) =
      Journal.settled (Rose.entriesAll n (p.outcome R ks).forest) := by
  induction p generalizing n ks with
  | pure a => rfl
  | look next ih => exact ih _ n ks
  | bump next ih =>
    cases ks with
    | nil => exact ih n []
    | cons k ks =>
      simp only [recording, outcome, Rose.entriesAll, Rose.entries, Rose.leaves,
        List.length_singleton]
      rw [Journal.settled_cons, ih, Journal.settled_append]
  | report m next ih =>
    simp only [recording, outcome, Rose.entriesAll, Rose.entries, Rose.leaves, Rose.leavesAll,
      List.length_nil, List.nil_append, List.cons_append, Nat.add_zero]
    rw [Journal.settled_cons, Journal.settled_cons .close, ih, ← Journal.settled_cons,
      ← Journal.settled_cons]
  | scope body next ihb ih =>
    have hinner := Closing.settled_record (ihb n ks) (body.outcome R ks).result.1
    simp only [recording, outcome, Rose.entriesAll_append, Journal.settled_append, hinner, ih]

theorem length_leavesAll {α : Type} (R : KindSet) (p : Script α) (ks : List Kind) :
    (Rose.leavesAll (p.outcome R ks).forest).length + (p.outcome R ks).rest.length = ks.length := by
  rw [← List.length_append, leavesAll_append_rest]

theorem length_rest_le {α : Type} (R : KindSet) (p : Script α) (ks : List Kind) :
    (p.outcome R ks).rest.length ≤ ks.length := by
  have h := length_leavesAll R p ks
  omega

/-- What is left of the kinds is what lies behind the tokens taken. -/
theorem drop_length_leavesAll {α : Type} (R : KindSet) (p : Script α) (ks : List Kind) :
    ks.drop (Rose.leavesAll (p.outcome R ks).forest).length = (p.outcome R ks).rest := by
  have h := leavesAll_append_rest R p ks
  calc ks.drop (Rose.leavesAll (p.outcome R ks).forest).length
      = (Rose.leavesAll (p.outcome R ks).forest ++ (p.outcome R ks).rest).drop
          (Rose.leavesAll (p.outcome R ks).forest).length := by rw [h]
    _ = (p.outcome R ks).rest := drop_length_append _ _

end Script

/-- A session that has gone on by some tokens and has recorded some entries. -/
def Session.after (s : Session) (tokens : Nat) (entries : List Entry) : Session :=
  { s with cursor := s.cursor + tokens, journal := s.journal ++ entries.toArray }

namespace Session

@[simp] theorem after_zero_nil (s : Session) : s.after 0 [] = s := by
  simp [after]

theorem after_after (s : Session) (m n : Nat) (es fs : List Entry) :
    (s.after m es).after n fs = s.after (m + n) (es ++ fs) := by
  simp [after, Nat.add_assoc]

theorem rest_after (s : Session) (n : Nat) (es : List Entry) :
    (s.after n es).rest = s.rest.drop n := by
  simp [after, rest]

theorem bump_of_rest_nil {s : Session} (h : s.rest = []) : s.bump = s := by
  have hs : s.stream.size ≤ s.cursor := by
    rw [TokenStream.size_eq_length_kinds]
    exact List.drop_eq_nil_iff.mp h
  simp [bump, atEnd, hs]

theorem bump_of_rest_cons {s : Session} {k : Kind} {ks : List Kind} (h : s.rest = k :: ks) :
    s.bump = s.after 1 [.token s.cursor] := by
  have hs : s.cursor < s.stream.size := by
    rw [TokenStream.size_eq_length_kinds]
    apply Nat.lt_of_not_le
    intro hle
    have hnil : s.rest = [] := List.drop_eq_nil_iff.mpr hle
    simp [hnil] at h
  simp [bump, atEnd, after, Nat.not_le.mpr hs]

/-- Closing a checkpoint right after a recording rewrites only what was
recorded since. -/
theorem close_after_opened (s : Session) (n : Nat) (es : List Entry) (c : Closing) :
    (s.opened.after n es).close s.checkpoint c =
      s.after (if c = .undo then 0 else n) (c.record es) := by
  cases c with
  | node kind =>
    simp [close, complete, opened, after, checkpoint, Closing.record, modify_append_cons]
  | error message =>
    simp [close, complete, opened, after, checkpoint, Closing.record, modify_append_cons]
  | splice =>
    by_cases h : es = [] <;>
      simp [close, abandon, opened, after, checkpoint, Closing.record, h]
  | undo => simp [close, rollback, opened, after, checkpoint, Closing.record]

end Session

/-- Carried out in a session, a script gives the result of its outcome, takes
the tokens of its outcome, and appends its recording. -/
theorem Script.run_eq {α : Type} (p : Script α) (s : Session) :
    p.run s =
      ((p.outcome s.recovery s.rest).result,
        s.after (Rose.leavesAll (p.outcome s.recovery s.rest).forest).length
          (p.recording s.recovery s.cursor s.rest)) := by
  induction p generalizing s with
  | pure a => simp [run, outcome, recording, Rose.leavesAll]
  | look next ih => rw [run, ih, Session.view_eq_ofList]; rfl
  | bump next ih =>
    cases h : s.rest with
    | nil =>
      rw [run, Session.bump_of_rest_nil h, ih, h]
      rfl
    | cons k ks =>
      rw [run, Session.bump_of_rest_cons h, ih, Session.rest_after, h, Session.after_after]
      simp [outcome, recording, Session.after, Rose.leavesAll, Rose.leaves, Nat.add_comm]
  | report m next ih =>
    have hr : s.report m = s.after 0 [.opening (.failure m), .close] := rfl
    rw [run, hr, ih, Session.rest_after, Session.after_after]
    simp [outcome, recording, Session.after, Rose.leavesAll, Rose.leaves]
  | scope body next ihb ih =>
    have ho : s.opened.rest = s.rest := rfl
    have hrec : s.opened.recovery = s.recovery := rfl
    have hcur : s.opened.cursor = s.cursor := rfl
    have hdrop := drop_length_leavesAll s.recovery body s.rest
    simp only [run, ihb, ho, hrec, hcur, Session.close_after_opened, ih]
    rw [Session.rest_after, Session.after_after]
    simp only [outcome, recording, Session.after, Rose.leavesAll_append, List.length_append,
      Closing.leavesAll_wrap]
    by_cases hu : (body.outcome s.recovery s.rest).result.1 = .undo
    · simp [hu]
    · simp [hu, hdrop]

namespace Script

variable {α : Type} (p : Script α) (s : Session)

theorem fst_run : (p.run s).1 = (p.outcome s.recovery s.rest).result := by
  rw [run_eq]

theorem stream_run : (p.run s).2.stream = s.stream := by
  rw [run_eq]
  rfl

theorem rest_run : (p.run s).2.rest = (p.outcome s.recovery s.rest).rest := by
  rw [run_eq, Session.rest_after, drop_length_leavesAll]

theorem cursor_run :
    (p.run s).2.cursor =
      s.cursor + (Rose.leavesAll (p.outcome s.recovery s.rest).forest).length := by
  rw [run_eq]
  rfl

theorem cursor_le_run : s.cursor ≤ (p.run s).2.cursor := by
  rw [cursor_run]
  exact Nat.le_add_right _ _

/-- Where a script has grown nothing it has recorded nothing, not even a placeholder. -/
theorem recording_eq_nil {R : KindSet} {n : Nat} {ks : List Kind}
    (h : (p.outcome R ks).forest = []) : p.recording R n ks = [] := by
  induction p generalizing n ks with
  | pure a => rfl
  | look next ih => exact ih _ h
  | bump next ih =>
    cases ks with
    | nil => exact ih h
    | cons k ks => cases h
  | report m next ih => cases h
  | scope body next ihb ih =>
    obtain ⟨hwrap, hnext⟩ := List.append_eq_nil_iff.mp h
    rw [recording, ih _ hnext, List.append_nil]
    cases hc : (body.outcome R ks).result.1 with
    | node kind => rw [hc] at hwrap; cases hwrap
    | error message => rw [hc] at hwrap; cases hwrap
    | splice =>
      rw [hc] at hwrap
      rw [Closing.record, ihb hwrap, if_pos rfl]
    | undo => rfl

/-- A script that takes nothing and grows nothing leaves the session as it was. -/
theorem run_eq_self {a : α} {ks : List Kind} (h : p.outcome s.recovery s.rest = ⟨a, ks, []⟩) :
    p.run s = (a, s) := by
  have hforest : (p.outcome s.recovery s.rest).forest = [] := by rw [h]
  rw [run_eq, recording_eq_nil p hforest, h]
  exact congrArg (Prod.mk a) s.after_zero_nil

end Script

theorem Session.length_rest (s : Session) : s.rest.length = s.stream.size - s.cursor := by
  rw [rest, List.length_drop, TokenStream.size_eq_length_kinds]

end TemplateTree
