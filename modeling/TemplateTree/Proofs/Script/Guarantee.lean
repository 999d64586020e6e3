import TemplateTree.Script.Outcome

/-!
# Guarantees of scripts

A script guarantees a condition at a list of kinds if its result, the kinds
that it leaves and the forest that it grows satisfy the condition. Guarantees
of composed scripts are guarantees of their parts, so that a statement about a
rule of the grammar is taken apart along the text of the rule. The condition
of a part speaks of the forest of that part alone.
-/

namespace TemplateTree

/-- A condition on what comes of a script. -/
abbrev Post (α : Type) := α → List Kind → List (Rose Kind) → Prop

namespace Script

variable {α β : Type} {R : KindSet} {ks : List Kind}

/-- What comes of the script at these kinds satisfies the condition. -/
def Ensures (p : Script α) (R : KindSet) (ks : List Kind) (Q : Post α) : Prop :=
  Q (p.outcome R ks).result (p.outcome R ks).rest (p.outcome R ks).forest

theorem Ensures.mono {p : Script α} {Q Q' : Post α} (h : p.Ensures R ks Q)
    (himp : ∀ a rest f, Q a rest f → Q' a rest f) : p.Ensures R ks Q' :=
  himp _ _ _ h

theorem Ensures.and {p : Script α} {Q Q' : Post α} (h : p.Ensures R ks Q)
    (h' : p.Ensures R ks Q') : p.Ensures R ks fun a rest f => Q a rest f ∧ Q' a rest f :=
  ⟨h, h'⟩

theorem ensures_of_eq {p : Script α} {Q : Post α} {a : α} {rest : List Kind}
    {f : List (Rose Kind)} (h : p.outcome R ks = ⟨a, rest, f⟩) :
    p.Ensures R ks Q ↔ Q a rest f := by
  unfold Ensures
  rw [h]

theorem ensures_iff {p : Script α} {Q : Post α} :
    p.Ensures R ks Q ↔
      Q (p.outcome R ks).result (p.outcome R ks).rest (p.outcome R ks).forest := Iff.rfl

theorem ensures_eq_iff {p : Script α} {a : α} {rest : List Kind} {f : List (Rose Kind)} :
    p.Ensures R ks (fun a' rest' f' => a' = a ∧ rest' = rest ∧ f' = f) ↔
      p.outcome R ks = ⟨a, rest, f⟩ := by
  unfold Ensures
  constructor
  · rintro ⟨rfl, rfl, rfl⟩
    rfl
  · intro h
    rw [h]
    exact ⟨rfl, rfl, rfl⟩

@[simp] theorem ensures_pure {a : α} {Q : Post α} :
    Ensures (Pure.pure a) R ks Q ↔ Q a ks [] := Iff.rfl

@[simp] theorem ensures_bind {p : Script α} {f : α → Script β} {Q : Post β} :
    (p >>= f).Ensures R ks Q ↔ p.Ensures R ks fun a rest g =>
      (f a).Ensures R rest fun b rest' g' => Q b rest' (g ++ g') := by
  have h : (p >>= f).outcome R ks = _ := outcome_bind R p f ks
  unfold Ensures
  rw [h]

/-- A rule that gives up unless a part of it has succeeded goes on after a success. -/
@[simp] theorem ensures_unless_true {p q : Script α} {Q : Post α} :
    (if !true then p else q).Ensures R ks Q ↔ q.Ensures R ks Q := Iff.rfl

@[simp] theorem ensures_unless_false {p q : Script α} {Q : Post α} :
    (if !false then p else q).Ensures R ks Q ↔ p.Ensures R ks Q := Iff.rfl

@[simp] theorem ensures_view {Q : Post View} :
    view.Ensures R ks Q ↔ Q (.ofList R ks) ks [] := Iff.rfl

@[simp] theorem ensures_current {Q : Post Kind} :
    current.Ensures R ks Q ↔ Q (ks.headD .endOfInput) ks [] := by
  cases ks <;> exact Iff.rfl

@[simp] theorem ensures_left {Q : Post Nat} :
    left.Ensures R ks Q ↔ Q ks.length ks [] := Iff.rfl

@[simp] theorem ensures_take_cons {k : Kind} {Q : Post Unit} :
    take.Ensures R (k :: ks) Q ↔ Q () ks [.token k] := Iff.rfl

@[simp] theorem ensures_complain {m : String} {Q : Post Unit} :
    (complain m).Ensures R ks Q ↔ Q () ks [.node (.failure m) []] := Iff.rfl

@[simp] theorem ensures_checkpoint {p : Script (Closing × α)} {Q : Post α} :
    (checkpoint p).Ensures R ks Q ↔ p.Ensures R ks fun c rest f =>
      Q c.2 (if c.1 = .undo then ks else rest) (c.1.wrap f) := by
  simp [Ensures, checkpoint, outcome]

@[simp] theorem ensures_tracked {p : Script Bool} {Q : Post (Bool × Bool)} :
    (tracked p).Ensures R ks Q ↔ p.Ensures R ks fun found rest f =>
      Q (found, decide (rest.length < ks.length)) rest f := by
  simp [tracked]

/-- A failed attempt leaves no trace. -/
@[simp] theorem ensures_attempt {p : Script Bool} {Q : Post Bool} :
    (attempt p).Ensures R ks Q ↔ p.Ensures R ks fun found rest f =>
      if found then Q true rest f else Q false ks [] := by
  unfold attempt
  rw [ensures_checkpoint, ensures_bind]
  unfold Ensures
  cases (p.outcome R ks).result <;> simp [outcome, Pure.pure, Closing.wrap]

@[simp] theorem ensures_lookahead {p : Script Bool} {Q : Post Bool} :
    (lookahead p).Ensures R ks Q ↔ p.Ensures R ks fun found _ _ => Q found ks [] := by
  simp [lookahead, Closing.wrap]

/-- Of several rules the first that succeeds leaves its trees, and if none does there
is no trace of any. -/
theorem ensures_firstOf {C : List (Rose Kind) → Prop} {rules : List (Script Bool)}
    (h : ∀ rule ∈ rules, rule.Ensures R ks fun found _ f => found = true → C f) :
    (firstOf rules).Ensures R ks fun found rest f =>
      if found then C f else rest = ks ∧ f = [] := by
  induction rules with
  | nil => exact ensures_pure.mpr ⟨rfl, rfl⟩
  | cons rule rules ih =>
    rw [firstOf, ensures_bind, ensures_attempt]
    apply (h rule List.mem_cons_self).mono
    intro found rest f hf
    cases found with
    | false => simpa using ih fun r hr => h r (List.mem_cons_of_mem _ hr)
    | true => simpa using hf rfl

/-- A repeated rule leaves the trees of its successes in a row. -/
theorem ensures_many {C D : List (Rose Kind) → Prop} {rule : Script Bool} (hnil : D [])
    (hcons : ∀ f g, C f → D g → D (f ++ g))
    (h : ∀ ks, rule.Ensures R ks fun found _ f => found = true → C f) :
    (many rule).Ensures R ks fun _ _ f => D f := by
  have hloop : ∀ bound ks, (repeatUpTo rule bound).Ensures R ks fun _ _ f => D f := by
    intro bound
    induction bound with
    | zero => exact fun _ => ensures_pure.mpr hnil
    | succ bound ih =>
      intro ks
      rw [repeatUpTo, ensures_bind, ensures_attempt]
      apply (h ks).mono
      intro found rest f hf
      cases found with
      | false => simpa using hnil
      | true =>
        simp only [if_true]
        exact (ih rest).mono fun _ _ g hg => hcons f g (hf rfl) hg
  rw [many, ensures_bind, ensures_left]
  exact hloop _ ks

/-- The condition holds of no trees, and of trees in a row if it holds of both parts. -/
structure Cumulative (C : List (Rose Kind) → Prop) : Prop where
  nil : C []
  append : ∀ f g, C f → C g → C (f ++ g)

namespace Cumulative

variable {C : List (Rose Kind) → Prop} (hC : Cumulative C)

include hC

theorem ensures_bind {p : Script α} {next : α → Script β} (hp : p.Ensures R ks fun _ _ f => C f)
    (hnext : ∀ a ks, (next a).Ensures R ks fun _ _ f => C f) :
    (p >>= next).Ensures R ks fun _ _ f => C f := by
  rw [Script.ensures_bind]
  apply hp.mono
  intro a rest f hf
  exact (hnext a rest).mono fun _ _ g hg => hC.append f g hf hg

/-- Of an attempt only the success counts. -/
theorem ensures_attempt {rule : Script Bool}
    (h : rule.Ensures R ks fun found _ f => found = true → C f) :
    (attempt rule).Ensures R ks fun _ _ f => C f := by
  rw [Script.ensures_attempt]
  apply h.mono
  intro found _ f hf
  cases found with
  | false => exact hC.nil
  | true => exact hf rfl

end Cumulative

-- From here on a guarantee is only taken apart by these lemmas: unfolded, a
-- condition that branches on the result would make every look at it run the rule.
attribute [irreducible] Ensures

end Script

end TemplateTree
