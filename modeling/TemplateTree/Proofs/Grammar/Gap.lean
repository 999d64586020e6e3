import TemplateTree.Proofs.Grammar.Termination

/-!
# Scripts that do not see into a gap

Lists of kinds that differ only in one stretch are one list with a gap in it, which
is filled in this way or that. A script is blind to what fills the gap if it gives
the same result in all cases, stops at the same place, and grows the same forest up
to a tree that stands for the whole gap. A script that stops before the gap is
blind; so is one that comes to the gap and reads it in one piece. Blindness is
carried from the parts of a script to the whole, so that for the rules of the
grammar it is enough to look at how they take single tokens.
-/

namespace TemplateTree

open Rose

namespace Rose

mutual

/-- Puts a tree into the gaps of another. -/
def plant (t : Rose Kind) : Rose (Option Kind) → Rose Kind
  | .token none => t
  | .token (some k) => .token k
  | .node label children => .node label (plantAll t children)

def plantAll (t : Rose Kind) : List (Rose (Option Kind)) → List (Rose Kind)
  | [] => []
  | r :: rs => plant t r :: plantAll t rs

end

@[simp] theorem plantAll_append (t : Rose Kind) (rs ss : List (Rose (Option Kind))) :
    plantAll t (rs ++ ss) = plantAll t rs ++ plantAll t ss := by
  induction rs with
  | nil => rfl
  | cons r rs ih => simp [plantAll, ih]

theorem plantAll_wrap (t : Rose Kind) (f : List (Rose (Option Kind))) (c : Closing) :
    plantAll t (c.wrap f) = c.wrap (plantAll t f) := by
  cases c <;> rfl

mutual

theorem leaves_plant (t : Rose Kind) (r : Rose (Option Kind)) :
    (plant t r).leaves = r.leaves.flatMap fun x => x.elim t.leaves ([·]) := by
  match r with
  | .token none => simp [plant, leaves]
  | .token (some k) => simp [plant, leaves]
  | .node label children => exact leavesAll_plantAll t children

/-- The tokens of the tree in a gap stand where the gap was. -/
theorem leavesAll_plantAll (t : Rose Kind) (rs : List (Rose (Option Kind))) :
    leavesAll (plantAll t rs) = (leavesAll rs).flatMap fun x => x.elim t.leaves ([·]) := by
  match rs with
  | [] => rfl
  | r :: rs =>
    rw [plantAll, leavesAll, leavesAll, leaves_plant t r, leavesAll_plantAll t rs,
      List.flatMap_append]

end

end Rose

/-- Different things that may fill the same place: kinds, of which the first is always
the same, and a tree for them. -/
structure Gap (ι : Type) where
  first : Kind
  others : ι → List Kind
  tree : ι → Rose Kind

namespace Gap

variable {ι : Type} (g : Gap ι) (i : ι)

/-- Fills the gaps in a list of kinds. -/
def kinds : List (Option Kind) → List Kind
  | [] => []
  | none :: m => g.first :: (g.others i ++ kinds m)
  | some k :: m => k :: kinds m

/-- The kind that is seen in front. -/
def head : List (Option Kind) → Kind
  | [] => .endOfInput
  | none :: _ => g.first
  | some k :: _ => k

@[simp] theorem headD_kinds (m : List (Option Kind)) :
    (g.kinds i m).headD .endOfInput = g.head m := by
  match m with
  | [] => rfl
  | none :: _ => rfl
  | some _ :: _ => rfl

theorem exists_kinds_eq_cons {m : List (Option Kind)} {k : Kind} (hm : g.head m = k)
    (hk : k ≠ .endOfInput) : ∃ ks, g.kinds i m = k :: ks :=
  exists_eq_cons_of_headD ((g.headD_kinds i m).trans hm) hk

@[simp] theorem kinds_append (m m' : List (Option Kind)) :
    g.kinds i (m ++ m') = g.kinds i m ++ g.kinds i m' := by
  induction m with
  | nil => rfl
  | cons x m ih => cases x <;> simp [kinds, ih]

@[simp] theorem kinds_map_some (ks : List Kind) : g.kinds i (ks.map some) = ks := by
  induction ks with
  | nil => rfl
  | cons k ks ih => simp [kinds, ih]

theorem length_le_length_kinds (m : List (Option Kind)) : m.length ≤ (g.kinds i m).length := by
  induction m with
  | nil => exact Nat.le_refl _
  | cons x m ih =>
    cases x with
    | none => simp only [kinds, List.length_cons, List.length_append]; omega
    | some k => simp only [kinds, List.length_cons]; omega

theorem length_kinds_ne_zero {m : List (Option Kind)} (hm : m ≠ []) (i : ι) :
    (g.kinds i m).length ≠ 0 := by
  intro hzero
  have hle := g.length_le_length_kinds i m
  rw [hzero] at hle
  exact hm (List.length_eq_zero_iff.mp (Nat.le_zero.mp hle))

/-- What is shorter once it is filled is shorter as it stands, if it is an end of the same list. -/
theorem length_lt_of_kinds {m m' : List (Option Kind)} (hm : m' <:+ m)
    (h : (g.kinds i m').length < (g.kinds i m).length) : m'.length < m.length := by
  obtain ⟨taken, rfl⟩ := hm
  cases taken with
  | nil => exact absurd h (Nat.lt_irrefl _)
  | cons x taken => simp only [List.cons_append, List.length_cons, List.length_append]; omega

theorem length_kinds_lt_iff {m m' : List (Option Kind)} (hm : m' <:+ m) :
    (g.kinds i m').length < (g.kinds i m).length ↔ m'.length < m.length := by
  constructor
  · exact g.length_lt_of_kinds i hm
  · obtain ⟨taken, rfl⟩ := hm
    intro h
    have hle := g.length_le_length_kinds i taken
    rw [kinds_append, List.length_append]
    rw [List.length_append] at h
    omega

end Gap

namespace Script

open Grammar

variable {ι α β : Type} {g : Gap ι} {R : KindSet} {m : List (Option Kind)}

/-- Whatever fills the gaps, the script comes to the same result and to the same
place, and grows the same forest up to the trees of the gaps. -/
def Blind (g : Gap ι) (R : KindSet) (p : ι → Script α) (m : List (Option Kind)) : Prop :=
  ∃ a m' f, leavesAll f ++ m' = m ∧
    ∀ i, (p i).outcome R (g.kinds i m) = ⟨a, g.kinds i m', plantAll (g.tree i) f⟩

theorem blind_return (a : α) : Blind g R (fun _ => return a) m := ⟨a, m, [], rfl, fun _ => rfl⟩

theorem blind_complain (message : String) : Blind g R (fun _ => complain message) m :=
  ⟨(), m, [.node (.failure message) []], rfl, fun _ => rfl⟩

/-- A script goes on where a part of it has come to, with what the part has given. -/
theorem Blind.bind {p : ι → Script α} {next : α → ι → Script β} (hp : Blind g R p m)
    (hnext : ∀ a m', m' <:+ m →
      (∀ i, (p i).Ensures R (g.kinds i m) fun b rest _ => b = a ∧ rest = g.kinds i m') →
        Blind g R (next a) m') :
    Blind g R (fun i => p i >>= fun a => next a i) m := by
  obtain ⟨a, m', f, rfl, h⟩ := hp
  have hensures : ∀ i, (p i).Ensures R (g.kinds i (leavesAll f ++ m')) fun b rest _ =>
      b = a ∧ rest = g.kinds i m' := fun i => (ensures_of_eq (h i)).mpr ⟨rfl, rfl⟩
  obtain ⟨b, m'', f', rfl, h'⟩ := hnext a m' (List.suffix_append _ _) hensures
  refine ⟨b, m'', f ++ f', by simp, fun i => ?_⟩
  apply ensures_eq_iff.mp
  rw [ensures_bind, ensures_of_eq (h i), ensures_of_eq (h' i), plantAll_append]
  exact ⟨rfl, rfl, rfl⟩

theorem blind_current {next : Kind → ι → Script β} (h : Blind g R (next (g.head m)) m) :
    Blind g R (fun i => current >>= fun k => next k i) m := by
  have hcurrent : Blind g R (fun _ : ι => current) m := by
    refine ⟨g.head m, m, [], rfl, fun i => ?_⟩
    rw [← g.headD_kinds i]
    exact ensures_eq_iff.mp (ensures_current.mpr ⟨rfl, rfl, rfl⟩)
  obtain ⟨a, m', f, hm, hnext⟩ := h
  refine ⟨a, m', f, hm, fun i => ?_⟩
  rw [← hnext i, ← g.headD_kinds i]
  cases g.kinds i m <;> rfl

theorem blind_left {next : Nat → ι → Script β}
    (h : Blind g R (fun i => next (g.kinds i m).length i) m) :
    Blind g R (fun i => left >>= fun n => next n i) m := h

theorem blind_view {next : View → ι → Script β}
    (h : Blind g R (fun i => next (.ofList R (g.kinds i m)) i) m) :
    Blind g R (fun i => view >>= fun v => next v i) m := h

theorem Blind.checkpoint {body : ι → Script (Closing × α)} (h : Blind g R body m) :
    Blind g R (fun i => Script.checkpoint (body i)) m := by
  obtain ⟨⟨c, a⟩, m', f, hm, hbody⟩ := h
  refine ⟨a, if c = .undo then m else m', c.wrap f, ?_, fun i => ?_⟩
  · rw [Closing.leavesAll_wrap]
    split
    · rfl
    · exact hm
  · apply ensures_eq_iff.mp
    rw [ensures_checkpoint, ensures_of_eq (hbody i), plantAll_wrap]
    refine ⟨rfl, ?_, rfl⟩
    by_cases hc : c = .undo <;> simp [hc]

theorem Blind.attempt {rule : ι → Script Bool} (h : Blind g R rule m) :
    Blind g R (fun i => Script.attempt (rule i)) m := by
  refine Blind.checkpoint (h.bind fun found m' _ _ => ?_)
  cases found with
  | false => exact blind_return _
  | true => exact blind_return _

theorem Blind.lookahead {rule : ι → Script Bool} (h : Blind g R rule m) :
    Blind g R (fun i => Script.lookahead (rule i)) m :=
  Blind.checkpoint (h.bind fun _ _ _ _ => blind_return _)

theorem Blind.tracked {rule : ι → Script Bool} (h : Blind g R rule m) :
    Blind g R (fun i => Script.tracked (rule i)) m := by
  obtain ⟨found, m', f, hm, hrule⟩ := h
  have hsuffix : m' <:+ m := ⟨leavesAll f, hm⟩
  refine ⟨(found, decide (m'.length < m.length)), m', f, hm, fun i => ?_⟩
  apply ensures_eq_iff.mp
  rw [ensures_tracked, ensures_of_eq (hrule i)]
  exact ⟨by rw [decide_eq_decide.mpr (g.length_kinds_lt_iff i hsuffix)], rfl, rfl⟩

/-- A rule that gives up unless a part of it has succeeded. -/
theorem Blind.unless {part : ι → Script Bool} {a : α} {body : ι → Script α}
    (hpart : Blind g R part m)
    (hbody : ∀ m', m' <:+ m →
      (∀ i, (part i).Ensures R (g.kinds i m) fun found rest _ =>
        found = true ∧ rest = g.kinds i m') → Blind g R body m') :
    Blind g R (fun i => do
      if !(← part i) then return a
      body i) m := by
  have hrest : ∀ found m', m' <:+ m →
      (∀ i, (part i).Ensures R (g.kinds i m) fun b rest _ => b = found ∧ rest = g.kinds i m') →
        Blind g R (fun i => if !found then return a else body i) m' := by
    intro found m' hm hensures
    cases found with
    | false => exact blind_return a
    | true => exact hbody m' hm hensures
  exact hpart.bind hrest

theorem Blind.firstOf {rules : List (Script Bool)}
    (h : ∀ rule ∈ rules, ∀ m', m' <:+ m → Blind g R (fun _ => rule) m') :
    Blind g R (fun _ => Script.firstOf rules) m := by
  induction rules generalizing m with
  | nil => exact blind_return false
  | cons rule rules ih =>
    refine (h rule (by simp) m (List.suffix_refl m)).attempt.bind fun found m' hm _ => ?_
    cases found with
    | false => exact ih fun r hr m'' hm' => h r (by simp [hr]) m'' (hm'.trans hm)
    | true => exact blind_return true

/-- What counts down is blind if each of its turns is, provided that less is left after
the turn. The bounds may differ from case to case, as long as they suffice. A condition
on what is left may be handed on from turn to turn. -/
theorem Blind.countdown {loop : ι → Nat → Script α} {a : α} {P : List (Option Kind) → Prop}
    (hend : ∀ i bound, (loop i bound).outcome R [] = ⟨a, [], []⟩)
    (hturn : ∀ m', m' <:+ m → P m' →
      (∀ m'', m'' <:+ m' → m''.length < m'.length → P m'' → ∀ bound : ι → Nat,
        (∀ i, (g.kinds i m'').length ≤ bound i) → Blind g R (fun i => loop i (bound i)) m'') →
      ∀ bound : ι → Nat, (∀ i, (g.kinds i m').length ≤ bound i + 1) →
        Blind g R (fun i => loop i (bound i + 1)) m')
    (hm : P m) (bound : ι → Nat) (hbound : ∀ i, (g.kinds i m).length ≤ bound i) :
    Blind g R (fun i => loop i (bound i)) m := by
  induction hlength : m.length using Nat.strongRecOn generalizing m bound with
  | _ length ih =>
    cases m with
    | nil => exact ⟨a, [], [], rfl, fun i => hend i (bound i)⟩
    | cons x m =>
      have hpos : ∀ i, bound i = (bound i - 1) + 1 := by
        intro i
        have hle := Nat.le_trans (g.length_le_length_kinds i (x :: m)) (hbound i)
        rw [List.length_cons] at hle
        omega
      have hunfold : (fun i => loop i (bound i)) = fun i => loop i (bound i - 1 + 1) :=
        funext fun i => congrArg (loop i) (hpos i)
      rw [hunfold]
      refine hturn _ (List.suffix_refl _) hm (fun m' hm' hlt hP bound' hbound' => ?_) _ fun i => ?_
      · exact ih m'.length (by omega) (fun m'' hm'' => hturn m'' (hm''.trans hm')) hP bound'
          hbound' rfl
      · rw [← hpos i]
        exact hbound i

variable [Nonempty ι]

/-- Where a script has come to further ahead in every case, less is left. -/
theorem length_lt_of_ensures {p : ι → Script α} {a : α} {m' : List (Option Kind)} (hm : m' <:+ m)
    (h : ∀ i, (p i).Ensures R (g.kinds i m) fun b rest _ => b = a ∧ rest = g.kinds i m')
    (hlt : ∀ i, (p i).Ensures R (g.kinds i m) fun b rest _ =>
      b = a → rest.length < (g.kinds i m).length) : m'.length < m.length := by
  obtain ⟨i⟩ := ‹Nonempty ι›
  have hboth := ensures_iff.mp ((h i).and (hlt i))
  obtain ⟨⟨hresult, hrest⟩, hlt⟩ := hboth
  rw [hrest] at hlt
  exact g.length_lt_of_kinds i hm (hlt hresult)

/-- A loop is blind if its body is. -/
theorem Blind.countedLoop {body : ι → Script Bool} (hbody : ∀ m', m' <:+ m → Blind g R body m')
    (hadvances : ∀ i ks, Advances (body i) R ks)
    (hend : ∀ i, (body i).outcome R [] = ⟨false, [], []⟩) (bound : ι → Nat)
    (hbound : ∀ i, (g.kinds i m).length ≤ bound i) :
    Blind g R (fun i => Script.countedLoop (body i) (bound i)) m := by
  refine Blind.countdown (a := ()) (P := fun _ => True) (fun i bound => ?_)
    (fun m' hm _ ih bound hbound => ?_) trivial bound hbound
  · apply ensures_eq_iff.mp
    cases bound with
    | zero => exact ensures_pure.mpr ⟨rfl, rfl, rfl⟩
    | succ bound =>
      rw [Script.countedLoop, ensures_bind, ensures_of_eq (hend i)]
      exact ensures_pure.mpr ⟨rfl, rfl, rfl⟩
  · refine (hbody m' hm).bind fun found m'' hm' hfound => ?_
    cases found with
    | false => exact blind_return ()
    | true =>
      have hlt := length_lt_of_ensures hm' hfound fun i => hadvances i _
      refine ih m'' hm' hlt trivial bound fun i => ?_
      have hshort := (g.length_kinds_lt_iff i hm').mpr hlt
      have hle := hbound i
      omega

theorem attempt_outcome_nil {rule : Script Bool} (h : Advances rule R []) :
    (Script.attempt rule).outcome R [] = ⟨false, [], []⟩ := by
  apply ensures_eq_iff.mp
  rw [ensures_attempt]
  apply Ensures.mono h
  intro found rest _ hlt
  cases found with
  | false => exact ⟨rfl, rfl, rfl⟩
  | true => exact absurd (hlt rfl) (Nat.not_lt_zero _)

theorem Blind.many {rule : ι → Script Bool} (h : ∀ m', m' <:+ m → Blind g R rule m')
    (hadvances : ∀ i ks, Advances (rule i) R ks) : Blind g R (fun i => Script.many (rule i)) m := by
  refine blind_left ?_
  simp only [repeatUpTo_eq_countedLoop]
  exact Blind.countedLoop (fun m' hm => (h m' hm).attempt)
    (fun i ks => attempt_advances (hadvances i ks)) (fun i => attempt_outcome_nil (hadvances i []))
    _ fun i => Nat.le_refl _

end Script

end TemplateTree
