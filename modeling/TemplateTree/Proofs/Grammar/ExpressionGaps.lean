import TemplateTree.Proofs.Grammar.Gap
import TemplateTree.Proofs.Grammar.PairLookahead
import TemplateTree.Proofs.Rose.Laying

/-!
# Expressions do not see into gaps

The inside of a tag is made of a few kinds, and the rules for it stop at the first
token of any other kind: they neither take it nor look at what lies behind it. So they
are blind to gaps that start with such a token. The same holds of the search for a
closing delimiter where the gaps start with a kind of the recovery set.
-/

namespace TemplateTree

open Rose

variable {ι : Type} {g : Gap ι} {R : KindSet} {m : List (Option Kind)}

namespace Gap

/-- What is passed over before the first gap is the same for all. -/
theorem plantAll_takeWhile {q : Kind → Bool} (hq : q g.first = false) (i : ι)
    (m : List (Option Kind)) :
    plantAll (g.tree i) ((m.takeWhile (Option.any q)).map .token) =
      ((g.kinds i m).takeWhile q).map .token := by
  induction m with
  | nil => rfl
  | cons x m ih =>
    cases x with
    | none => simp [kinds, hq, plantAll]
    | some k => cases hk : q k <;> simp [kinds, hk, plantAll, plant, ih]

theorem kinds_dropWhile {q : Kind → Bool} (hq : q g.first = false) (i : ι)
    (m : List (Option Kind)) :
    g.kinds i (m.dropWhile (Option.any q)) = (g.kinds i m).dropWhile q := by
  induction m with
  | nil => rfl
  | cons x m ih =>
    cases x with
    | none => simp [kinds, hq]
    | some k => cases hk : q k <;> simp [kinds, hk, ih]

end Gap

namespace Script

theorem blind_takeWhile {p : View → Bool} {q : Kind → Bool}
    (hp : ∀ k ks, p (.ofList R (k :: ks)) = q k) (hq : q g.first = false) :
    Blind g R (fun _ => takeWhile p) m := by
  refine ⟨(), m.dropWhile (Option.any q), (m.takeWhile (Option.any q)).map .token, ?_, fun i => ?_⟩
  · rw [leavesAll_map_token, List.takeWhile_append_dropWhile]
  · rw [outcome_takeWhile hp, g.plantAll_takeWhile hq, g.kinds_dropWhile hq]

end Script

namespace Grammar

open Script

/-- The kinds that the inside of a tag is made of, unreadable tokens among them. -/
def isInner (k : Kind) : Bool :=
  isLiteral k || k = .ident || k = .separator || k = .equals || k = .invalid

theorem leaf_blind {kind : Kind} (hend : kind ≠ .endOfInput) (hinvalid : g.first ≠ .invalid)
    (hkind : m.head? = some none → g.first ≠ kind) : Blind g R (fun _ => leaf kind) m := by
  by_cases hhead : m.head? = some (some kind)
  · obtain ⟨m', rfl⟩ : ∃ m', m = some kind :: m' := List.head?_eq_some_iff.mp hhead
    exact ⟨true, m', [.node (.plain kind) [.token (some kind)]], rfl,
      fun i => leaf_outcome_cons kind (g.kinds i m')⟩
  · have hne : g.head m ≠ kind := by
      match m with
      | [] => exact hend.symm
      | none :: m' => exact hkind rfl
      | some k :: m' => simpa [Gap.head] using hhead
    refine Blind.checkpoint (blind_current ?_)
    rw [if_neg hne]
    have hpass : Blind g R (fun _ => takeWhile fun v => v.ahead 0 = .invalid) m :=
      blind_takeWhile (q := fun k => k = .invalid) (fun _ _ => rfl) (decide_eq_false hinvalid)
    exact hpass.bind fun _ _ _ _ => blind_return _

section

variable (hfirst : isInner g.first = false)

include hfirst

theorem first_ne {k : Kind} (hk : isInner k = true) : g.first ≠ k := by
  rintro rfl
  rw [hfirst] at hk
  cases hk

theorem leaf_blind_of_isInner {kind : Kind} (hkind : isInner kind = true) :
    Blind g R (fun _ => leaf kind) m :=
  leaf_blind (by rintro rfl; cases hkind) (first_ne hfirst rfl) fun _ => first_ne hfirst hkind

theorem isKeyAhead_kinds (m : List (Option Kind)) :
    ∃ b, ∀ i, isKeyAhead (.ofList R (g.kinds i m)) = b := by
  match m with
  | [] => exact ⟨false, fun _ => rfl⟩
  | none :: m => exact ⟨false, fun i => isKeyAhead_of_ne (first_ne hfirst rfl)⟩
  | some k :: m =>
    refine ⟨decide (k = .ident) && decide (g.head m = .equals), fun i => ?_⟩
    have hahead : (View.ofList R (g.kinds i (some k :: m))).ahead 1 = g.head m := by
      rw [← g.headD_kinds i, ← ahead_zero (R := R)]
      rfl
    rw [isKeyAhead, hahead]
    rfl

/-- Whether a complete pair lies ahead is seen before the first gap. -/
theorem isPairAhead_kinds (m : List (Option Kind)) :
    ∃ b, ∀ i, isPairAhead (.ofList R (g.kinds i m)) = b := by
  induction hlength : m.length using Nat.strongRecOn generalizing m with
  | _ length ih =>
    have hnone : (∀ i, isKeyAhead (.ofList R (g.kinds i m)) = false) →
        ∃ b, ∀ i, isPairAhead (.ofList R (g.kinds i m)) = b :=
      fun h => ⟨false, fun i => isPairAhead_of_isKeyAhead (h i)⟩
    match m, hlength with
    | [], _ => exact hnone fun _ => rfl
    | none :: m, _ => exact hnone fun i => isKeyAhead_of_ne (first_ne hfirst rfl)
    | some k :: m, hlength =>
      by_cases hkey : k = .ident ∧ m.head? = some (some .equals)
      · obtain ⟨rfl, hequals⟩ := hkey
        obtain ⟨m, rfl⟩ := List.head?_eq_some_iff.mp hequals
        obtain ⟨b, hb⟩ := ih m.length (by simp only [List.length_cons] at hlength; omega) m rfl
        refine ⟨isLiteral (g.head m) || (g.head m = .ident && !b), fun i => ?_⟩
        rw [← hb i, ← g.headD_kinds i]
        exact isPairAhead_key
      · refine hnone fun i => ?_
        by_cases hk : k = .ident
        · refine isKeyAhead_cons ?_
          rw [g.headD_kinds]
          match m with
          | [] => simp [Gap.head]
          | none :: m => exact first_ne hfirst rfl
          | some k' :: m =>
            intro hequals
            exact hkey ⟨hk, congrArg (fun k => some (some k)) hequals⟩
        · exact isKeyAhead_of_ne hk

theorem pathStep_blind (m : List (Option Kind)) : Blind g R (fun _ => pathStep) m := by
  refine Blind.checkpoint ((leaf_blind_of_isInner hfirst rfl).unless fun m' _ _ => ?_)
  obtain ⟨b, hb⟩ := isPairAhead_kinds (R := R) hfirst m'
  refine blind_view ?_
  simp only [hb]
  cases b with
  | true => exact blind_return _
  | false => exact (leaf_blind_of_isInner hfirst rfl).bind fun found _ _ _ => blind_return _

variable [Nonempty ι]

theorem pathSteps_blind (m : List (Option Kind)) :
    Blind g R (fun _ => left >>= fun n => pathSteps n) m := by
  refine blind_left ?_
  simp only [pathSteps_eq_countedLoop]
  exact Blind.countedLoop (fun m' _ => pathStep_blind hfirst m') (fun _ => pathStep_advances)
    (fun _ => Loop.path.body_outcome_nil) _ fun i => Nat.le_refl _

theorem path_blind (m : List (Option Kind)) : Blind g R (fun _ => path) m := by
  obtain ⟨b, hb⟩ := isPairAhead_kinds (R := R) hfirst m
  refine blind_view ?_
  simp only [hb]
  cases b with
  | true => exact blind_return _
  | false =>
    refine Blind.checkpoint ((leaf_blind_of_isInner hfirst rfl).unless fun m' _ _ => ?_)
    exact (pathSteps_blind hfirst m').bind fun _ _ _ _ => blind_return _

theorem param_blind (m : List (Option Kind)) : Blind g R (fun _ => param) m := by
  refine Blind.checkpoint (Blind.bind (Blind.firstOf ?_) fun found _ _ _ => ?_)
  · simp only [List.mem_cons, List.not_mem_nil, or_false]
    rintro rule (rfl | rfl | rfl | rfl) m' _
    · exact path_blind hfirst m'
    all_goals exact leaf_blind_of_isInner hfirst rfl
  · cases found with
    | false => exact blind_return _
    | true => exact blind_return _

theorem params_blind (m : List (Option Kind)) : Blind g R (fun _ => params) m := by
  refine Blind.checkpoint ((param_blind hfirst m).unless fun m' _ _ => ?_)
  exact (Blind.many (fun m'' _ => param_blind hfirst m'') fun _ => param_advances).bind
    fun _ _ _ _ => blind_return _

theorem hashPair_blind (m : List (Option Kind)) : Blind g R (fun _ => hashPair) m :=
  Blind.checkpoint ((leaf_blind_of_isInner hfirst rfl).unless fun _ _ _ =>
    (leaf_blind_of_isInner hfirst rfl).unless fun m' _ _ =>
      (param_blind hfirst m').unless fun _ _ _ => blind_return _)

theorem hashStep_blind (m : List (Option Kind)) : Blind g R (fun _ => hashStep) m :=
  Blind.checkpoint ((hashPair_blind hfirst m).tracked.bind fun _ _ _ _ => blind_return _)

theorem hashPairs_blind (m : List (Option Kind)) :
    Blind g R (fun _ => left >>= fun n => hashPairs n) m := by
  have hend : ∀ bound, (hashPairs bound).outcome R [] = ⟨true, [], []⟩ := by
    intro bound
    apply ensures_eq_iff.mp
    cases bound with
    | zero => exact ensures_pure.mpr ⟨rfl, rfl, rfl⟩
    | succ bound =>
      rw [hashPairs, ensures_bind, ensures_checkpoint, ensures_bind, ensures_tracked]
      apply (hashPair_advances []).mono
      intro found rest _ hlt
      cases found with
      | false => simp [Closing.wrap]
      | true => exact absurd (hlt rfl) (Nat.not_lt_zero _)
  have hlt : ∀ moved ks, hashStep.Ensures R ks fun b rest _ =>
      b = (true, moved) → rest.length < ks.length := by
    intro moved ks
    have hadvances := hashStep_advances (R := R) ks
    rw [Advances, Loop.body, ensures_bind] at hadvances
    apply hadvances.mono
    rintro _ rest _ h rfl
    exact ensures_pure.mp h rfl
  refine blind_left (Blind.countdown (P := fun _ => True) (fun _ => hend)
    (fun m' _ _ ih bound hbound => ?_) trivial _ fun i => Nat.le_refl _)
  refine (hashStep_blind hfirst m').bind fun answer m'' hm hfound => ?_
  obtain ⟨found, moved⟩ := answer
  cases found with
  | false => exact blind_return _
  | true =>
    have hshort := length_lt_of_ensures hm hfound fun i => hlt moved _
    refine ih m'' hm hshort trivial bound fun i => ?_
    have hkinds := (g.length_kinds_lt_iff i hm).mpr hshort
    have hle := hbound i
    omega

theorem hash_blind (m : List (Option Kind)) : Blind g R (fun _ => hash) m := by
  refine Blind.checkpoint ((hashPair_blind hfirst m).tracked.bind fun answer m' _ _ => ?_)
  obtain ⟨found, moved⟩ := answer
  cases found with
  | false =>
    cases moved with
    | false => exact blind_return _
    | true => exact blind_return _
  | true => exact (hashPairs_blind hfirst m').bind fun _ _ _ _ => blind_return _

theorem trailingHash_blind (m : List (Option Kind)) : Blind g R (fun _ => trailingHash) m :=
  Blind.checkpoint ((hash_blind hfirst m).tracked.bind fun _ _ _ _ => blind_return _)

theorem arguments_blind (m : List (Option Kind)) : Blind g R (fun _ => arguments) m :=
  Blind.checkpoint ((params_blind hfirst m).unless fun m' _ _ =>
    (trailingHash_blind hfirst m').bind fun _ _ _ _ => blind_return _)

theorem leadingHash_blind (m : List (Option Kind)) : Blind g R (fun _ => leadingHash) m := by
  obtain ⟨b, hb⟩ := isKeyAhead_kinds (R := R) hfirst m
  refine blind_view ?_
  simp only [hb]
  exact Blind.checkpoint ((hash_blind hfirst m).tracked.bind fun _ _ _ _ => blind_return _)

theorem expression_blind (m : List (Option Kind)) : Blind g R (fun _ => expression) m := by
  refine Blind.checkpoint ((path_blind hfirst m).unless fun m' _ _ => ?_)
  refine (leadingHash_blind hfirst m').bind fun kept m'' _ _ => ?_
  cases kept with
  | false => exact (arguments_blind hfirst m'').bind fun _ _ _ _ => blind_return _
  | true => exact blind_return _

theorem partialPaths_blind (m : List (Option Kind)) : Blind g R (fun _ => partialPaths) m :=
  (path_blind hfirst m).unless fun m' _ _ =>
    (path_blind hfirst m').attempt.bind fun _ _ _ _ => blind_return _

end

/-- The search for a closing delimiter stops at the kinds of the recovery set. -/
theorem greedyLeaf_blind (hclose : g.first ≠ .close) (hinvalid : g.first ≠ .invalid)
    (hrecovery : R.contains g.first = true) (m : List (Option Kind)) :
    Blind g R (fun _ => greedyLeaf .close) m := by
  have hleaf : ∀ m, Blind g R (fun _ => leaf .close) m := fun m =>
    leaf_blind (by decide) hinvalid fun _ => hclose
  have hskip : ∀ m, Blind g R (fun _ => takeWhile (skips .close)) m := by
    intro m
    have hpasses : passes R .close g.first = false := by
      rw [passes, hrecovery, Bool.not_true, Bool.and_false]
    exact blind_takeWhile (fun k ks => by simp [skips, passes, View.ofList]) hpasses
  have hscope : ∀ m, Blind g R (fun _ => Script.checkpoint do
      let before ← left
      takeWhile (skips .close)
      if (← left) < before then return ((Problem.expected .close).closing, ())
      return (.splice, ())) m := by
    intro m
    refine Blind.checkpoint (blind_left ((hskip m).bind fun _ m' hm _ => blind_left ?_))
    simp only [g.length_kinds_lt_iff _ hm]
    split
    · exact blind_return _
    · exact blind_return _
  refine (hleaf m).bind fun found m' _ _ => ?_
  cases found with
  | true => exact blind_return true
  | false =>
    refine blind_current ?_
    split
    · exact (blind_complain _).bind fun _ m'' _ _ => (hscope m'').bind fun _ m₃ _ _ => hleaf m₃
    · exact hleaf m'

/-- What a script does before the first token of some kind, if it neither takes that
token nor looks behind it. -/
def Halts (p : Script Bool) (R : KindSet) (k : Kind) (ks : List Kind) : Prop :=
  ∃ found rest f, leavesAll f ++ rest = ks ∧
    ∀ later, p.outcome R (ks ++ k :: later) = ⟨found, rest ++ k :: later, f⟩

/-- A gap with anything behind its first token, and with a tree that has no tokens. -/
def bareGap (k : Kind) : Gap (List Kind) := ⟨k, id, fun _ => .node (.plain .error) []⟩

theorem kinds_bareGap (k : Kind) (ks later : List Kind) :
    (bareGap k).kinds later (ks.map some ++ [none]) = ks ++ k :: later := by
  simp [bareGap, Gap.kinds]

/-- A rule that is blind to all gaps that start with a token halts before such a token:
if it took the gap, the first token of the gap would be lost from its forest. -/
theorem halts_of_blind {p : Script Bool} {k : Kind}
    (h : ∀ (g : Gap (List Kind)) (m : List (Option Kind)), g.first = k → Blind g R (fun _ => p) m)
    (ks : List Kind) : Halts p R k ks := by
  obtain ⟨found, m', f, hm, houtcome⟩ := h (bareGap k) (ks.map some ++ [none]) rfl
  have hleaves := fun later => leavesAll_append_rest R p (ks ++ k :: later)
  simp only [kinds_bareGap] at houtcome
  simp only [houtcome] at hleaves
  rcases List.eq_nil_or_concat m' with rfl | ⟨before, x, rfl⟩
  · have hlost := congrArg List.length (hleaves [])
    rw [List.append_nil] at hm
    simp [leavesAll_plantAll, hm, Gap.kinds, bareGap, leaves, leavesAll, List.flatMap_append,
      List.flatMap_map] at hlost
  · rw [List.concat_eq_append] at hm houtcome hleaves
    rw [← List.append_assoc] at hm
    obtain ⟨hbefore, hx⟩ := List.append_inj' hm rfl
    obtain rfl : x = none := List.singleton_inj.mp hx
    obtain ⟨taken, rest, rfl, -, rfl⟩ := List.map_eq_append_iff.mp hbefore.symm
    simp only [kinds_bareGap] at houtcome hleaves
    refine ⟨found, rest, plantAll (.node (.plain .error) []) f, ?_, houtcome⟩
    have hlast := hleaves []
    rw [← List.append_assoc] at hlast
    exact (List.append_inj' hlast rfl).1

end Grammar

end TemplateTree
