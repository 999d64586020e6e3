import TemplateTree.Proofs.Grammar.Stopping
import TemplateTree.Proofs.Grammar.Tags

/-!
# Templates do not see into tags

A gap that is filled with whole tags of one kind is read in one piece wherever a rule
comes to it: no rule before it takes its first token or looks behind that, the rule
that starts there reads a tag, and what follows starts behind the tag. So all rules
for statements are blind to such gaps, and a whole template is.
-/

namespace TemplateTree

open Rose

variable {ι : Type} {g : Gap ι} {R : KindSet} {ks : List Kind} {m : List (Option Kind)}

namespace Grammar

open Script

/-- Each of the fillings is a tag, whatever comes behind it, and none can be taken for
an else tag. -/
structure ReadsTags (g : Gap ι) (R : KindSet) : Prop where
  opening : opensTag g.first = true
  recovery : R.contains g.first = true
  reads : ∀ i later, (tagAt g.first).outcome R (g.first :: (g.others i ++ later)) =
    ⟨true, later, [g.tree i]⟩
  proper : g.first = .openInverse → ∀ i later, (g.others i ++ later).headD .endOfInput ≠ .close

theorem blind_take {k : Kind} (hk : opensTag k = false) (hopening : opensTag g.first = true)
    (h : g.head m = k) (hend : k ≠ .endOfInput) : Blind g R (fun _ => take) m := by
  match m with
  | [] => exact absurd h.symm hend
  | none :: m =>
    obtain rfl : g.first = k := h
    exact absurd (hk.symm.trans hopening) Bool.false_ne_true
  | some k' :: m => exact ⟨(), m, [.token (some k')], rfl, fun _ => rfl⟩

section

variable (hg : ReadsTags g R)

include hg

theorem ReadsTags.first_ne {k : Kind} (hk : opensTag k = false) : g.first ≠ k := by
  rintro rfl
  exact Bool.false_ne_true (hk.symm.trans hg.opening)

theorem closing_blind (m : List (Option Kind)) : Blind g R (fun _ => greedyLeaf .close) m :=
  greedyLeaf_blind (hg.first_ne rfl) (hg.first_ne rfl) hg.recovery m

theorem tagAt_blind [Nonempty ι] {k : Kind} (hk : k ≠ .endOfInput) (m : List (Option Kind)) :
    Blind g R (fun _ => tagAt k) m := by
  by_cases hgap : m.head? = some none ∧ g.first = k
  · obtain ⟨hhead, rfl⟩ := hgap
    obtain ⟨m, rfl⟩ := List.head?_eq_some_iff.mp hhead
    exact ⟨true, m, [.token none], rfl, fun i => hg.reads i (g.kinds i m)⟩
  · refine Blind.checkpoint ((leaf_blind hk (hg.first_ne rfl) fun hhead hfirst =>
      hgap ⟨hhead, hfirst⟩).unless fun m' _ _ => ?_)
    refine (tagInside_blind (isInner_of_opensTag hg.opening) k m').bind fun _ m'' _ _ => ?_
    exact (closing_blind hg m'').bind fun _ _ _ _ => blind_return _

theorem elseTag_blind (m : List (Option Kind)) : Blind g R (fun _ => elseTag) m := by
  by_cases hgap : m.head? = some none ∧ g.first = .openInverse
  · obtain ⟨hhead, hfirst⟩ := hgap
    obtain ⟨m, rfl⟩ := List.head?_eq_some_iff.mp hhead
    refine ⟨false, none :: m, [], rfl, fun i => ?_⟩
    rw [Gap.kinds, hfirst]
    exact elseTag_outcome_of_ne_close (hg.proper hfirst i _)
  · refine Blind.checkpoint ((leaf_blind (by decide) (hg.first_ne rfl) fun hhead hfirst =>
      hgap ⟨hhead, hfirst⟩).unless fun m' _ _ => ?_)
    exact (leaf_blind (by decide) (hg.first_ne rfl) fun _ => hg.first_ne rfl).unless
      fun _ _ _ => blind_return _

variable [Nonempty ι]

theorem mustache_blind {k : Kind} (hk : k = .openValue ∨ k = .openRaw) (hhead : g.head m = k) :
    Blind g R (fun _ => mustache) m := by
  have hne : k ≠ .endOfInput := by
    rcases hk with rfl | rfl <;> decide
  obtain ⟨found, m', f, hm, htag⟩ := tagAt_blind hg hne m
  refine ⟨found, m', f, hm, fun i => ?_⟩
  rw [← htag i]
  obtain ⟨ks, hks⟩ := g.exists_kinds_eq_cons i hhead hne
  rw [hks]
  exact mustache_outcome_eq hk ks

theorem block_blind {opening : Script Bool} (malformed : Problem) {inner : ι → Script Unit}
    (hopening : Blind g R (fun _ => opening) m) (hadvances : ∀ ks, Advances opening R ks)
    (hinner : ∀ m', m' <:+ m → m'.length < m.length → Blind g R inner m') :
    Blind g R (fun i => block opening malformed (inner i)) m := by
  refine Blind.checkpoint (hopening.unless fun m' hm hfound => ?_)
  have hlt := length_lt_of_ensures hm hfound fun _ => hadvances _
  refine (hinner m' hm hlt).bind fun _ m'' _ _ => ?_
  exact (tagAt_blind hg (k := .openEnd) (by decide) m'').bind fun _ _ _ _ => blind_return _

theorem statementOver_blind {inner : ι → Script Unit} (m : List (Option Kind))
    (hinner : ∀ m', m' <:+ m → m'.length < m.length → Blind g R inner m') :
    Blind g R (fun i => statementOver (inner i)) m := by
  have hblock : ∀ k malformed, k ≠ .endOfInput → ∀ m', m' <:+ m →
      Blind g R (fun i => block (tagAt k) malformed (inner i)) m' := by
    intro k malformed hk m' hm
    refine block_blind hg malformed (tagAt_blind hg hk m') (tag_advances hk _ _)
      fun m'' hm' hlt => hinner m'' (hm'.trans hm) ?_
    have hle := hm.length_le
    omega
  refine blind_current ?_
  generalize hhead : g.head m = k
  cases k with
  | openInverse =>
    refine (elseTag_blind hg m).lookahead.bind fun found m' hm _ => ?_
    cases found with
    | true => exact blind_return false
    | false => exact hblock .openInverse .malformedInverse (by decide) m' hm
  | openBlock => exact hblock .openBlock .malformedBlock (by decide) m (List.suffix_refl m)
  | openValue => exact mustache_blind hg (.inl rfl) hhead
  | openRaw => exact mustache_blind hg (.inr rfl) hhead
  | openPartial => exact tagAt_blind hg (k := .openPartial) (by decide) m
  | content =>
    exact (blind_take rfl hg.opening hhead (by decide)).bind fun _ _ _ _ => blind_return _
  | comment =>
    exact Blind.checkpoint ((blind_take rfl hg.opening hhead (by decide)).bind
      fun _ _ _ _ => blind_return _)
  | _ => exact blind_return _

theorem statementsOver_blind {inner : ι → Script Unit} (m : List (Option Kind))
    (hinner : ∀ m', m' <:+ m → m'.length < m.length → Blind g R inner m') :
    Blind g R (fun i => statementsOver (inner i)) m := by
  have hstatement : ∀ m', m' <:+ m → Blind g R (fun i => statementOver (inner i)) m' := by
    intro m' hm
    refine statementOver_blind hg m' fun m'' hm' hlt => hinner m'' (hm'.trans hm) ?_
    have hle := hm.length_le
    omega
  refine Blind.checkpoint ((hstatement m (List.suffix_refl m)).unless fun m' hm _ => ?_)
  exact (Blind.many (fun m'' hm' => hstatement m'' (hm'.trans hm))
    fun i => statementOver_advances (inner i)).bind fun _ _ _ _ => blind_return _

/-- One level of a program, given that the programs inside blocks are read blindly. -/
theorem programOver_blind {inner : ι → Script Unit} (m : List (Option Kind))
    (hinner : ∀ m', m' <:+ m → m'.length < m.length → Blind g R inner m') :
    Blind g R (fun i => programOver (inner i)) m := by
  have hstatements : ∀ m', m' <:+ m → Blind g R (fun i => statementsOver (inner i)) m' := by
    intro m' hm
    refine statementsOver_blind hg m' fun m'' hm' hlt => hinner m'' (hm'.trans hm) ?_
    have hle := hm.length_le
    omega
  refine blind_left ?_
  by_cases hm : m = []
  · subst hm
    exact blind_return ()
  · simp only [g.length_kinds_ne_zero hm, if_false]
    refine Blind.bind (Blind.checkpoint ((hstatements m (List.suffix_refl m)).tracked.bind
      fun _ _ _ _ => blind_return _)) fun found m' hm' _ => ?_
    cases found with
    | false => exact blind_return ()
    | true =>
      refine (elseTag_blind hg m').bind fun found m'' hm'' _ => ?_
      cases found with
      | false => exact blind_return ()
      | true => exact (hstatements m'' (hm''.trans hm')).bind fun _ _ _ _ => blind_return ()

/-- Programs by counting down how deep blocks may lie in them: there is less left inside
a block. -/
theorem programUpTo_blind (m : List (Option Kind)) (depth : ι → Nat)
    (hdepth : ∀ i, (g.kinds i m).length ≤ depth i) :
    Blind g R (fun i => programUpTo (depth i)) m := by
  refine Blind.countdown (a := ()) (P := fun _ => True) (fun _ bound => ?_)
    (fun m' _ _ ih bound hbound => ?_) trivial depth hdepth
  · cases bound with
    | zero => rfl
    | succ bound => rfl
  · refine programOver_blind hg m' fun m'' hm hlt => ih m'' hm hlt trivial bound fun i => ?_
    have hshort := (g.length_kinds_lt_iff i hm).mpr hlt
    have hle := hbound i
    omega

theorem program_blind (m : List (Option Kind)) : Blind g R (fun _ => Grammar.program) m :=
  blind_left (programUpTo_blind hg m _ fun _ => Nat.le_refl _)

/-- Where no statement starts but a tag does, the tag is an end tag. -/
theorem first_eq_openEnd (hstop : ∀ i, startsStatement (g.kinds i (none :: m)) = false) :
    g.first = .openEnd := by
  obtain ⟨i⟩ := ‹Nonempty ι›
  have hstop := hstop i
  have hopening := hg.opening
  have hproper := hg.proper
  rw [Gap.kinds] at hstop
  generalize g.first = k at hstop hopening hproper
  cases k with
  | openEnd => rfl
  | openInverse => exact absurd (of_decide_eq_false hstop) (not_not_intro (hproper rfl i _))
  | openValue => cases hstop
  | openRaw => cases hstop
  | openPartial => cases hstop
  | openBlock => cases hstop
  | _ => cases hopening

/-- Where no statement starts, recovery takes a whole tag or a token that starts none. -/
theorem recover_blind (hm : m ≠ []) (hstop : ∀ i, startsStatement (g.kinds i m) = false) :
    Blind g R (fun _ => recover) m := by
  refine blind_left (blind_current ?_)
  by_cases hend : g.head m = .openEnd
  · have htag : ∀ m, Blind g R (fun _ => endTag) m := tagAt_blind hg (k := .openEnd) (by decide)
    have hscope : Blind g R (fun _ => Script.checkpoint do
        let _ ← endTag
        return (Problem.strayEnd.closing, ())) m :=
      Blind.checkpoint ((htag m).bind fun _ _ _ _ => blind_return _)
    have htaken : ∀ i, (Script.checkpoint do
        let _ ← endTag
        return (Problem.strayEnd.closing, ())).Ensures R (g.kinds i m) fun _ rest _ =>
          rest.length < (g.kinds i m).length := by
      intro i
      obtain ⟨ks, hks⟩ := g.exists_kinds_eq_cons i hend (by decide)
      rw [hks, ensures_checkpoint, ensures_bind]
      apply (tag_succeeds .openEnd .endTag path ks).mono
      rintro _ rest _ ⟨-, hle⟩
      rw [ensures_pure, if_neg (by simp [Problem.closing]), List.length_cons]
      omega
    simp only [if_pos hend]
    refine hscope.bind fun _ m' hm' hfound => blind_left ?_
    have hlt := length_lt_of_ensures hm' hfound fun i => (htaken i).mono fun _ _ _ h _ => h
    have hne : ∀ i, (g.kinds i m').length ≠ (g.kinds i m).length := fun i =>
      Nat.ne_of_lt ((g.length_kinds_lt_iff i hm').mpr hlt)
    simp only [hne, if_false]
    exact blind_return ()
  · simp only [if_neg hend]
    refine blind_left ?_
    simp only [if_true]
    refine Blind.checkpoint (Blind.bind ?_ fun _ _ _ _ => blind_return _)
    cases m with
    | nil => exact absurd rfl hm
    | cons x m =>
      cases x with
      | none => exact absurd (first_eq_openEnd hg hstop) hend
      | some k => exact ⟨(), m, [.token (some k)], rfl, fun _ => rfl⟩

theorem resumeUpTo_blind (m : List (Option Kind)) (bound : ι → Nat)
    (hstop : ∀ i, startsStatement (g.kinds i m) = false)
    (hbound : ∀ i, (g.kinds i m).length ≤ bound i) :
    Blind g R (fun i => resumeUpTo (bound i)) m := by
  refine Blind.countdown (a := ()) (P := fun m => ∀ i, startsStatement (g.kinds i m) = false)
    (fun _ bound => ?_) (fun m _ hstop ih bound hbound => blind_left ?_) hstop bound hbound
  · cases bound with
    | zero => rfl
    | succ bound => rfl
  · by_cases hm : m = []
    · subst hm
      exact blind_return ()
    · simp only [g.length_kinds_ne_zero hm, if_false]
      have htaken : ∀ i, recover.Ensures R (g.kinds i m) fun _ rest _ =>
          rest.length < (g.kinds i m).length := by
        intro i
        cases hks : g.kinds i m with
        | nil => exact absurd (congrArg List.length hks) (g.length_kinds_ne_zero hm i)
        | cons k ks => exact (recover_shaped k ks).mono fun _ _ _ h => Nat.lt_succ_of_le h.2
      refine (recover_blind hg hm hstop).bind fun _ m' hm' hfound => ?_
      have hlt := length_lt_of_ensures hm' hfound fun i => (htaken i).mono fun _ _ _ h _ => h
      refine (program_blind hg m').bind fun _ m'' hm'' hprogram => ?_
      have hle := hm''.length_le
      refine ih m'' (hm''.trans hm') (by omega) (fun i => ?_) bound fun i => ?_
      · have hrest := ensures_iff.mp ((hprogram i).and (program_stops (g.kinds i m')))
        rw [← hrest.1.2]
        exact hrest.2
      · have hshort := (g.length_kinds_lt_iff i (hm''.trans hm')).mpr (by omega)
        have hle' := hbound i
        omega

/-- A template is the same whatever tags fill the gaps, up to the trees of these tags. -/
theorem template_blind (root : Kind) (m : List (Option Kind)) :
    Blind g R (fun _ => template root) m := by
  refine Blind.checkpoint ((program_blind hg m).bind fun _ m' _ hprogram => blind_left ?_)
  refine Blind.bind (resumeUpTo_blind hg m' _ (fun i => ?_) fun _ => Nat.le_refl _)
    fun _ _ _ _ => blind_return _
  have hrest := ensures_iff.mp ((hprogram i).and (program_stops (g.kinds i m)))
  rw [← hrest.1.2]
  exact hrest.2

end

end Grammar

end TemplateTree
