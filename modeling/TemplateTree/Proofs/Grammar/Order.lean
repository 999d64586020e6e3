import TemplateTree.Proofs.Grammar.Stopping
import TemplateTree.Proofs.Grammar.Tags

/-!
# Where delimiters and content stand

The kinds at which recovery stops are those of opening delimiters and of content. A
forest is orderly if each opening delimiter starts a tag of its own and each piece of
content stands right below a sequence of statements. What is skipped on the way to a
closing delimiter has none of these kinds, so every rule leaves an orderly forest; the
only exception is the delimiter of an else tag that stands alone, which recovery puts
into an error of its own.
-/

namespace TemplateTree

open Rose

variable {R : KindSet} {ks : List Kind}

namespace Grammar

/-- The kinds at which recovery stops at least. -/
def isSync (k : Kind) : Bool := opensTag k || k = .content

theorem contains_syncPoints (k : Kind) : KindSet.syncPoints.contains k = isSync k := by
  cases k <;> rfl

/-- A node with this label starts with an opening delimiter of this kind. -/
def StartsWith (label : Label) (k : Kind) : Prop :=
  opensTag k = true ∧ (label = .plain (tagKind k) ∨ k = .openInverse ∧ label = .plain .elseTag)

theorem StartsWith.exists_plain {label : Label} {k : Kind} (h : StartsWith label k) :
    ∃ node, label = .plain node := by
  rcases h.2 with h | ⟨-, h⟩
  · exact ⟨_, h⟩
  · exact ⟨_, h⟩

end Grammar

namespace Rose

open Grammar

variable {τ : Type} {kindOf : τ → Kind}

/-- A piece of content right below a sequence of statements. -/
def IsFreeContent (kindOf : τ → Kind) (label : Label) (r : Rose τ) : Prop :=
  label = .plain .statements ∧ ∃ t, r = .token t ∧ kindOf t = .content

/-- Opening delimiters and content stand where they belong. -/
inductive Orderly (kindOf : τ → Kind) : Rose τ → Prop
  | token (t : τ) (ht : isSync (kindOf t) = false) : Orderly kindOf (.token t)
  | node (label : Label) (children : List (Rose τ))
      (h : ∀ r ∈ children, ¬ IsFreeContent kindOf label r → Orderly kindOf r) :
      Orderly kindOf (.node label children)
  | tag (label inside : Label) (t : τ) (others : List (Rose τ))
      (ht : StartsWith label (kindOf t)) (h : ∀ r ∈ others, Orderly kindOf r) :
      Orderly kindOf (.node label (.node inside [.token t] :: others))

theorem Orderly.failure {message : String} {f : List (Rose τ)} (hf : ∀ r ∈ f, Orderly kindOf r) :
    Orderly kindOf (.node (.failure message) f) :=
  .node _ f fun r hr _ => hf r hr

mutual

theorem orderly_of_leaves (r : Rose τ) (h : ∀ t ∈ r.leaves, isSync (kindOf t) = false) :
    Orderly kindOf r := by
  cases r with
  | token t => exact .token t (h t List.mem_cons_self)
  | node label children =>
    exact .node label children fun r hr _ => orderly_of_leavesAll children h r hr

/-- Where there are neither delimiters nor content, there is order. -/
theorem orderly_of_leavesAll (rs : List (Rose τ))
    (h : ∀ t ∈ leavesAll rs, isSync (kindOf t) = false) : ∀ r ∈ rs, Orderly kindOf r := by
  cases rs with
  | nil => simp
  | cons r rs =>
    have hr := orderly_of_leaves r fun t ht => h t (List.mem_append_left _ ht)
    have hrs := orderly_of_leavesAll rs fun t ht => h t (List.mem_append_right _ ht)
    exact List.forall_mem_cons.mpr ⟨hr, hrs⟩

end

end Rose

namespace Closing

/-- What a scope that is not a node leaves is in order if its contents are. -/
theorem orderly_wrap {f : List (Rose Kind)} (hf : ∀ r ∈ f, Orderly id r) (c : Closing) :
    ∀ r ∈ c.wrap f, Orderly id r := by
  cases c with
  | node kind => exact List.forall_mem_singleton.mpr (.node _ f fun r hr _ => hf r hr)
  | error message => exact List.forall_mem_singleton.mpr (.failure hf)
  | splice => exact hf
  | undo => simp [wrap]

end Closing

namespace Script

variable {α β : Type} {C : Rose Kind → Prop}

/-- Every tree that the script leaves satisfies the condition. -/
def Grows (C : Rose Kind → Prop) (p : Script α) (R : KindSet) (ks : List Kind) : Prop :=
  p.Ensures R ks fun _ _ f => ∀ r ∈ f, C r

theorem grows_return (a : α) : Grows C (return a) R ks := ensures_pure.mpr (by simp)

theorem grows_cumulative (C : Rose Kind → Prop) : Cumulative fun f => ∀ r ∈ f, C r :=
  ⟨List.forall_mem_nil C, fun _ _ hf hg => List.forall_mem_append.mpr ⟨hf, hg⟩⟩

theorem Grows.bind {p : Script α} {next : α → Script β} (hp : Grows C p R ks)
    (hnext : ∀ a ks, Grows C (next a) R ks) : Grows C (p >>= next) R ks :=
  (grows_cumulative C).ensures_bind hp hnext

theorem Grows.many {rule : Script Bool} (h : ∀ ks, Grows C rule R ks) (ks : List Kind) :
    Grows C (Script.many rule) R ks :=
  ensures_many (grows_cumulative C).nil (grows_cumulative C).append
    fun ks => Ensures.mono (h ks) fun _ _ _ hf _ => hf

end Script

namespace Rose

/-- The delimiter of an else tag in an error of its own, right before a closing delimiter. -/
def IsStray (r : Rose Kind) (later : List Kind) : Prop :=
  r = .node (.failure Grammar.Problem.invalidToken.message) [.token .openInverse] ∧
    later.headD .endOfInput = .close

/-- What programs and recovery leave in turn, with the given kinds behind it. -/
def Resumed : List (Rose Kind) → List Kind → Prop
  | [], _ => True
  | r :: rs, later => (Orderly id r ∨ IsStray r (leavesAll rs ++ later)) ∧ Resumed rs later

theorem Resumed.of_orderly {f : List (Rose Kind)} (hf : ∀ r ∈ f, Orderly id r)
    (later : List Kind) : Resumed f later := by
  induction f with
  | nil => trivial
  | cons r rs ih =>
    obtain ⟨hr, hrs⟩ := List.forall_mem_cons.mp hf
    exact ⟨.inl hr, ih hrs⟩

theorem Resumed.append {f g : List (Rose Kind)} {later : List Kind}
    (hf : Resumed f (leavesAll g ++ later)) (hg : Resumed g later) : Resumed (f ++ g) later := by
  induction f with
  | nil => exact hg
  | cons r rs ih =>
    obtain ⟨hr, hrs⟩ := hf
    rw [← List.append_assoc, ← leavesAll_append] at hr
    exact ⟨hr, ih hrs⟩

end Rose

namespace Script

variable {α β : Type}

/-- What the script leaves is in order, given what it leaves to read. -/
def Resumes (p : Script α) (R : KindSet) (ks : List Kind) : Prop :=
  p.Ensures R ks fun _ rest f => Resumed f rest

theorem resumes_return (a : α) : Resumes (return a) R ks := ensures_pure.mpr trivial

theorem Grows.resumes {p : Script α} (h : Grows (Orderly id) p R ks) : Resumes p R ks :=
  Ensures.mono h fun _ rest _ hf => Resumed.of_orderly hf rest

theorem Resumes.bind {p : Script α} {next : α → Script β} {Q : List Kind → Prop}
    (hp : Resumes p R ks) (hQ : p.Ensures R ks fun _ rest _ => Q rest)
    (hnext : ∀ a ks, Q ks → Resumes (next a) R ks) : Resumes (p >>= next) R ks := by
  rw [Resumes, ensures_bind]
  apply (Ensures.and hp hQ).mono
  rintro a rest f ⟨hf, hrest⟩
  rw [← leavesAll_append_rest R (next a) rest] at hf
  exact ensures_iff.mpr (hf.append (ensures_iff.mp (hnext a rest hrest)))

end Script

namespace Grammar

open Script

/-- The script takes neither opening delimiters nor content. -/
def Spares (p : Script Bool) (R : KindSet) (ks : List Kind) : Prop :=
  p.Ensures R ks fun _ _ f => ∀ k ∈ leavesAll f, isSync k = false

/-- What halts at every delimiter and at content takes none of them. -/
theorem spares_of_halts {p : Script Bool} (h : ∀ k, isSync k = true → ∀ ks, Halts p R k ks)
    (ks : List Kind) : Spares p R ks := by
  have htaken := leavesAll_append_rest R p ks
  refine ensures_iff.mpr fun k hk => ?_
  cases hfind : ks.find? isSync with
  | none =>
    have hmem : k ∈ ks := by
      rw [← htaken]
      exact List.mem_append_left _ hk
    simpa using List.find?_eq_none.mp hfind k hmem
  | some k' =>
    obtain ⟨hk', before, later, rfl, hbefore⟩ := List.find?_eq_some_iff_append.mp hfind
    obtain ⟨found, rest, f, hf, houtcome⟩ := h k' hk' before
    rw [houtcome later] at hk
    have hmem : k ∈ before := by
      rw [← hf]
      exact List.mem_append_left _ hk
    simpa using hbefore k hmem

theorem isInner_of_isSync {k : Kind} (hk : isSync k = true) : isInner k = false := by
  cases k <;> first | rfl | cases hk

theorem tagInside_spares (opening : Kind) (ks : List Kind) : Spares (tagInside opening) R ks :=
  spares_of_halts (fun _ hk => tagInside_halts (isInner_of_isSync hk) opening) ks

theorem elseTag_orders (ks : List Kind) : Grows (Orderly id) elseTag R ks := by
  by_cases hhead : ks.headD .endOfInput = .openInverse
  · obtain ⟨rest, rfl⟩ := exists_eq_cons_of_headD hhead (by decide)
    by_cases hclose : rest.headD .endOfInput = .close
    · obtain ⟨rest, rfl⟩ := exists_eq_cons_of_headD hclose (by decide)
      rw [Grows, ensures_of_eq elseTag_outcome]
      have hothers : ∀ r ∈ [Derivation.leaf .close], Orderly id r :=
        orderly_of_leavesAll _ (by simp [leavesAll, leaves, Derivation.leaf, isSync, opensTag])
      have hstarts : StartsWith (.plain .elseTag) .openInverse := ⟨rfl, .inr ⟨rfl, rfl⟩⟩
      exact List.forall_mem_singleton.mpr (.tag _ (.plain .openInverse) _ _ hstarts hothers)
    · rw [Grows, ensures_of_eq (elseTag_outcome_of_ne_close hclose)]
      simp
  · rw [Grows, ensures_of_eq (elseTag_outcome_of_ne hhead)]
    simp

section

variable (hR : ∀ k, isSync k = true → R.contains k = true)

include hR

theorem greedyLeaf_spares (ks : List Kind) : Spares (greedyLeaf .close) R ks := by
  refine spares_of_halts (fun k hk => halts_of_blind fun g m hfirst => ?_) ks
  subst hfirst
  refine greedyLeaf_blind ?_ ?_ (hR _ hk) m
  · rintro he
    rw [he] at hk
    cases hk
  · rintro he
    rw [he] at hk
    cases hk

/-- Where its delimiter is there, a tag starts with it, and nothing else in the tag is a
delimiter or content. -/
theorem tagAt_orders {k : Kind} (hk : opensTag k = true) (ks : List Kind) :
    Grows (Orderly id) (tagAt k) R ks := by
  have hend : k ≠ .endOfInput := by
    rintro rfl
    cases hk
  rw [Grows, tagAt, tag, ensures_checkpoint, ensures_bind]
  rcases leaf_cases (R := R) k hend ks with ⟨rest, rfl, h⟩ | ⟨-, h⟩
  · rw [ensures_of_eq h, ensures_unless_true, ensures_bind]
    apply Ensures.mono (tagInside_spares k rest)
    intro _ rest' f hf
    rw [ensures_bind]
    apply Ensures.mono (greedyLeaf_spares hR rest')
    intro _ _ g hg
    have hothers : ∀ r ∈ f ++ g, Orderly id r := by
      refine orderly_of_leavesAll (f ++ g) fun k' hk' => ?_
      rw [leavesAll_append] at hk'
      rcases List.mem_append.mp hk' with hk' | hk'
      · exact hf k' hk'
      · exact hg k' hk'
    rw [ensures_pure, List.append_nil]
    exact List.forall_mem_singleton.mpr (.tag _ _ k (f ++ g) ⟨hk, .inl rfl⟩ hothers)
  · rw [ensures_of_eq h, ensures_unless_false, ensures_pure, List.append_nil]
    refine Closing.orderly_wrap (orderly_of_leavesAll _ fun k' hk' => ?_) _
    rw [leavesAll, leaves, leavesAll_map_token, leavesAll, List.append_nil] at hk'
    have hinvalid := List.all_eq_true.mp List.all_takeWhile k' hk'
    rw [of_decide_eq_true hinvalid]
    rfl

theorem block_orders {opening : Script Bool} (hopening : Grows (Orderly id) opening R ks)
    (malformed : Problem) {inner : Script Unit} (hinner : ∀ ks, Grows (Orderly id) inner R ks) :
    Grows (Orderly id) (block opening malformed inner) R ks := by
  rw [Grows, block, ensures_checkpoint]
  have hbody : Grows (Orderly id) (do
      if !(← opening) then return (malformed.closing, false)
      inner
      let _ ← endTag
      return (.splice, true)) R ks := by
    refine hopening.bind fun found ks => ?_
    cases found with
    | false => exact grows_return _
    | true => exact (hinner ks).bind fun _ ks =>
        (tagAt_orders hR (k := .openEnd) rfl ks).bind fun _ _ => grows_return _
  exact Ensures.mono hbody fun c _ _ hf => c.1.orderly_wrap hf

/-- The trees of a statement stand below a sequence of statements. -/
theorem statementOver_orders {inner : Script Unit}
    (hinner : ∀ ks, Grows (Orderly id) inner R ks) (ks : List Kind) :
    Grows (fun r => ¬ IsFreeContent id (.plain .statements) r → Orderly id r)
      (statementOver inner) R ks := by
  have horderly : ∀ {rule : Script Bool} {ks}, Grows (Orderly id) rule R ks →
      Grows (fun r => ¬ IsFreeContent id (.plain .statements) r → Orderly id r) rule R ks :=
    fun h => Ensures.mono h fun _ _ _ hf r hr _ => hf r hr
  have hblock : ∀ k malformed ks, opensTag k = true →
      Grows (fun r => ¬ IsFreeContent id (.plain .statements) r → Orderly id r)
        (block (tagAt k) malformed inner) R ks :=
    fun k malformed ks hk => horderly (block_orders hR (tagAt_orders hR hk ks) malformed hinner)
  have hmustache : ∀ k ks, k = .openValue ∨ k = .openRaw →
      Grows (Orderly id) mustache R (k :: ks) := by
    intro k ks hk
    rw [Grows, ensures_iff, mustache_outcome_eq hk]
    refine ensures_iff.mp (tagAt_orders hR ?_ _)
    rcases hk with rfl | rfl <;> rfl
  rw [Grows, statementOver, ensures_bind, ensures_current]
  simp only [List.nil_append]
  cases ks with
  | nil => exact grows_return false
  | cons k ks =>
    rw [List.headD_cons]
    cases k with
    | openInverse =>
      rw [ensures_bind, ensures_lookahead]
      apply (ensures_length_rest_le elseTag).mono
      intro found _ _ _
      cases found with
      | false => exact hblock .openInverse .malformedInverse _ rfl
      | true => exact grows_return false
    | openBlock => exact hblock .openBlock .malformedBlock _ rfl
    | openValue => exact horderly (hmustache _ ks (.inl rfl))
    | openRaw => exact horderly (hmustache _ ks (.inr rfl))
    | openPartial => exact horderly (tagAt_orders hR (k := .openPartial) rfl _)
    | content => simp [IsFreeContent]
    | comment =>
      refine horderly ?_
      have hcomment : ∀ r ∈ [Rose.token Kind.comment], Orderly id r :=
        orderly_of_leavesAll _ (by simp [leavesAll, leaves, isSync, opensTag])
      rw [Grows, commentNode, ensures_checkpoint, ensures_bind, ensures_take_cons, ensures_pure]
      exact Closing.orderly_wrap hcomment _
    | _ => exact grows_return false

theorem statementsOver_orders {inner : Script Unit}
    (hinner : ∀ ks, Grows (Orderly id) inner R ks) (ks : List Kind) :
    Grows (Orderly id) (statementsOver inner) R ks := by
  have hstatement := fun ks => statementOver_orders hR hinner ks
  rw [Grows, statementsOver, ensures_checkpoint, ensures_bind]
  apply (Ensures.and (hstatement ks) (statementOver_found inner ks)).mono
  rintro found rest f ⟨hf, -, hnone⟩
  cases found with
  | false =>
    obtain ⟨rfl, rfl⟩ := hnone rfl
    rw [ensures_unless_false, ensures_pure, List.append_nil]
    exact Closing.orderly_wrap (by simp) _
  | true =>
    rw [ensures_unless_true, ensures_bind]
    apply Ensures.mono (Grows.many hstatement rest)
    intro _ _ g hg
    rw [ensures_pure, List.append_nil]
    have hall : Orderly id (.node (.plain .statements) (f ++ g)) := by
      refine .node _ _ fun r hr => ?_
      rcases List.mem_append.mp hr with hr | hr
      · exact hf r hr
      · exact hg r hr
    exact List.forall_mem_singleton.mpr hall

/-- Programs by induction on how deep blocks may lie in them. -/
theorem programUpTo_orders (depth : Nat) (ks : List Kind) :
    Grows (Orderly id) (programUpTo depth) R ks := by
  induction depth generalizing ks with
  | zero => exact grows_return ()
  | succ depth ih =>
    have hstatements := fun ks => statementsOver_orders hR ih ks
    rw [Grows, programUpTo, ensures_bind, ensures_left]
    split
    · exact grows_return ()
    · refine Grows.bind ?_ fun found ks => ?_
      · rw [Grows, ensures_checkpoint, ensures_bind, ensures_tracked]
        apply Ensures.mono (hstatements ks)
        intro _ _ f hf
        rw [ensures_pure, List.append_nil]
        exact Closing.orderly_wrap hf _
      · cases found with
        | false => exact grows_return ()
        | true =>
          refine (elseTag_orders ks).bind fun found ks => ?_
          cases found with
          | false => exact grows_return ()
          | true => exact (hstatements ks).bind fun _ _ => grows_return ()

theorem program_orders (ks : List Kind) : Grows (Orderly id) Grammar.program R ks := by
  rw [Grows, Grammar.program, ensures_bind, ensures_left]
  exact programUpTo_orders hR _ ks

/-- Where no statement starts, recovery takes a whole end tag, the delimiter of an else
tag, or else a token that is neither a delimiter nor content. -/
theorem recover_resumes (k : Kind) (hstop : startsStatement (k :: ks) = false) :
    Resumes recover R (k :: ks) := by
  rw [Resumes, recover, ensures_bind, ensures_left, ensures_bind, ensures_current,
    List.headD_cons]
  simp only [List.nil_append]
  by_cases hk : k = .openEnd
  · subst hk
    rw [if_pos rfl, ensures_bind, ensures_checkpoint, ensures_bind]
    have htag : Grows (Orderly id) endTag R (.openEnd :: ks) :=
      tagAt_orders hR (k := .openEnd) rfl _
    apply (Ensures.and htag (tag_succeeds .openEnd .endTag path ks)).mono
    rintro _ rest f ⟨hf, -, hle⟩
    have hne : rest.length ≠ (Kind.openEnd :: ks).length := by
      rw [List.length_cons]
      omega
    simp only [ensures_pure, Problem.closing, reduceCtorEq, if_false, ensures_bind, ensures_left,
      hne, Closing.wrap, List.append_nil]
    exact Resumed.of_orderly (List.forall_mem_singleton.mpr (.failure hf)) rest
  · rw [if_neg hk]
    simp only [ensures_bind, ensures_left, if_true, ensures_checkpoint, ensures_take_cons,
      ensures_pure, Problem.closing, reduceCtorEq, if_false, Closing.wrap, List.append_nil,
      List.nil_append]
    by_cases hinverse : k = .openInverse
    · subst hinverse
      exact ⟨.inr ⟨rfl, not_not.mp (of_decide_eq_false hstop)⟩, trivial⟩
    · have hsync : isSync k = false := by
        cases k <;> first | rfl | exact absurd rfl hk | exact absurd rfl hinverse | cases hstop
      exact ⟨.inl (.failure (List.forall_mem_singleton.mpr (.token k hsync))), trivial⟩

theorem resumeUpTo_resumes (bound : Nat) (ks : List Kind) (hstop : startsStatement ks = false) :
    Resumes (resumeUpTo bound) R ks := by
  induction bound generalizing ks with
  | zero => exact resumes_return ()
  | succ bound ih =>
    rw [Resumes, resumeUpTo, ensures_bind, ensures_left]
    cases ks with
    | nil => exact resumes_return ()
    | cons k ks =>
      rw [if_neg (by simp)]
      refine Resumes.bind (Q := fun _ => True) (recover_resumes hR k hstop) ?_ fun _ rest _ => ?_
      · exact Ensures.mono (ensures_length_rest_le recover) fun _ _ _ _ => trivial
      · exact Resumes.bind (program_orders hR rest).resumes (program_stops rest) fun _ ks hks =>
          ih ks hks

/-- In a template delimiters and content stand where they belong. -/
theorem template_orders (root : Kind) (ks : List Kind) :
    (template root).Ensures R ks fun _ _ f =>
      ∃ trees, f = [.node (.plain root) trees] ∧ Resumed trees [] := by
  rw [template, ensures_checkpoint, ensures_bind]
  apply (Ensures.and (program_orders hR ks) (program_stops ks)).mono
  rintro _ rest f ⟨hf, hstop⟩
  rw [ensures_bind, ensures_left, ensures_bind]
  apply (Ensures.and (resumeUpTo_resumes hR _ rest hstop)
    (resumeUpTo_shaped _ rest (Nat.le_refl _))).mono
  rintro _ rest' g ⟨hg, rfl, -⟩
  exact ensures_pure.mpr ⟨f ++ g, by simp [Closing.wrap], (Resumed.of_orderly hf _).append hg⟩

end

end Grammar

end TemplateTree
