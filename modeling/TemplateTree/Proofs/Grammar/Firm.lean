import TemplateTree.Proofs.Grammar.TemplateShape
import TemplateTree.Proofs.Rose.Placing

/-!
# No node begins with an empty error

A rule that succeeds leaves a tree with a token first, since the first part of it
is there. A rule that fails wraps what it has taken, which either begins with such
a part or is empty altogether. So the forest of a template is firm, whatever the
tokens are. The one rule that may begin with an empty error, a mustache without
its opening delimiter, is not read anywhere in a template.
-/

namespace TemplateTree

open Rose

variable {R : KindSet} {ks : List Kind}

namespace Rose

theorem leads_map_token {τ : Type} (ts : List τ) : Leads (ts.map .token) := by
  cases ts with
  | nil => exact .nil
  | cons t ts => exact .inr (by simp [Opens, leaves])

end Rose

namespace Closing

variable {τ : Type} {f : List (Rose τ)}

theorem firmAll_wrap (hf : FirmAll f) (hl : Leads f) (c : Closing) : FirmAll (c.wrap f) := by
  cases c with
  | node kind => exact ⟨⟨hl, hf⟩, trivial⟩
  | error message => exact ⟨⟨hl, hf⟩, trivial⟩
  | splice => exact hf
  | undo => trivial

/-- Trees that are kept loose or undone are as firm as they were. -/
theorem firmAll_wrap_of_loose (hf : FirmAll f) {c : Closing} (hc : c = .splice ∨ c = .undo) :
    FirmAll (c.wrap f) := by
  rcases hc with rfl | rfl
  · exact hf
  · trivial

theorem leads_wrap (hl : Leads f) (c : Closing) : Leads (c.wrap f) := by
  cases c with
  | node kind => exact .singleton _
  | error message => exact .singleton _
  | splice => exact hl
  | undo => exact .nil

theorem opens_wrap (ho : Opens f) {c : Closing} (hc : c ≠ .undo) : Opens (c.wrap f) := by
  cases c with
  | node kind => exact ho.leavesAll_ne
  | error message => exact ho.leavesAll_ne
  | splice => exact ho
  | undo => exact absurd rfl hc

end Closing

namespace Script

variable {α β : Type}

/-- The script leaves firm trees. -/
def Firms (p : Script α) (R : KindSet) (ks : List Kind) : Prop :=
  p.Ensures R ks fun _ _ f => FirmAll f

theorem firmAll_cumulative : Cumulative (@FirmAll Kind) :=
  ⟨trivial, fun _ _ hf hg => firmAll_append.mpr ⟨hf, hg⟩⟩

theorem Firms.bind {p : Script α} {next : α → Script β} (hp : Firms p R ks)
    (hnext : ∀ a ks, Firms (next a) R ks) : Firms (p >>= next) R ks :=
  firmAll_cumulative.ensures_bind hp hnext

theorem firms_return (a : α) : Firms (return a) R ks := ensures_pure.mpr trivial

theorem firms_view : Firms view R ks := ensures_view.mpr trivial

theorem firms_current : Firms current R ks := ensures_current.mpr trivial

theorem firms_left : Firms left R ks := ensures_left.mpr trivial

theorem firms_complain (message : String) : Firms (complain message) R ks :=
  ensures_complain.mpr ⟨⟨.nil, trivial⟩, trivial⟩

theorem Firms.attempt {rule : Script Bool} (h : Firms rule R ks) :
    Firms (attempt rule) R ks :=
  firmAll_cumulative.ensures_attempt (Ensures.mono h fun _ _ _ hf _ => hf)

theorem Firms.tracked {rule : Script Bool} (h : Firms rule R ks) : Firms (tracked rule) R ks := by
  rw [Firms, ensures_tracked]
  exact h

theorem Firms.many {rule : Script Bool} (h : ∀ ks, Firms rule R ks) : Firms (many rule) R ks :=
  ensures_many trivial firmAll_cumulative.append
    fun ks => Ensures.mono (h ks) fun _ _ _ hf _ => hf

/-- The scope leaves firm trees and wraps nothing. -/
def Loose (body : Script (Closing × α)) (R : KindSet) (ks : List Kind) : Prop :=
  body.Ensures R ks fun c _ f => FirmAll f ∧ (c.1 = .splice ∨ c.1 = .undo)

theorem Firms.bind_loose {p : Script β} {body : β → Script (Closing × α)} (hp : Firms p R ks)
    (hbody : ∀ b ks, Loose (body b) R ks) : Loose (p >>= body) R ks := by
  rw [Loose, ensures_bind]
  apply hp.mono
  intro b rest f hf
  exact (hbody b rest).mono fun _ _ g hg => ⟨firmAll_append.mpr ⟨hf, hg.1⟩, hg.2⟩

theorem loose_splice (a : α) : Loose (return (.splice, a)) R ks :=
  ensures_pure.mpr ⟨trivial, .inl rfl⟩

theorem loose_undo (a : α) : Loose (return (.undo, a)) R ks :=
  ensures_pure.mpr ⟨trivial, .inr rfl⟩

theorem loose_kept (kept : Bool) (a : α) :
    Loose (return (if kept then .splice else .undo, a)) R ks := by
  cases kept with
  | false => exact loose_undo a
  | true => exact loose_splice a

theorem Loose.firms {body : Script (Closing × α)} (h : Loose body R ks) :
    Firms (checkpoint body) R ks := by
  rw [Firms, ensures_checkpoint]
  exact Ensures.mono h fun _ _ _ hf => Closing.firmAll_wrap_of_loose hf.1 hf.2

end Script

namespace Grammar

open Script

/-- The rule leaves firm trees, with a token first where it succeeds. Where it fails
there is a token first or none at all. -/
def Sturdy (rule : Script Bool) (R : KindSet) (ks : List Kind) : Prop :=
  rule.Ensures R ks fun found _ f => FirmAll f ∧ if found then Opens f else Leads f

theorem Sturdy.firms {rule : Script Bool} (h : Sturdy rule R ks) : Firms rule R ks :=
  Ensures.mono h fun _ _ _ hf => hf.1

theorem Sturdy.leads {rule : Script Bool} (h : Sturdy rule R ks) :
    rule.Ensures R ks fun _ _ f => FirmAll f ∧ Leads f := by
  apply Ensures.mono h
  rintro (_ | _) _ f hf
  · exact hf
  · exact ⟨hf.1, .inr hf.2⟩

theorem sturdy_return_false : Sturdy (return false) R ks := ensures_pure.mpr ⟨trivial, .nil⟩

theorem firms_unless {part : Script Bool} {closing : Closing} {body : Script (Closing × Bool)}
    (hpart : Firms part R ks) (hbody : ∀ ks, Firms body R ks) :
    Firms (do
      if !(← part) then return (closing, false)
      body) R ks := by
  refine hpart.bind fun found ks => ?_
  cases found with
  | false => exact firms_return _
  | true => exact hbody ks

/-- A rule that gives up unless its first part has succeeded begins with that part. -/
theorem Sturdy.checkpoint {first : Script Bool} {closing : Closing}
    {body : Script (Closing × Bool)} (hfirst : Sturdy first R ks)
    (hbody : ∀ ks, Firms body R ks) (hkeeps : ∀ ks, Keeps body R ks) :
    Sturdy (checkpoint do
      if !(← first) then return (closing, false)
      body) R ks := by
  rw [Sturdy, ensures_checkpoint, ensures_bind]
  apply Ensures.mono hfirst
  intro found rest f hf
  cases found with
  | false =>
    rw [ensures_unless_false, ensures_pure, List.append_nil]
    exact ⟨closing.firmAll_wrap hf.1 hf.2, closing.leads_wrap hf.2⟩
  | true =>
    rw [ensures_unless_true]
    apply (Ensures.and (hbody rest) (hkeeps rest)).mono
    rintro ⟨c, found⟩ _ g ⟨hg, hc⟩
    have hopens : Opens (f ++ g) := Opens.append hf.2 g
    refine ⟨c.firmAll_wrap (firmAll_append.mpr ⟨hf.1, hg⟩) (.inr hopens), ?_⟩
    cases found with
    | false => exact c.leads_wrap (.inr hopens)
    | true => exact Closing.opens_wrap hopens (hc rfl)

theorem leaf_sturdy {k : Kind} (hk : k ≠ .endOfInput) (ks : List Kind) :
    Sturdy (leaf k) R ks := by
  rcases leaf_cases (R := R) k hk ks with ⟨rest, rfl, h⟩ | ⟨-, h⟩
  · rw [Sturdy, ensures_of_eq h]
    have hopens : Opens [Derivation.leaf k] := by
      simp [Opens, Derivation.leaf, leaves, leavesAll]
    exact ⟨⟨⟨.singleton _, firmAll_map_token [k]⟩, trivial⟩, hopens⟩
  · rw [Sturdy, ensures_of_eq h]
    exact ⟨⟨⟨leads_map_token _, firmAll_map_token _⟩, trivial⟩, .singleton _⟩

theorem greedyLeaf_firms (ks : List Kind) : Firms (greedyLeaf .close) R ks := by
  have hleaf := fun ks => (leaf_sturdy (R := R) (k := .close) (by decide) ks).firms
  refine (hleaf ks).bind fun found ks => ?_
  cases found with
  | true => exact firms_return true
  | false =>
    refine firms_current.bind fun k ks => ?_
    have hskip : ∀ ks, Firms (Script.checkpoint do
        let before ← left
        Script.takeWhile (skips .close)
        if (← left) < before then return ((Problem.expected .close).closing, ())
        return (.splice, ())) R ks := by
      intro ks
      rw [Firms, ensures_checkpoint]
      simp only [ensures_bind, ensures_left, ensures_of_eq (skip_outcome _ _), List.nil_append]
      split
      · rw [ensures_pure, List.append_nil]
        exact Closing.firmAll_wrap (firmAll_map_token _) (leads_map_token _) _
      · rw [ensures_pure, List.append_nil]
        exact firmAll_map_token _
    split
    · exact (firms_complain _).bind fun _ ks => (hskip ks).bind fun _ ks => hleaf ks
    · exact hleaf ks

theorem pathStep_firms (ks : List Kind) : Firms pathStep R ks := by
  refine Loose.firms ((leaf_sturdy (by decide) ks).firms.bind_loose fun found ks => ?_)
  cases found with
  | false => exact loose_undo _
  | true =>
    refine firms_view.bind_loose fun v ks => ?_
    split
    · exact loose_undo _
    · exact (leaf_sturdy (by decide) ks).firms.bind_loose fun found _ => loose_splice found

theorem pathSteps_firms (bound : Nat) (ks : List Kind) : Firms (pathSteps bound) R ks := by
  induction bound generalizing ks with
  | zero => exact firms_return ()
  | succ bound ih =>
    refine (pathStep_firms ks).bind fun found ks => ?_
    cases found with
    | false => exact firms_return ()
    | true => exact ih ks

theorem path_sturdy (ks : List Kind) : Sturdy path R ks := by
  rw [Sturdy, path, ensures_bind, ensures_view]
  split
  · exact sturdy_return_false
  · exact (leaf_sturdy (by decide) ks).checkpoint
      (fun ks => firms_left.bind fun _ ks => (pathSteps_firms _ ks).bind fun _ _ => firms_return _)
      (keeps_of_part fun _ => keeps_of_part fun _ => keeps_return (by simp))

theorem firstOf_sturdy {rules : List (Script Bool)} (h : ∀ rule ∈ rules, Sturdy rule R ks) :
    Sturdy (firstOf rules) R ks := by
  have hrules : ∀ rule ∈ rules, rule.Ensures R ks fun found _ f =>
      found = true → FirmAll f ∧ Opens f := by
    intro rule hrule
    apply Ensures.mono (h rule hrule)
    intro found _ f hf hfound
    subst hfound
    exact hf
  apply (ensures_firstOf hrules).mono
  intro found rest f hf
  cases found with
  | false =>
    obtain ⟨-, rfl⟩ := hf
    exact ⟨trivial, .nil⟩
  | true => exact hf

theorem param_sturdy (ks : List Kind) : Sturdy param R ks := by
  have hfirst : Sturdy (firstOf [path, leaf .string, leaf .integer, leaf .boolean]) R ks := by
    apply firstOf_sturdy
    simp only [List.mem_cons, List.not_mem_nil, or_false]
    rintro rule (rfl | rfl | rfl | rfl)
    · exact path_sturdy ks
    all_goals exact leaf_sturdy (by decide) ks
  rw [Sturdy, param, ensures_checkpoint, ensures_bind]
  apply Ensures.mono hfirst
  intro found _ f hf
  cases found with
  | false =>
    simp only [Bool.false_eq_true, if_false, ensures_pure, List.append_nil] at hf ⊢
    exact ⟨Closing.firmAll_wrap hf.1 hf.2 _, .singleton _⟩
  | true =>
    simp only [if_true, ensures_pure, List.append_nil] at hf ⊢
    exact ⟨Closing.firmAll_wrap hf.1 (.inr hf.2) _, Closing.opens_wrap hf.2 (by simp)⟩

theorem params_sturdy (ks : List Kind) : Sturdy params R ks :=
  (param_sturdy ks).checkpoint
    (fun _ => (Firms.many fun ks => (param_sturdy ks).firms).bind fun _ _ => firms_return _)
    (keeps_of_part fun _ => keeps_return (by simp))

theorem hashPair_sturdy (ks : List Kind) : Sturdy hashPair R ks :=
  (leaf_sturdy (by decide) ks).checkpoint
    (fun ks => firms_unless (leaf_sturdy (by decide) ks).firms
      fun ks => firms_unless (param_sturdy ks).firms fun _ => firms_return _)
    (keeps_unless (keeps_unless (keeps_return (by simp))))

theorem hashPairs_firms (bound : Nat) (ks : List Kind) : Firms (hashPairs bound) R ks := by
  induction bound generalizing ks with
  | zero => exact firms_return true
  | succ bound ih =>
    refine Firms.bind (Loose.firms ?_) fun r ks => ?_
    · exact (hashPair_sturdy ks).firms.tracked.bind_loose fun r _ => loose_kept _ _
    · obtain ⟨found, moved⟩ := r
      cases found with
      | false => exact firms_return _
      | true => exact ih ks

theorem hash_sturdy (ks : List Kind) : Sturdy hash R ks := by
  rw [Sturdy, hash, ensures_checkpoint, ensures_bind, ensures_tracked]
  apply Ensures.mono (hashPair_sturdy ks)
  intro found rest f hf
  cases found with
  | false =>
    simp only [Bool.false_eq_true, if_false]
    split
    · rw [ensures_pure, List.append_nil]
      exact ⟨Closing.firmAll_wrap hf.1 hf.2 _, .singleton _⟩
    · rw [ensures_pure, List.append_nil]
      exact ⟨Closing.firmAll_wrap hf.1 hf.2 _, .singleton _⟩
  | true =>
    simp only [if_true, ensures_bind, ensures_left]
    apply Ensures.mono (hashPairs_firms _ rest)
    intro complete _ g hg
    have hopens : Opens (f ++ g) := Opens.append hf.2 g
    have hfirm : FirmAll (f ++ g) := firmAll_append.mpr ⟨hf.1, hg⟩
    simp only [ensures_pure, List.nil_append, List.append_nil]
    refine ⟨Closing.firmAll_wrap hfirm (.inr hopens) _, ?_⟩
    cases complete with
    | false => exact .singleton _
    | true => exact Closing.opens_wrap (c := .node .hash) hopens (by simp)

theorem trailingHash_firms (ks : List Kind) : Firms trailingHash R ks :=
  Loose.firms ((hash_sturdy ks).firms.tracked.bind_loose fun _ _ => loose_kept _ _)

theorem arguments_firms (ks : List Kind) : Firms arguments R ks := by
  refine Loose.firms ((params_sturdy ks).firms.bind_loose fun found ks => ?_)
  cases found with
  | false => exact loose_undo _
  | true => exact (trailingHash_firms ks).bind_loose fun _ _ => loose_splice _

theorem leadingHash_firms (ks : List Kind) : Firms leadingHash R ks :=
  firms_view.bind fun _ ks =>
    Loose.firms ((hash_sturdy ks).firms.tracked.bind_loose fun _ _ => loose_kept _ _)

theorem expression_sturdy (ks : List Kind) : Sturdy expression R ks := by
  refine (path_sturdy ks).checkpoint (fun ks => (leadingHash_firms ks).bind fun kept ks => ?_)
    (keeps_of_part fun kept => ?_)
  · cases kept with
    | false => exact (arguments_firms ks).bind fun _ _ => firms_return _
    | true => exact firms_return _
  · cases kept with
    | false => exact keeps_of_part fun _ => keeps_return (by simp)
    | true => exact keeps_return (by simp)

theorem tag_sturdy {opening : Kind} (hopening : opening ≠ .endOfInput) (node : Kind)
    {inside : Script Bool} (hinside : ∀ ks, Firms inside R ks) (ks : List Kind) :
    Sturdy (tag opening node inside) R ks :=
  (leaf_sturdy hopening ks).checkpoint
    (fun ks => (hinside ks).bind fun _ ks => (greedyLeaf_firms ks).bind fun _ _ => firms_return _)
    (keeps_of_part fun _ => keeps_of_part fun _ => keeps_return (by simp))

theorem endTag_sturdy (ks : List Kind) : Sturdy endTag R ks :=
  tag_sturdy (by decide) _ (fun ks => (path_sturdy ks).firms) ks

theorem partialPaths_firms (ks : List Kind) : Firms partialPaths R ks := by
  refine (path_sturdy ks).firms.bind fun found ks => ?_
  cases found with
  | false => exact firms_return _
  | true => exact (path_sturdy ks).firms.attempt.bind fun _ _ => firms_return _

theorem elseTag_sturdy (ks : List Kind) : Sturdy elseTag R ks :=
  (leaf_sturdy (by decide) ks).checkpoint
    (fun ks => firms_unless (leaf_sturdy (by decide) ks).firms fun _ => firms_return _)
    (keeps_unless (keeps_return (by simp)))

theorem block_sturdy {opening : Script Bool} (hopening : Sturdy opening R ks)
    (malformed : Problem) {inner : Script Unit} (hinner : ∀ ks, Firms inner R ks) :
    Sturdy (block opening malformed inner) R ks :=
  hopening.checkpoint
    (fun ks => (hinner ks).bind fun _ ks =>
      (endTag_sturdy ks).firms.bind fun _ _ => firms_return _)
    (keeps_of_part fun _ => keeps_of_part fun _ => keeps_return (by simp))

/-- A mustache begins with its opening delimiter, where that is there. -/
theorem mustache_sturdy {k : Kind} (hk : isMustacheOpening k = true) (ks : List Kind) :
    Sturdy mustache R (k :: ks) := by
  rw [Sturdy, mustache, ensures_checkpoint, ensures_bind, ensures_current]
  simp only [List.headD_cons, hk, if_true, ensures_bind, ensures_of_eq (leaf_outcome_cons k ks)]
  apply Ensures.mono (expression_sturdy ks).firms
  intro _ rest f hf
  apply Ensures.mono (greedyLeaf_firms rest)
  intro _ _ g hg
  have hopens : Opens ([Derivation.leaf k] ++ (f ++ g)) := by
    simp [Opens, Derivation.leaf, leaves, leavesAll]
  have hleaf : FirmAll [Derivation.leaf k] := ⟨⟨.singleton _, firmAll_map_token [k]⟩, trivial⟩
  simp only [ensures_pure, List.nil_append, List.append_nil, if_true]
  exact ⟨Closing.firmAll_wrap (firmAll_append.mpr ⟨hleaf, firmAll_append.mpr ⟨hf, hg⟩⟩)
    (.inr hopens) _, Closing.opens_wrap (c := .node .mustache) hopens (by simp)⟩

theorem statementOver_sturdy {inner : Script Unit} (hinner : ∀ ks, Firms inner R ks)
    (ks : List Kind) : Sturdy (statementOver inner) R ks := by
  have hexpression := fun ks => (expression_sturdy (R := R) ks).firms
  rw [Sturdy, statementOver, ensures_bind, ensures_current]
  simp only [List.nil_append]
  cases ks with
  | nil => exact sturdy_return_false
  | cons k ks =>
    rw [List.headD_cons]
    cases k with
    | openInverse =>
      rw [ensures_bind, ensures_lookahead]
      apply (ensures_length_rest_le elseTag).mono
      intro found _ _ _
      cases found with
      | false => exact block_sturdy (tag_sturdy (by decide) _ hexpression _) _ hinner
      | true => exact sturdy_return_false
    | openBlock => exact block_sturdy (tag_sturdy (by decide) _ hexpression _) _ hinner
    | openValue => exact mustache_sturdy rfl ks
    | openRaw => exact mustache_sturdy rfl ks
    | openPartial => exact tag_sturdy (by decide) _ partialPaths_firms _
    | content => simp [FirmAll, Firm, Opens, leaves]
    | comment =>
      simp [commentNode, Closing.wrap, FirmAll, Firm, Opens, leaves, leavesAll, Leads]
    | _ => exact sturdy_return_false

theorem statementsOver_firms {inner : Script Unit} (hinner : ∀ ks, Firms inner R ks)
    (ks : List Kind) : Firms (statementsOver inner) R ks :=
  Sturdy.firms ((statementOver_sturdy hinner ks).checkpoint
    (fun _ => (Firms.many fun ks => (statementOver_sturdy hinner ks).firms).bind
      fun _ _ => firms_return _)
    (keeps_of_part fun _ => keeps_return (by simp)))

/-- Programs by induction on how deep blocks may lie in them. -/
theorem programUpTo_firms (depth : Nat) (ks : List Kind) : Firms (programUpTo depth) R ks := by
  induction depth generalizing ks with
  | zero => exact firms_return ()
  | succ depth ih =>
    refine firms_left.bind fun n ks => ?_
    split
    · exact firms_return ()
    · refine Firms.bind (Loose.firms ?_) fun found ks => ?_
      · exact (statementsOver_firms ih ks).tracked.bind_loose fun _ _ => loose_kept _ _
      · cases found with
        | false => exact firms_return ()
        | true =>
          refine (elseTag_sturdy ks).firms.bind fun found ks => ?_
          cases found with
          | false => exact firms_return ()
          | true => exact (statementsOver_firms ih ks).bind fun _ _ => firms_return ()

theorem program_firms (ks : List Kind) : Firms Grammar.program R ks :=
  firms_left.bind fun n ks => programUpTo_firms n ks

theorem recover_firms (ks : List Kind) : Firms recover R ks := by
  have hend : ∀ ks, Firms (Script.checkpoint do
      let _ ← endTag
      return (Problem.strayEnd.closing, ())) R ks := by
    intro ks
    rw [Firms, ensures_checkpoint, ensures_bind]
    apply (endTag_sturdy ks).leads.mono
    intro _ _ f hf
    rw [ensures_pure, List.append_nil]
    exact Closing.firmAll_wrap hf.1 hf.2 _
  have htoken : ∀ ks, Firms (Script.checkpoint do
      take
      return (Problem.invalidToken.closing, ())) R ks := by
    intro ks
    rw [Firms, ensures_checkpoint, ensures_bind]
    cases ks with
    | nil => exact (ensures_of_eq rfl).mpr (ensures_pure.mpr ⟨⟨.nil, trivial⟩, trivial⟩)
    | cons k ks =>
      rw [ensures_take_cons, ensures_pure]
      exact Closing.firmAll_wrap (firmAll_map_token [k]) (leads_map_token [k]) _
  have hlast : ∀ before ks, Firms (do
      if (← left) = before then
        Script.checkpoint do
          take
          return (Problem.invalidToken.closing, ())) R ks := by
    intro before ks
    refine firms_left.bind fun n ks => ?_
    split
    · exact htoken ks
    · exact firms_return ()
  refine firms_left.bind fun before ks => firms_current.bind fun k ks => ?_
  split
  · exact (hend ks).bind fun _ ks => hlast before ks
  · exact hlast before ks

theorem resumeUpTo_firms (bound : Nat) (ks : List Kind) : Firms (resumeUpTo bound) R ks := by
  induction bound generalizing ks with
  | zero => exact firms_return ()
  | succ bound ih =>
    refine firms_left.bind fun n ks => ?_
    split
    · exact firms_return ()
    · exact (recover_firms ks).bind fun _ ks => (program_firms ks).bind fun _ ks => ih ks

/-- Whatever the tokens are, a template is a root over a firm forest. -/
theorem template_firm (root : Kind) (ks : List Kind) :
    (template root).Ensures R ks fun _ _ f =>
      ∃ trees, f = [.node (.plain root) trees] ∧ FirmAll trees := by
  rw [template, ensures_checkpoint, ensures_bind]
  apply Ensures.mono (program_firms ks)
  intro _ rest f hf
  rw [ensures_bind, ensures_left, ensures_bind]
  apply Ensures.mono (resumeUpTo_firms _ rest)
  intro _ _ g hg
  exact ensures_pure.mpr ⟨f ++ g, by simp [Closing.wrap], firmAll_append.mpr ⟨hf, hg⟩⟩

end Grammar

end TemplateTree
