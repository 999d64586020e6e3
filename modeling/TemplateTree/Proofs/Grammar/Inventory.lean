import TemplateTree.Proofs.Grammar.Search
import TemplateTree.Proofs.Grammar.Stopping
import TemplateTree.Proofs.Grammar.Tags

/-!
# The inventory of errors

The rules have many messages, but few of them are left in a tree: most belong to
attempts that are undone. Here is the list of all errors that a parse can leave, with
what each of them holds. An error over nothing or over unreadable tokens stands where a
single token or a part of a tag is missing. Larger errors hold a pair that broke off, an
expression without a path, what was skipped before a closing delimiter, or the end of a
block without its delimiter. Three errors depend on where they stand: statements are
missing only behind an else tag, and what recovery takes stands right below the root.
-/

namespace TemplateTree

open Rose

/-- An error over unreadable tokens, of which there may be none. -/
def overInvalid (message : String) (n : Nat) : Rose Kind :=
  .node (.failure message) (List.replicate n (.token .invalid))

/-- The forms that an error may have, given whether it stands right below the root, and
what stands before it below the same node. -/
inductive ErrorForm (R : KindSet) (top : Bool) (before : Option (Rose Kind)) :
    String → List (Rose Kind) → Prop
  /-- A single token is missing. -/
  | missing (message : String)
      (hmessage : message ∈ ["expected an ID", "expected `=`", "expected `\x7d\x7d`",
        "expected `\x7b\x7b/`"]) (n : Nat) :
      ErrorForm R top before message (List.replicate n (.token .invalid))
  /-- What was skipped on the way to a closing delimiter. -/
  | skipped (ks : List Kind) (hne : ks ≠ []) (hks : ∀ k ∈ ks, k ≠ .close ∧ R.contains k = false) :
      ErrorForm R top before "expected `\x7d\x7d`" (ks.map .token)
  /-- A path or a pair without its first identifier. -/
  | ident (n : Nat) : ErrorForm R top before "expected an ID" [overInvalid "expected an ID" n]
  /-- An expression in the place of which a pair stands. -/
  | path : ErrorForm R top before "expected a path" []
  /-- An expression without the first identifier of its path. -/
  | pathOver (n : Nat) :
      ErrorForm R top before "expected a path"
        [.node (.failure "expected an ID") [overInvalid "expected an ID" n]]
  /-- A pair that ends behind its key. -/
  | assignment (n : Nat) :
      ErrorForm R top before "expected =" [Derivation.leaf .ident, overInvalid "expected `=`" n]
  /-- No parameter. -/
  | param : ErrorForm R top before "expected a parameter" []
  /-- A pair without a value. -/
  | value :
      ErrorForm R top before "expected a parameter"
        [Derivation.leaf .ident, Derivation.leaf .equals,
          .node (.failure "expected a parameter") []]
  /-- No statements behind an else tag. -/
  | statement (contents : List (Rose Kind))
      (hbefore : before = some (.node (.plain .elseTag) contents)) :
      ErrorForm R top before "expected a statement" []
  /-- A block without the opening delimiter of its end tag. -/
  | endTag (n : Nat) :
      ErrorForm R top before "expected a close block" [overInvalid "expected `\x7b\x7b/`" n]
  /-- An end tag with no block to end. -/
  | strayEnd (htop : top = true) (contents : List (Rose Kind)) :
      ErrorForm R top before "no corresponding open block" [.node (.plain .endTag) contents]
  /-- A token with which no statement starts. -/
  | token (htop : top = true) (k : Kind) : ErrorForm R top before "invalid token" [.token k]

mutual

/-- Every error in the tree has one of the forms, and no error is without a message. -/
def Inventoried (R : KindSet) (top : Bool) (before : Option (Rose Kind)) : Rose Kind → Prop
  | .token _ => True
  | .node label children =>
    (label.kind = .error → ∃ message, label = .failure message ∧
      ErrorForm R top before message children) ∧ InventoriedAll R false none children

def InventoriedAll (R : KindSet) (top : Bool) (before : Option (Rose Kind)) :
    List (Rose Kind) → Prop
  | [] => True
  | r :: rs => Inventoried R top before r ∧ InventoriedAll R top (some r) rs

end

/-- The messages of errors in trees. -/
def errorMessages : List String :=
  ["expected an ID", "expected `=`", "expected `\x7d\x7d`", "expected `\x7b\x7b/`",
    "expected a path", "expected =", "expected a parameter", "expected a statement",
    "expected a close block", "no corresponding open block", "invalid token"]

/-- Wherever the trees stand, their errors have one of the forms. -/
def Listed (R : KindSet) (f : List (Rose Kind)) : Prop :=
  ∀ top before, InventoriedAll R top before f

section

variable {R : KindSet} {top : Bool} {before : Option (Rose Kind)} {f g : List (Rose Kind)}

theorem ErrorForm.message_mem {message : String} (h : ErrorForm R top before message f) :
    message ∈ errorMessages := by
  cases h with
  | missing message hmessage n =>
    exact List.mem_append_left (["expected a path", "expected =", "expected a parameter",
      "expected a statement", "expected a close block", "no corresponding open block",
      "invalid token"]) hmessage
  | _ => simp [errorMessages]

mutual

theorem Inventoried.exists_message {top : Bool} {before : Option (Rose Kind)} {r : Rose Kind}
    (h : Inventoried R top before r) {l : Label} (hl : l ∈ r.labels)
    (he : l.kind = .error) :
    ∃ message ∈ errorMessages, l = .failure message := by
  cases r with
  | token k => cases hl
  | node label children =>
    obtain hl | hl := List.mem_cons.mp hl
    · subst hl
      obtain ⟨message, hlabel, hform⟩ := h.1 he
      exact ⟨message, hform.message_mem, hlabel⟩
    · exact InventoriedAll.exists_message h.2 hl he

/-- The label of every error has one of the messages. -/
theorem InventoriedAll.exists_message {top : Bool} {before : Option (Rose Kind)}
    {f : List (Rose Kind)} (h : InventoriedAll R top before f) {l : Label}
    (hl : l ∈ labelsAll f) (he : l.kind = .error) :
    ∃ message ∈ errorMessages, l = .failure message := by
  cases f with
  | nil => cases hl
  | cons r rs =>
    obtain hl | hl := List.mem_append.mp hl
    · exact Inventoried.exists_message h.1 hl he
    · exact InventoriedAll.exists_message h.2 hl he

end

/-- The trees at the end need to stand well behind whatever comes before them. -/
theorem InventoriedAll.append (hf : InventoriedAll R top before f)
    (hg : ∀ before, InventoriedAll R top before g) : InventoriedAll R top before (f ++ g) := by
  induction f generalizing before with
  | nil => exact hg before
  | cons r rs ih => exact ⟨hf.1, ih hf.2⟩

theorem listed_nil : Listed R [] := fun _ _ => trivial

theorem Listed.append (hf : Listed R f) (hg : Listed R g) : Listed R (f ++ g) :=
  fun top before => (hf top before).append (hg top)

theorem listed_map_token (ks : List Kind) : Listed R (ks.map .token) := by
  induction ks with
  | nil => exact listed_nil
  | cons k ks ih => exact fun top _ => ⟨trivial, ih top _⟩

theorem listed_replicate (n : Nat) : Listed R (List.replicate n (.token .invalid)) := by
  rw [← List.map_replicate]
  exact listed_map_token _

theorem Listed.node {k : Kind} (hk : k ≠ .error) (hf : Listed R f) :
    Listed R [.node (.plain k) f] :=
  fun _ _ => ⟨⟨fun h => absurd h hk, hf false none⟩, trivial⟩

/-- An error of a form that may stand anywhere. -/
theorem Listed.failure {message : String} (hform : ∀ top before, ErrorForm R top before message f)
    (hf : Listed R f) : Listed R [.node (.failure message) f] :=
  fun top before => ⟨⟨fun _ => ⟨message, rfl, hform top before⟩, hf false none⟩, trivial⟩

theorem listed_leaf {k : Kind} (hk : k ≠ .error) : Listed R [Derivation.leaf k] :=
  (listed_map_token [k]).node hk

theorem listed_overInvalid (message : String)
    (hmessage : message ∈ ["expected an ID", "expected `=`", "expected `\x7d\x7d`",
      "expected `\x7b\x7b/`"]) (n : Nat) : Listed R [overInvalid message n] :=
  .failure (fun _ _ => .missing message hmessage n) (listed_replicate n)

/-- A missing first identifier. -/
theorem listed_ident (n : Nat) :
    Listed R [.node (.failure "expected an ID") [overInvalid "expected an ID" n]] :=
  .failure (fun _ _ => .ident n) (listed_overInvalid _ (by simp) n)

end

variable {R : KindSet} {ks : List Kind}

namespace Script

variable {α β : Type}

/-- All errors that the script leaves are listed, wherever its trees will stand. -/
def Enlists (p : Script α) (R : KindSet) (ks : List Kind) : Prop :=
  p.Ensures R ks fun _ _ f => Listed R f

theorem enlists_return (a : α) : Enlists (return a) R ks := ensures_pure.mpr listed_nil

theorem listed_cumulative : Cumulative (Listed R) := ⟨listed_nil, fun _ _ => Listed.append⟩

theorem Enlists.bind {p : Script α} {next : α → Script β} (hp : Enlists p R ks)
    (hnext : ∀ a ks, Enlists (next a) R ks) : Enlists (p >>= next) R ks :=
  listed_cumulative.ensures_bind hp hnext

theorem Enlists.many {rule : Script Bool}
    (h : ∀ ks, rule.Ensures R ks fun found _ f => found = true → Listed R f) (ks : List Kind) :
    Enlists (many rule) R ks :=
  ensures_many listed_nil listed_cumulative.append h

/-- The last part of a scope that then becomes a node. -/
theorem Enlists.node {p : Script α} {k : Kind} {a : β} (hk : k ≠ .error) (hp : Enlists p R ks)
    {f : List (Rose Kind)} (hf : Listed R f) :
    (do
      let _ ← p
      return (Closing.node k, a)).Ensures R ks fun c _ g =>
        c.2 = a ∧ Listed R (c.1.wrap (f ++ g)) := by
  rw [ensures_bind]
  apply Ensures.mono hp
  intro _ _ g hg
  rw [ensures_pure, List.append_nil]
  exact ⟨rfl, (hf.append hg).node hk⟩

end Script

namespace Grammar

open Script

theorem map_token_unreadable (ks : List Kind) :
    (unreadable ks).map Rose.token = List.replicate (unreadable ks).length (.token .invalid) := by
  refine List.eq_replicate_iff.mpr ⟨List.length_map _, fun r hr => ?_⟩
  obtain ⟨k, hk, rfl⟩ := List.mem_map.mp hr
  exact congrArg Rose.token (of_decide_eq_true (List.all_eq_true.mp List.all_takeWhile k hk))

/-- A token that is there is a leaf, and in place of one that is not there is an error over
unreadable tokens. -/
theorem leaf_forest {k : Kind} (hk : k ≠ .endOfInput) (ks : List Kind) :
    (leaf k).Ensures R ks fun found _ f =>
      if found then f = [Derivation.leaf k]
      else ∃ n, f = [overInvalid (Problem.expected k).message n] := by
  obtain ⟨rest, rfl, h⟩ | ⟨-, h⟩ := leaf_cases (R := R) k hk ks
  · exact (ensures_of_eq h).mpr rfl
  · rw [map_token_unreadable] at h
    exact (ensures_of_eq h).mpr ⟨_, rfl⟩

/-- These are the kinds of the tokens whose absence is recorded. -/
theorem leaf_enlists {k : Kind} (hk : k ∈ [.ident, .equals, .close, .openEnd]) (ks : List Kind) :
    Enlists (leaf k) R ks := by
  have hmessage : (Problem.expected k).message ∈ ["expected an ID", "expected `=`",
      "expected `\x7d\x7d`", "expected `\x7b\x7b/`"] := by
    revert k
    decide
  have hne : k ≠ .endOfInput ∧ k ≠ .error := by
    revert k
    decide
  apply (leaf_forest hne.1 ks).mono
  intro found _ f hf
  cases found with
  | false =>
    obtain ⟨n, rfl⟩ := hf
    exact listed_overInvalid _ hmessage n
  | true =>
    obtain rfl := hf
    exact listed_leaf hne.2

theorem leaf_enlists_of_found {k : Kind} (hk : k ≠ .endOfInput) (hk' : k ≠ .error)
    (ks : List Kind) :
    (leaf k).Ensures R ks fun found _ f => found = true → Listed R f := by
  apply (leaf_forest hk ks).mono
  intro found _ f hf hfound
  subst hfound
  obtain rfl := hf
  exact listed_leaf hk'

theorem pathStep_enlists (ks : List Kind) : Enlists pathStep R ks := by
  rw [Enlists, pathStep, ensures_checkpoint, ensures_bind]
  apply (leaf_enlists_of_found (by decide) (by decide) ks).mono
  intro found rest f hf
  cases found with
  | false => exact ensures_pure.mpr listed_nil
  | true =>
    rw [ensures_unless_true, ensures_bind, ensures_view]
    split
    · exact ensures_pure.mpr listed_nil
    · rw [ensures_bind]
      apply (leaf_enlists (by simp) rest).mono
      intro _ _ g hg
      rw [ensures_pure, List.append_nil]
      exact (hf rfl).append hg

theorem pathSteps_enlists (bound : Nat) (ks : List Kind) : Enlists (pathSteps bound) R ks := by
  induction bound generalizing ks with
  | zero => exact enlists_return ()
  | succ bound ih =>
    refine (pathStep_enlists ks).bind fun found ks => ?_
    cases found with
    | false => exact enlists_return ()
    | true => exact ih ks

/-- A path that is not there leaves nothing or an error over an error. -/
theorem path_forest (ks : List Kind) :
    path.Ensures R ks fun found _ f =>
      if found then Listed R f
      else f = [] ∨
        ∃ n, f = [.node (.failure "expected an ID") [overInvalid "expected an ID" n]] := by
  rw [path, ensures_bind, ensures_view]
  split
  · exact ensures_pure.mpr (.inl rfl)
  · rw [ensures_checkpoint, ensures_bind]
    apply (leaf_forest (by decide) ks).mono
    intro found rest f hf
    cases found with
    | false =>
      obtain ⟨n, rfl⟩ := hf
      exact ensures_pure.mpr (.inr ⟨n, rfl⟩)
    | true =>
      obtain rfl := hf
      have hleaf : Listed R [Derivation.leaf .ident] := listed_leaf (by decide)
      rw [ensures_unless_true, ensures_bind, ensures_left]
      apply ((pathSteps_enlists _ rest).node (by decide) hleaf).mono
      intro c _ g hg
      rw [hg.1]
      exact hg.2

theorem path_enlists (ks : List Kind) : Enlists path R ks := by
  apply (path_forest ks).mono
  intro found _ f hf
  cases found with
  | false =>
    obtain rfl | ⟨n, rfl⟩ := hf
    · exact listed_nil
    · exact listed_ident n
  | true => exact hf

theorem path_enlists_of_found (ks : List Kind) :
    path.Ensures R ks fun found _ f => found = true → Listed R f :=
  Ensures.mono (path_enlists ks) fun _ _ _ hf _ => hf

/-- A parameter that is not there leaves an error over nothing. -/
theorem param_forest (ks : List Kind) :
    param.Ensures R ks fun found _ f =>
      if found then Listed R f else f = [.node (.failure "expected a parameter") []] := by
  have hrules : ∀ rule ∈ [path, leaf .string, leaf .integer, leaf .boolean],
      rule.Ensures R ks fun found _ f => found = true → Listed R f := by
    intro rule hrule
    simp only [List.mem_cons, List.not_mem_nil, or_false] at hrule
    obtain rfl | rfl | rfl | rfl := hrule
    · exact path_enlists_of_found ks
    all_goals exact leaf_enlists_of_found (by decide) (by decide) ks
  rw [param, ensures_checkpoint, ensures_bind]
  apply (ensures_firstOf hrules).mono
  intro found _ f hf
  cases found with
  | false =>
    obtain ⟨-, rfl⟩ := hf
    exact ensures_pure.mpr rfl
  | true =>
    show Ensures _ _ _ _
    rw [if_pos rfl, ensures_pure, List.append_nil]
    exact Listed.node (by decide) hf

theorem param_enlists_of_found (ks : List Kind) :
    param.Ensures R ks fun found _ f => found = true → Listed R f := by
  apply (param_forest ks).mono
  intro found _ f hf hfound
  subst hfound
  exact hf

theorem params_enlists_of_found (ks : List Kind) :
    params.Ensures R ks fun found _ f => found = true → Listed R f := by
  rw [params, ensures_checkpoint, ensures_bind]
  apply (param_enlists_of_found ks).mono
  intro found rest f hf
  cases found with
  | false => exact ensures_pure.mpr fun h => absurd h Bool.false_ne_true
  | true =>
    rw [ensures_unless_true]
    exact ((Enlists.many param_enlists_of_found rest).node (by decide) (hf rfl)).mono
      fun _ _ _ hg _ => hg.2

/-- A pair that breaks off leaves one of three errors. -/
theorem hashPair_enlists (ks : List Kind) : Enlists hashPair R ks := by
  rw [Enlists, hashPair, ensures_checkpoint, ensures_bind]
  apply (leaf_forest (by decide) ks).mono
  intro found rest f hkey
  cases found with
  | false =>
    obtain ⟨n, rfl⟩ := hkey
    exact ensures_pure.mpr (listed_ident n)
  | true =>
    obtain rfl := hkey
    rw [ensures_unless_true, ensures_bind]
    apply (leaf_forest (by decide) rest).mono
    intro found rest' g hequals
    have hleaf : Listed R [Derivation.leaf .ident] := listed_leaf (by decide)
    cases found with
    | false =>
      obtain ⟨n, rfl⟩ := hequals
      refine ensures_pure.mpr (.failure (fun _ _ => .assignment n) ?_)
      exact hleaf.append (listed_overInvalid "expected `=`" (by simp) n)
    | true =>
      obtain rfl := hequals
      have hleaves : Listed R [Derivation.leaf .ident, Derivation.leaf .equals] :=
        hleaf.append (listed_leaf (by decide))
      rw [ensures_unless_true, ensures_bind]
      apply (param_forest rest').mono
      intro found _ v hvalue
      cases found with
      | false =>
        obtain rfl := hvalue
        refine ensures_pure.mpr (.failure (fun _ _ => .value) (hleaves.append ?_))
        exact .failure (fun _ _ => .param) listed_nil
      | true =>
        rw [ensures_unless_true, ensures_pure, List.append_nil]
        exact Listed.node (by decide) (hleaves.append hvalue)

theorem hashPairs_enlists (bound : Nat) (ks : List Kind) : Enlists (hashPairs bound) R ks := by
  induction bound generalizing ks with
  | zero => exact enlists_return true
  | succ bound ih =>
    rw [hashPairs]
    refine Enlists.bind ?_ fun r ks => ?_
    · rw [Enlists, ensures_checkpoint, ensures_bind, ensures_tracked]
      apply (hashPair_enlists ks).mono
      intro found rest f hf
      rw [ensures_pure, List.append_nil]
      split
      · exact hf
      · exact listed_nil
    · obtain ⟨found, moved⟩ := r
      cases found with
      | false => exact enlists_return _
      | true => exact ih ks

/-- A hash that succeeds or takes anything lists its errors. -/
theorem hash_enlists (ks : List Kind) :
    hash.Ensures R ks fun found rest f =>
      (found || decide (rest.length < ks.length)) = true → Listed R f := by
  rw [hash, ensures_checkpoint, ensures_bind, ensures_tracked]
  apply (hashPair_enlists ks).mono
  intro found rest f hf
  cases found with
  | false =>
    by_cases hmoved : rest.length < ks.length
    · simp only [hmoved, decide_true, Bool.false_eq_true, if_false, if_true, ensures_pure,
        List.append_nil]
      exact fun _ => hf.node (by decide)
    · simp [hmoved, Problem.closing]
  | true =>
    simp only [if_true, ensures_bind, ensures_left]
    apply (hashPairs_enlists _ rest).mono
    intro _ _ g hg
    simp only [ensures_pure, List.nil_append, List.append_nil]
    exact fun _ => (hf.append hg).node (by decide)

theorem trailingHash_enlists (ks : List Kind) : Enlists trailingHash R ks := by
  rw [Enlists, trailingHash, ensures_checkpoint, ensures_bind, ensures_tracked]
  apply (hash_enlists ks).mono
  intro found rest f hf
  rw [ensures_pure, List.append_nil]
  split
  · exact hf ‹_›
  · exact listed_nil

theorem arguments_enlists (ks : List Kind) : Enlists arguments R ks := by
  rw [Enlists, arguments, ensures_checkpoint, ensures_bind]
  apply (params_enlists_of_found ks).mono
  intro found rest f hf
  cases found with
  | false => exact ensures_pure.mpr listed_nil
  | true =>
    rw [ensures_unless_true, ensures_bind]
    apply (trailingHash_enlists rest).mono
    intro _ _ g hg
    rw [ensures_pure, List.append_nil]
    exact (hf rfl).append hg

theorem leadingHash_enlists (ks : List Kind) : Enlists leadingHash R ks := by
  rw [Enlists, leadingHash, ensures_bind, ensures_view, ensures_checkpoint, ensures_bind,
    ensures_tracked]
  apply (hash_enlists ks).mono
  intro found rest f hf
  rw [ensures_pure, List.append_nil]
  split
  · rename_i hkept
    refine hf ?_
    cases found with
    | false => exact (Bool.and_eq_true_iff.mp hkept).2
    | true => rfl
  · exact listed_nil

/-- An expression that is not there leaves an error over what a path leaves. -/
theorem expression_enlists (ks : List Kind) : Enlists expression R ks := by
  rw [Enlists, expression, ensures_checkpoint, ensures_bind]
  apply (path_forest ks).mono
  intro found rest f hpath
  cases found with
  | false =>
    obtain rfl | ⟨n, rfl⟩ := hpath
    · exact ensures_pure.mpr (.failure (fun _ _ => .path) listed_nil)
    · exact ensures_pure.mpr (.failure (fun _ _ => .pathOver n) (listed_ident n))
  | true =>
    rw [ensures_unless_true, ensures_bind]
    apply (leadingHash_enlists rest).mono
    intro kept rest' g hhash
    have hstart : Listed R (f ++ g) := Listed.append hpath hhash
    cases kept with
    | false =>
      rw [ensures_unless_false]
      apply ((arguments_enlists rest').node (by decide) hstart).mono
      intro c _ v hv
      rw [← List.append_assoc]
      exact hv.2
    | true =>
      rw [ensures_unless_true, ensures_pure, List.append_nil]
      exact hstart.node (by decide)

theorem greedyLeaf_enlists (ks : List Kind) : Enlists (greedyLeaf .close) R ks := by
  have hclose : ∀ ks, Enlists (leaf .close) R ks := leaf_enlists (by simp)
  have hmissing : ∀ ks, Listed R [errorOver .close (unreadable ks)] := by
    intro ks
    rw [errorOver, map_token_unreadable]
    exact listed_overInvalid "expected `\x7d\x7d`" (by simp) _
  by_cases h : ks.headD .endOfInput = .close
  · obtain ⟨rest, rfl⟩ := exists_eq_cons_of_headD h (by decide)
    rw [Enlists, ensures_of_eq (greedyLeaf_outcome .close)]
    exact listed_leaf (by decide)
  · rw [Enlists, ensures_of_eq (greedyLeaf_outcome_of_ne h), ← List.singleton_append]
    refine (hmissing ks).append (.append (.append ?_ ?_) (ensures_iff.mp (hclose _)))
    · split
      · exact listed_nil
      · exact hmissing []
    · cases hskipped : (readable ks).takeWhile (passes R .close) with
      | nil => exact listed_nil
      | cons k skipped =>
        refine .failure (fun _ _ => .skipped (k :: skipped) (List.cons_ne_nil _ _) ?_)
          (listed_map_token _)
        intro k' hk'
        rw [← hskipped] at hk'
        simpa [passes] using List.all_eq_true.mp List.all_takeWhile k' hk'

/-- A tag is a node, unless its opening delimiter is missing. -/
theorem tag_forest {opening : Kind} {inside : Script Bool} (hopening : opening ≠ .endOfInput)
    (herror : opening ≠ .error) (node : Kind) (hinside : ∀ ks, Enlists inside R ks)
    (ks : List Kind) :
    (tag opening node inside).Ensures R ks fun found _ f =>
      if found then ∃ contents, f = [.node (.plain node) contents] ∧ Listed R contents
      else ∃ n, f = [.node (.failure (Problem.expected node).message)
        [overInvalid (Problem.expected opening).message n]] := by
  rw [tag, ensures_checkpoint, ensures_bind]
  apply (leaf_forest hopening ks).mono
  intro found rest f hf
  cases found with
  | false =>
    obtain ⟨n, rfl⟩ := hf
    exact ensures_pure.mpr ⟨n, rfl⟩
  | true =>
    obtain rfl := hf
    rw [ensures_unless_true, ensures_bind]
    apply Ensures.mono (hinside rest)
    intro _ rest' g hg
    rw [ensures_bind]
    apply Ensures.mono (greedyLeaf_enlists rest')
    intro _ _ v hv
    refine ensures_pure.mpr ⟨_, rfl, (listed_leaf herror).append (hg.append ?_)⟩
    rwa [List.append_nil]

theorem tag_enlists {opening node : Kind} {inside : Script Bool} (hopening : opening ≠ .endOfInput)
    (herror : opening ≠ .error) (hnode : node ≠ .error) (hinside : ∀ ks, Enlists inside R ks)
    (ks : List Kind) :
    (tag opening node inside).Ensures R (opening :: ks) fun found _ f =>
      found = true ∧ Listed R f := by
  apply ((tag_forest hopening herror node hinside (opening :: ks)).and
    (tag_succeeds opening node inside ks)).mono
  intro found _ f h
  obtain ⟨hf, rfl, -⟩ := h
  obtain ⟨contents, rfl, hcontents⟩ := hf
  exact ⟨rfl, hcontents.node hnode⟩

theorem endTag_enlists (ks : List Kind) : Enlists endTag R ks := by
  apply (tag_forest (by decide) (by decide) .endTag path_enlists ks).mono
  intro found _ f hf
  cases found with
  | false =>
    obtain ⟨n, rfl⟩ := hf
    exact .failure (fun _ _ => .endTag n) (listed_overInvalid "expected `\x7b\x7b/`"
      (by simp) n)
  | true =>
    obtain ⟨contents, rfl, hcontents⟩ := hf
    exact hcontents.node (by decide)

theorem partialPaths_enlists (ks : List Kind) : Enlists partialPaths R ks := by
  refine (path_enlists ks).bind fun found ks => ?_
  cases found with
  | false => exact enlists_return false
  | true =>
    have hsecond : Enlists (attempt path) R ks :=
      listed_cumulative.ensures_attempt (path_enlists_of_found ks)
    exact hsecond.bind fun _ _ => enlists_return true

theorem mustache_enlists {k : Kind} (hk : k = .openValue ∨ k = .openRaw) (ks : List Kind) :
    Enlists mustache R (k :: ks) := by
  have htag : (tagAt k).Ensures R (k :: ks) fun found _ f => found = true ∧ Listed R f := by
    obtain rfl | rfl := hk
    · exact tag_enlists (by decide) (by decide) (by decide) expression_enlists ks
    · exact tag_enlists (by decide) (by decide) (by decide) expression_enlists ks
  rw [Enlists, ensures_of_eq (mustache_outcome_eq hk ks)]
  exact (ensures_iff.mp htag).2

/-- An else tag is a node, or there is no trace of it. -/
theorem elseTag_forest (ks : List Kind) :
    elseTag.Ensures R ks fun found _ f =>
      if found then ∃ contents, f = [.node (.plain .elseTag) contents] ∧ Listed R contents
      else f = [] := by
  rw [elseTag, ensures_checkpoint, ensures_bind]
  apply (leaf_enlists_of_found (by decide) (by decide) ks).mono
  intro found rest f hf
  cases found with
  | false => exact ensures_pure.mpr rfl
  | true =>
    rw [ensures_unless_true, ensures_bind]
    apply (leaf_enlists_of_found (by decide) (by decide) rest).mono
    intro found _ g hg
    cases found with
    | false => exact ensures_pure.mpr rfl
    | true =>
      refine ensures_pure.mpr ⟨_, rfl, (hf rfl).append ?_⟩
      rw [List.append_nil]
      exact hg rfl

/-- A block whose opening tag succeeds. -/
theorem block_enlists {opening : Script Bool} {inner : Script Unit} (malformed : Problem)
    (hopening : opening.Ensures R ks fun found _ f => found = true ∧ Listed R f)
    (hinner : ∀ ks, Enlists inner R ks) : Enlists (block opening malformed inner) R ks := by
  rw [Enlists, block, ensures_checkpoint, ensures_bind]
  apply hopening.mono
  intro found rest f hf
  obtain ⟨rfl, hf⟩ := hf
  rw [ensures_unless_true, ensures_bind]
  apply Ensures.mono (hinner rest)
  intro _ rest' g hg
  rw [ensures_bind]
  apply Ensures.mono (endTag_enlists rest')
  intro _ _ v hv
  rw [ensures_pure, List.append_nil]
  exact hf.append (hg.append hv)

/-- A statement leaves its trees, or there is no trace of it. -/
theorem statementOver_enlists {inner : Script Unit} (hinner : ∀ ks, Enlists inner R ks)
    (ks : List Kind) : Enlists (statementOver inner) R ks := by
  rw [Enlists, statementOver, ensures_bind, ensures_current]
  simp only [List.nil_append]
  cases ks with
  | nil => exact enlists_return false
  | cons k ks =>
    rw [List.headD_cons]
    cases k with
    | openInverse =>
      rw [ensures_bind, ensures_lookahead]
      apply (elseTag_forest _).mono
      intro found _ _ _
      cases found with
      | false =>
        exact block_enlists .malformedInverse
          (tag_enlists (by decide) (by decide) (by decide) expression_enlists ks) hinner
      | true => exact enlists_return false
    | openBlock =>
      exact block_enlists .malformedBlock
        (tag_enlists (by decide) (by decide) (by decide) expression_enlists ks) hinner
    | openValue => exact mustache_enlists (.inl rfl) ks
    | openRaw => exact mustache_enlists (.inr rfl) ks
    | openPartial =>
      exact (tag_enlists (by decide) (by decide) (by decide) partialPaths_enlists ks).mono
        fun _ _ _ h => h.2
    | content =>
      rw [ensures_bind, ensures_take_cons, ensures_pure]
      exact listed_map_token [.content]
    | comment =>
      rw [commentNode, ensures_checkpoint, ensures_bind, ensures_take_cons, ensures_pure]
      exact listed_leaf (by decide)
    | _ => exact enlists_return false

/-- Statements that are not there leave an error over nothing. -/
theorem statementsOver_forest {inner : Script Unit} (hinner : ∀ ks, Enlists inner R ks)
    (ks : List Kind) :
    (statementsOver inner).Ensures R ks fun found _ f =>
      if found then Listed R f else f = [.node (.failure "expected a statement") []] := by
  rw [statementsOver, ensures_checkpoint, ensures_bind]
  apply (Ensures.and (statementOver_enlists hinner ks) (statementOver_found inner ks)).mono
  intro found rest f h
  obtain ⟨hf, -, hnone⟩ := h
  cases found with
  | false =>
    obtain ⟨-, rfl⟩ := hnone rfl
    exact ensures_pure.mpr rfl
  | true =>
    have hmore : ∀ ks, (statementOver inner).Ensures R ks fun found _ f =>
        found = true → Listed R f :=
      fun ks => Ensures.mono (statementOver_enlists hinner ks) fun _ _ _ hf _ => hf
    rw [ensures_unless_true]
    apply ((Enlists.many hmore rest).node (by decide) hf).mono
    intro c _ g hg
    rw [hg.1]
    exact hg.2

/-- Programs by induction on how deep blocks may lie in them. Only behind an else tag is it
recorded that statements are missing. -/
theorem programUpTo_enlists (depth : Nat) (ks : List Kind) : Enlists (programUpTo depth) R ks := by
  induction depth generalizing ks with
  | zero => exact enlists_return ()
  | succ depth ih =>
    rw [Enlists, programUpTo, ensures_bind, ensures_left]
    split
    · exact enlists_return ()
    · rw [ensures_bind, ensures_checkpoint, ensures_bind, ensures_tracked]
      apply (Ensures.and (statementsOver_forest ih ks) (statementsOver_stops _ ks)).mono
      intro found rest f h
      obtain ⟨hf, -, hnone⟩ := h
      cases found with
      | false =>
        obtain rfl := hnone rfl
        simp only [Nat.lt_irrefl, decide_false, Bool.or_self, Bool.false_eq_true, if_false,
          ensures_pure, if_true, Closing.wrap]
        exact listed_nil
      | true =>
        simp only [Bool.true_or, if_true, ensures_pure, reduceCtorEq, if_false, ensures_bind,
          Closing.wrap, List.append_nil, List.nil_append]
        apply (elseTag_forest rest).mono
        intro found rest' g hg
        cases found with
        | false =>
          obtain rfl := hg
          exact ensures_pure.mpr (Listed.append hf listed_nil)
        | true =>
          obtain ⟨contents, rfl, hcontents⟩ := hg
          have htag : Listed R [.node (.plain .elseTag) contents] := hcontents.node (by decide)
          simp only [if_true, ensures_bind, ensures_pure, List.append_nil]
          apply (statementsOver_forest ih rest').mono
          intro found _ v hv
          cases found with
          | false =>
            obtain rfl := hv
            refine Listed.append hf fun top before => ⟨(htag top before).1, ?_⟩
            exact ⟨⟨fun _ => ⟨_, rfl, .statement contents rfl⟩, trivial⟩, trivial⟩
          | true => exact Listed.append hf (htag.append hv)

theorem program_enlists (ks : List Kind) : Enlists Grammar.program R ks := by
  rw [Enlists, Grammar.program, ensures_bind, ensures_left]
  exact programUpTo_enlists _ ks

/-- What recovery takes may stand right below the root. -/
theorem recover_enlists (k : Kind) (ks : List Kind) :
    recover.Ensures R (k :: ks) fun _ _ f => ∀ before, InventoriedAll R true before f := by
  rw [recover, ensures_bind, ensures_left, ensures_bind, ensures_current, List.headD_cons]
  simp only [List.nil_append]
  by_cases hk : k = .openEnd
  · subst hk
    rw [if_pos rfl, ensures_bind, ensures_checkpoint, ensures_bind]
    apply ((tag_forest (by decide) (by decide) .endTag path_enlists _).and
      (tag_succeeds .openEnd .endTag path ks)).mono
    intro _ rest f h
    obtain ⟨hf, rfl, hle⟩ := h
    obtain ⟨contents, rfl, hcontents⟩ := hf
    have hne : rest.length ≠ (Kind.openEnd :: ks).length := by
      rw [List.length_cons]
      omega
    have hbelow : Listed R [.node (.plain .endTag) contents] := hcontents.node (by decide)
    simp only [ensures_pure, Problem.closing, reduceCtorEq, if_false, ensures_bind, ensures_left,
      hne, Closing.wrap, List.append_nil]
    exact fun before =>
      ⟨⟨fun _ => ⟨_, rfl, .strayEnd rfl contents⟩, hbelow false none⟩, trivial⟩
  · rw [if_neg hk]
    simp only [ensures_bind, ensures_left, if_true, ensures_checkpoint, ensures_take_cons,
      ensures_pure, Problem.closing, Closing.wrap, List.append_nil, List.nil_append]
    exact fun before => ⟨⟨fun _ => ⟨_, rfl, .token rfl k⟩, trivial, trivial⟩, trivial⟩

theorem resumeUpTo_enlists (bound : Nat) (ks : List Kind) :
    (resumeUpTo bound).Ensures R ks fun _ _ f => ∀ before, InventoriedAll R true before f := by
  induction bound generalizing ks with
  | zero => exact ensures_pure.mpr fun _ => trivial
  | succ bound ih =>
    rw [resumeUpTo, ensures_bind, ensures_left]
    cases ks with
    | nil => exact ensures_pure.mpr fun _ => trivial
    | cons k ks =>
      rw [List.length_cons, if_neg (Nat.succ_ne_zero _), ensures_bind]
      apply (recover_enlists k ks).mono
      intro _ rest f hf
      rw [ensures_bind]
      apply Ensures.mono (program_enlists rest)
      intro _ rest' g hg
      apply (ih rest').mono
      intro _ _ v hv before
      exact (hf before).append fun before => (hg true before).append hv

/-- A whole template. -/
theorem template_inventoried (root : Kind) (ks : List Kind) :
    (template root).Ensures R ks fun _ _ f =>
      ∃ trees, f = [.node (.plain root) trees] ∧ InventoriedAll R true none trees := by
  rw [template, ensures_checkpoint, ensures_bind]
  apply Ensures.mono (program_enlists ks)
  intro _ rest f hf
  rw [ensures_bind, ensures_left, ensures_bind]
  apply (resumeUpTo_enlists _ rest).mono
  intro _ _ g hg
  rw [ensures_pure]
  exact ⟨f ++ g, by simp [Closing.wrap], (hf true none).append hg⟩

end Grammar

end TemplateTree
