import TemplateTree.Grammar.Template
import TemplateTree.Proofs.Grammar.ExpressionReading

/-!
# Reading well-formed templates

On the yield of a derivation the rules for tags, statements and programs take
exactly that yield and leave exactly the forest of the derivation. A statement
ends with a token of its own, so it does not matter what follows it; a sequence
of statements ends where none can start, which is at the end of the input,
before an end tag and before an else tag. Blocks are read by induction on a
bound for the length of the program inside, which the rules count down.
-/

namespace TemplateTree

open Rose

variable {R : KindSet} {ks rest : List Kind}

namespace Grammar

open Script

theorem greedyLeaf_outcome (k : Kind) :
    (greedyLeaf k).outcome R (k :: rest) = ⟨true, rest, [Derivation.leaf k]⟩ := by
  apply ensures_eq_iff.mp
  rw [greedyLeaf, ensures_bind, ensures_of_eq (leaf_outcome_cons k rest)]
  exact ensures_pure.mpr ⟨rfl, rfl, rfl⟩

/-- A tag whose inside is read up to the closing delimiter. -/
theorem tag_outcome (opening node : Kind) {inside : Script Bool} {found : Bool}
    {f : List (Rose Kind)} (h : inside.outcome R ks = ⟨found, .close :: rest, f⟩) :
    (tag opening node inside).outcome R (opening :: ks) =
      ⟨true, rest, [Derivation.tag node opening f]⟩ := by
  apply ensures_eq_iff.mp
  rw [tag, ensures_checkpoint, ensures_bind, ensures_of_eq (leaf_outcome_cons opening ks),
    ensures_unless_true, ensures_bind, ensures_of_eq h, ensures_bind,
    ensures_of_eq (greedyLeaf_outcome .close)]
  exact ensures_pure.mpr ⟨rfl, rfl, by simp [Closing.wrap, Derivation.tag]⟩

theorem endTag_outcome (name : Derivation.Path) :
    endTag.outcome R (.openEnd :: (name.yield ++ .close :: rest)) =
      ⟨true, rest, [Derivation.tag .endTag .openEnd [name.tree]]⟩ :=
  tag_outcome .openEnd .endTag (path_outcome name (endsPath_close rest))

theorem partialPaths_outcome (name : Derivation.Path) (context : Option Derivation.Path) :
    partialPaths.outcome R
        (name.yield ++ ((context.map Derivation.Path.yield).getD [] ++ .close :: rest)) =
      ⟨true, .close :: rest, name.tree :: (context.map Derivation.Path.tree).toList⟩ := by
  apply ensures_eq_iff.mp
  cases context with
  | none =>
    have hnone : Fails path R (.close :: rest) := path_fails_of_ne (by simp)
    have hname := path_outcome (R := R) name (endsPath_close rest)
    rw [Option.map_none, Option.getD_none, List.nil_append, partialPaths, ensures_bind,
      ensures_of_eq hname, ensures_unless_true, ensures_bind,
      ensures_of_eq (attempt_outcome_of_fails hnone)]
    exact ensures_pure.mpr ⟨rfl, rfl, rfl⟩
  | some context =>
    have hcontext := path_outcome (R := R) context (endsPath_close rest)
    have hname := path_outcome (R := R) name
      (show EndsPath (context.yield ++ .close :: rest) from endsPath_cons (by decide) (by decide))
    rw [Option.map_some, Option.getD_some, partialPaths, ensures_bind, ensures_of_eq hname,
      ensures_unless_true, ensures_bind,
      ensures_of_eq (attempt_outcome_of_reads hcontext)]
    exact ensures_pure.mpr ⟨rfl, rfl, rfl⟩

/-- A mustache is what its expression and the search for the closing delimiter make of it. -/
theorem mustache_outcome_of_parts (raw : Bool) {middle : List Kind} {found closed : Bool}
    {f g : List (Rose Kind)} (hexpression : expression.outcome R ks = ⟨found, middle, f⟩)
    (hclose : (greedyLeaf .close).outcome R middle = ⟨closed, rest, g⟩) :
    mustache.outcome R (Derivation.mustacheOpening raw :: ks) =
      ⟨true, rest,
        [.node (.plain .mustache) (Derivation.leaf (Derivation.mustacheOpening raw) :: (f ++ g))]⟩ := by
  have hopening : isMustacheOpening (Derivation.mustacheOpening raw) = true := by
    cases raw <;> rfl
  apply ensures_eq_iff.mp
  rw [mustache, ensures_checkpoint, ensures_bind, ensures_current, List.headD_cons, hopening,
    if_pos rfl, ensures_bind, ensures_of_eq (leaf_outcome_cons _ _), ensures_bind,
    ensures_of_eq hexpression, ensures_bind, ensures_of_eq hclose]
  exact ensures_pure.mpr ⟨rfl, rfl, by simp [Closing.wrap]⟩

theorem mustache_outcome (raw : Bool) (e : Derivation.Expression) :
    mustache.outcome R (Derivation.mustacheOpening raw :: (e.yield ++ .close :: rest)) =
      ⟨true, rest, [Derivation.tag .mustache (Derivation.mustacheOpening raw) [e.tree]]⟩ :=
  mustache_outcome_of_parts raw (expression_outcome e) (greedyLeaf_outcome .close)

theorem elseTag_outcome :
    elseTag.outcome R (.openInverse :: .close :: rest) =
      ⟨true, rest, [.node (.plain .elseTag)
        [Derivation.leaf .openInverse, Derivation.leaf .close]]⟩ := by
  apply ensures_eq_iff.mp
  rw [elseTag, ensures_checkpoint, ensures_bind, ensures_of_eq (leaf_outcome_cons _ _),
    ensures_unless_true, ensures_bind, ensures_of_eq (leaf_outcome_cons _ _)]
  exact ensures_pure.mpr ⟨rfl, rfl, rfl⟩

theorem elseTag_outcome_of_ne (h : ks.headD .endOfInput ≠ .openInverse) :
    elseTag.outcome R ks = ⟨false, ks, []⟩ := by
  apply ensures_eq_iff.mp
  rw [elseTag, ensures_checkpoint, ensures_bind, ensures_of_eq (leaf_outcome_ne h)]
  exact ensures_pure.mpr ⟨rfl, rfl, rfl⟩

/-- The opening delimiter of an inverse block is not that of an else tag. -/
theorem elseTag_outcome_of_ne_close (h : ks.headD .endOfInput ≠ .close) :
    elseTag.outcome R (.openInverse :: ks) = ⟨false, .openInverse :: ks, []⟩ := by
  apply ensures_eq_iff.mp
  rw [elseTag, ensures_checkpoint, ensures_bind, ensures_of_eq (leaf_outcome_cons _ _),
    ensures_unless_true, ensures_bind, ensures_of_eq (leaf_outcome_ne h)]
  exact ensures_pure.mpr ⟨rfl, rfl, rfl⟩

/-- A program may end here: at the end of the input or before an end tag. -/
def EndsProgram (rest : List Kind) : Prop := rest = [] ∨ rest.headD .endOfInput = .openEnd

/-- The rule reads every program that is not longer than a bound. -/
def ReadsPrograms (inner : Script Unit) (R : KindSet) (bound : Nat) : Prop :=
  ∀ (p : Derivation.Program) (rest : List Kind), p.yield.length ≤ bound → EndsProgram rest →
    inner.outcome R (p.yield ++ rest) = ⟨(), rest, p.forest⟩

theorem block_outcome {start : Script Bool} {inner : Script Unit} (malformed : Problem)
    {inside : List Kind} {t : Rose Kind} {body : List (Rose Kind)} (name : Derivation.Path)
    (hstart : start.outcome R ks = ⟨true, inside, [t]⟩)
    (hinner : inner.outcome R inside =
      ⟨(), .openEnd :: (name.yield ++ .close :: rest), body⟩) :
    (block start malformed inner).outcome R ks =
      ⟨true, rest, t :: (body ++ [Derivation.tag .endTag .openEnd [name.tree]])⟩ := by
  apply ensures_eq_iff.mp
  rw [block, ensures_checkpoint, ensures_bind, ensures_of_eq hstart, ensures_unless_true,
    ensures_bind, ensures_of_eq hinner, ensures_bind, ensures_of_eq (endTag_outcome name)]
  exact ensures_pure.mpr ⟨rfl, rfl, by simp [Closing.wrap]⟩

theorem statementOver_outcome {inner : Script Unit} {bound : Nat}
    (hinner : ReadsPrograms inner R bound) (s : Derivation.Statement)
    (hs : s.yield.length ≤ bound + 1) :
    (statementOver inner).outcome R (s.yield ++ rest) = ⟨true, rest, s.forest⟩ := by
  apply ensures_eq_iff.mp
  rw [statementOver, ensures_bind, ensures_current]
  simp only [List.nil_append]
  cases s with
  | content =>
    have hyield : Derivation.Statement.content.yield ++ rest = .content :: rest := rfl
    rw [hyield, List.headD_cons]
    simp only [ensures_bind, ensures_take_cons, ensures_pure]
    exact ⟨trivial, trivial, rfl⟩
  | comment =>
    have hyield : Derivation.Statement.comment.yield ++ rest = .comment :: rest := rfl
    rw [hyield, List.headD_cons]
    simp only [commentNode, ensures_checkpoint, ensures_bind, ensures_take_cons, ensures_pure]
    exact ⟨trivial, by simp, rfl⟩
  | mustache raw e =>
    have hyield : (Derivation.Statement.mustache raw e).yield ++ rest =
        Derivation.mustacheOpening raw :: (e.yield ++ .close :: rest) := by
      simp [Derivation.Statement.yield]
    have hread := ensures_eq_iff.mpr (@mustache_outcome R rest raw e)
    rw [hyield, List.headD_cons]
    cases raw with
    | false => exact hread
    | true => exact hread
  | partialTag name context =>
    have hyield : (Derivation.Statement.partialTag name context).yield ++ rest = .openPartial ::
        (name.yield ++ ((context.map Derivation.Path.yield).getD [] ++ .close :: rest)) := by
      simp [Derivation.Statement.yield]
    rw [hyield, List.headD_cons]
    exact ensures_eq_iff.mpr (tag_outcome .openPartial .partialTag
      (partialPaths_outcome name context))
  | block inverse e body name =>
    let finish := Kind.openEnd :: (name.yield ++ .close :: rest)
    have hyield : (Derivation.Statement.block inverse e body name).yield ++ rest =
        Derivation.blockOpening inverse :: (e.yield ++ .close :: (body.yield ++ finish)) := by
      simp [Derivation.Statement.yield, finish]
    have hlength : body.yield.length ≤ bound := by
      simp only [Derivation.Statement.yield, List.length_append, List.length_cons] at hs
      omega
    have hbody := hinner body finish hlength (.inr rfl)
    have hexpression := @expression_outcome R (body.yield ++ finish) e
    rw [hyield]
    cases inverse with
    | false =>
      rw [Derivation.blockOpening, if_neg Bool.false_ne_true, List.headD_cons]
      exact ensures_eq_iff.mpr
        (block_outcome .malformedBlock name (tag_outcome .openBlock .blockTag hexpression) hbody)
    | true =>
      have helse := elseTag_outcome_of_ne_close (R := R)
        (show (e.yield ++ .close :: (body.yield ++ finish)).headD .endOfInput ≠ .close by
          simp [Derivation.Expression.yield, Derivation.Path.yield])
      rw [Derivation.blockOpening, if_pos rfl, List.headD_cons]
      simp only [ensures_bind, ensures_lookahead, ensures_of_eq helse]
      exact ensures_eq_iff.mpr
        (block_outcome .malformedInverse name (tag_outcome .openInverse .inverseTag hexpression)
          hbody)

/-- No statement starts where a program may end. -/
theorem statementOver_outcome_of_endsProgram (inner : Script Unit) (h : EndsProgram rest) :
    (statementOver inner).outcome R rest = ⟨false, rest, []⟩ := by
  apply ensures_eq_iff.mp
  rw [statementOver, ensures_bind, ensures_current]
  cases rest with
  | nil => exact ensures_pure.mpr ⟨rfl, rfl, rfl⟩
  | cons k ks =>
    obtain rfl : k = .openEnd := h.resolve_left (List.cons_ne_nil k ks)
    exact ensures_pure.mpr ⟨rfl, rfl, rfl⟩

/-- No statement starts where an else tag stands. -/
theorem statementOver_outcome_of_elseTag (inner : Script Unit) :
    (statementOver inner).outcome R (.openInverse :: .close :: ks) =
      ⟨false, .openInverse :: .close :: ks, []⟩ := by
  have helse := @elseTag_outcome R ks
  apply ensures_eq_iff.mp
  rw [statementOver, ensures_bind, ensures_current, List.headD_cons]
  simp only [ensures_bind, ensures_lookahead, ensures_of_eq helse]
  exact ensures_pure.mpr ⟨rfl, rfl, rfl⟩

theorem statement_yield_ne_nil (s : Derivation.Statement) : s.yield ≠ [] := by
  cases s <;> exact List.cons_ne_nil _ _

/-- Statements as a first one and a list of others. -/
theorem exists_statements_eq : (ss : Derivation.Statements) →
    ∃ (s : Derivation.Statement) (more : List Derivation.Statement),
      ss.yield = s.yield ++ more.flatMap Derivation.Statement.yield ∧
      ss.forest = s.forest ++ more.flatMap Derivation.Statement.forest
  | .last s => ⟨s, [], (List.append_nil _).symm, (List.append_nil _).symm⟩
  | .more s others => by
    obtain ⟨first, more, hyield, hforest⟩ := exists_statements_eq others
    refine ⟨s, first :: more, ?_, ?_⟩
    · rw [Derivation.Statements.yield, hyield, List.flatMap_cons]
    · rw [Derivation.Statements.forest, hforest, List.flatMap_cons]

theorem statements_yield_ne_nil (ss : Derivation.Statements) : ss.yield ≠ [] := by
  obtain ⟨s, more, hyield, -⟩ := exists_statements_eq ss
  rw [hyield]
  exact List.append_ne_nil_of_left_ne_nil (statement_yield_ne_nil s) _

/-- Statements are a first one and as many others as there are. -/
theorem statementsOver_outcome_of_parts {inner : Script Unit} {middle : List Kind}
    {f g : List (Rose Kind)} (hfirst : (statementOver inner).outcome R ks = ⟨true, middle, f⟩)
    (hothers : (many (statementOver inner)).outcome R middle = ⟨(), rest, g⟩) :
    (statementsOver inner).outcome R ks =
      ⟨true, rest, [.node (.plain .statements) (f ++ g)]⟩ := by
  apply ensures_eq_iff.mp
  rw [statementsOver, ensures_checkpoint, ensures_bind, ensures_of_eq hfirst,
    ensures_unless_true, ensures_bind, ensures_of_eq hothers]
  exact ensures_pure.mpr ⟨rfl, rfl, by simp [Closing.wrap]⟩

theorem statementsOver_outcome {inner : Script Unit} {bound : Nat}
    (hinner : ReadsPrograms inner R bound) (ss : Derivation.Statements)
    (hss : ss.yield.length ≤ bound + 1)
    (hstop : (statementOver inner).outcome R rest = ⟨false, rest, []⟩) :
    (statementsOver inner).outcome R (ss.yield ++ rest) =
      ⟨true, rest, [.node (.plain .statements) ss.forest]⟩ := by
  obtain ⟨s, more, hyield, hforest⟩ := exists_statements_eq ss
  rw [hyield, List.length_append] at hss
  have hfirst := @statementOver_outcome R (more.flatMap Derivation.Statement.yield ++ rest) _ _
    hinner s (by omega)
  have hothers : (many (statementOver inner)).outcome R
      (more.flatMap Derivation.Statement.yield ++ rest) =
        ⟨(), rest, more.flatMap Derivation.Statement.forest⟩ := by
    refine many_outcome statement_yield_ne_nil (fun a ha others => ?_)
      (fails_of_outcome hstop)
    have hle : a.yield.length ≤ (more.flatMap Derivation.Statement.yield).length :=
      (List.sublist_flatten_of_mem (List.mem_map_of_mem ha)).length_le
    exact statementOver_outcome hinner a (by omega)
  rw [hyield, List.append_assoc, hforest]
  exact statementsOver_outcome_of_parts hfirst hothers

theorem statementsOver_outcome_of_endsProgram (inner : Script Unit) (h : EndsProgram rest) :
    (statementsOver inner).outcome R rest =
      ⟨false, rest, [.node (.failure (Problem.expected .statements).message) []]⟩ := by
  apply ensures_eq_iff.mp
  rw [statementsOver, ensures_checkpoint, ensures_bind,
    ensures_of_eq (statementOver_outcome_of_endsProgram inner h)]
  exact ensures_pure.mpr ⟨rfl, rfl, rfl⟩

theorem headD_ne_openInverse (h : EndsProgram rest) : rest.headD .endOfInput ≠ .openInverse := by
  rcases h with rfl | h
  · decide
  · rw [h]
    decide

/-- Statements with no else tag behind them are a program. -/
theorem programUpTo_outcome_of_statements {depth : Nat} {f : List (Rose Kind)} (hks : ks ≠ [])
    (hstatements : (statementsOver (programUpTo depth)).outcome R ks = ⟨true, rest, f⟩)
    (helse : rest.headD .endOfInput ≠ .openInverse) :
    (programUpTo (depth + 1)).outcome R ks = ⟨(), rest, f⟩ := by
  have hleft : ks.length ≠ 0 := fun h => hks (List.length_eq_zero_iff.mp h)
  apply ensures_eq_iff.mp
  rw [programUpTo, ensures_bind, ensures_left, if_neg hleft, ensures_bind, ensures_checkpoint,
    ensures_bind, ensures_tracked, ensures_of_eq hstatements]
  simp only [Bool.true_or, if_true, ensures_pure, reduceCtorEq, if_false, Closing.wrap,
    List.append_nil, ensures_bind, ensures_of_eq (elseTag_outcome_of_ne helse)]
  exact ⟨trivial, trivial, rfl⟩

/-- Programs by induction on the bound: the program inside a block is shorter
than the block. -/
theorem readsPrograms_programUpTo (bound : Nat) : ReadsPrograms (programUpTo bound) R bound := by
  have hempty : ∀ p : Derivation.Program, p.yield = [] → p = .empty := by
    intro p hp
    cases p with
    | empty => rfl
    | plain body => exact absurd hp (statements_yield_ne_nil body)
    | alternative body other => simp [Derivation.Program.yield] at hp
  induction bound with
  | zero =>
    intro p rest hp hrest
    obtain rfl := hempty p (List.length_eq_zero_iff.mp (Nat.le_zero.mp hp))
    rfl
  | succ bound ih =>
    intro p rest hp hrest
    have hends := statementOver_outcome_of_endsProgram (R := R) (programUpTo bound) hrest
    cases p with
    | empty =>
      have hyield : Derivation.Program.empty.yield ++ rest = rest := rfl
      have hnone := statementsOver_outcome_of_endsProgram (R := R) (programUpTo bound) hrest
      apply ensures_eq_iff.mp
      rw [programUpTo, ensures_bind, ensures_left, hyield]
      by_cases hleft : rest.length = 0
      · rw [if_pos hleft]
        exact ensures_pure.mpr ⟨rfl, rfl, rfl⟩
      · rw [if_neg hleft, ensures_bind, ensures_checkpoint, ensures_bind, ensures_tracked,
          ensures_of_eq hnone]
        simp [Closing.wrap, Derivation.Program.forest]
    | plain body =>
      exact programUpTo_outcome_of_statements
        (List.append_ne_nil_of_left_ne_nil (statements_yield_ne_nil body) rest)
        (statementsOver_outcome ih body hp hends) (headD_ne_openInverse hrest)
    | alternative body other =>
      have hyield : (Derivation.Program.alternative body other).yield ++ rest =
          body.yield ++ .openInverse :: .close :: (other.yield ++ rest) := by
        simp [Derivation.Program.yield]
      rw [Derivation.Program.yield, List.length_append, List.length_append] at hp
      have hbody := statementsOver_outcome ih body (by omega)
        (@statementOver_outcome_of_elseTag R (other.yield ++ rest) _)
      have helse := @elseTag_outcome R (other.yield ++ rest)
      have hother := statementsOver_outcome ih other (by omega) hends
      have hleft : (body.yield ++ .openInverse :: .close :: (other.yield ++ rest)).length ≠ 0 := by
        simp
      apply ensures_eq_iff.mp
      rw [programUpTo, ensures_bind, ensures_left, hyield, if_neg hleft, ensures_bind,
        ensures_checkpoint, ensures_bind, ensures_tracked, ensures_of_eq hbody]
      simp only [Bool.true_or, if_true, ensures_pure, reduceCtorEq, if_false, Closing.wrap,
        List.append_nil, ensures_bind, ensures_of_eq helse, ensures_of_eq hother]
      exact ⟨trivial, trivial, rfl⟩

theorem program_outcome (p : Derivation.Program) (hrest : EndsProgram rest) :
    Grammar.program.outcome R (p.yield ++ rest) = ⟨(), rest, p.forest⟩ := by
  have hbound : p.yield.length ≤ (p.yield ++ rest).length := by
    rw [List.length_append]
    exact Nat.le_add_right _ _
  have hread := readsPrograms_programUpTo (R := R) (p.yield ++ rest).length p rest hbound hrest
  apply ensures_eq_iff.mp
  rw [Grammar.program, ensures_bind, ensures_left, ensures_of_eq hread]
  exact ⟨rfl, rfl, rfl⟩

/-- A program up to the end of the input is a template. -/
theorem template_outcome_of_program (root : Kind) {f : List (Rose Kind)}
    (h : Grammar.program.outcome R ks = ⟨(), [], f⟩) :
    (template root).outcome R ks = ⟨(), [], [.node (.plain root) f]⟩ := by
  apply ensures_eq_iff.mp
  rw [template, ensures_checkpoint, ensures_bind, ensures_of_eq h, ensures_bind, ensures_left,
    ensures_bind]
  exact ensures_pure.mpr (ensures_pure.mpr ⟨rfl, rfl, by simp [Closing.wrap]⟩)

/-- The yield of a program is read as a whole, into the forest of the program. -/
theorem template_outcome (root : Kind) (p : Derivation.Program) :
    (template root).outcome R p.yield = ⟨(), [], [.node (.plain root) p.forest]⟩ := by
  have hprogram := program_outcome (R := R) p (.inl rfl)
  rw [List.append_nil] at hprogram
  exact template_outcome_of_program root hprogram

end Grammar

end TemplateTree
