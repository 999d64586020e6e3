import TemplateTree.Proofs.Grammar.Derivation
import TemplateTree.Proofs.Grammar.TreeGrammar

/-!
# Trees without errors

A forest that obeys the strict rules and has no errors in it is the forest of a
derivation. The rules are taken apart pattern by pattern: where a pattern asks
for an error it cannot be met, so what remains of each rule is one clause of
the grammar of well-formed templates.
-/

namespace TemplateTree

open Rose TreeGrammar TemplateTree.Derivation

namespace Rose

/-- The forest matches the pattern, obeys the strict rules and holds no errors. -/
structure Clean (P : Pattern) (f : List (Rose Kind)) : Prop where
  shaped : Shaped P f
  errorFree : ErrorFree f

namespace Clean

variable {P Q : Pattern} {f : List (Rose Kind)} {k : Kind}

theorem of_mul (h : Clean (P * Q) f) : ∃ g g', f = g ++ g' ∧ Clean P g ∧ Clean Q g' := by
  obtain ⟨g, g', rfl, hg, hg'⟩ := h.shaped.of_mul
  refine ⟨g, g', rfl, ⟨hg, fun l hl => ?_⟩, ⟨hg', fun l hl => ?_⟩⟩
  · exact h.errorFree l (by simp [hl])
  · exact h.errorFree l (by simp [hl])

theorem of_add (h : Clean (P + Q) f) : Clean P f ∨ Clean Q f := by
  rcases h.shaped.symbols with hw | hw
  · exact .inl ⟨⟨hw, h.shaped.below⟩, h.errorFree⟩
  · exact .inr ⟨⟨hw, h.shaped.below⟩, h.errorFree⟩

theorem of_one (h : Clean 1 f) : f = [] :=
  List.map_eq_nil_iff.mp ((Language.mem_one _).mp h.shaped.symbols)

theorem of_optional (h : Clean (TreeGrammar.optional P) f) : f = [] ∨ Clean P f :=
  h.of_add.imp_left of_one

/-- What a starred pattern matches is put together of what the pattern matches. -/
theorem of_star (h : Clean P.star f) : ∃ gs : List (List (Rose Kind)),
    f = gs.flatten ∧ ∀ g ∈ gs, Clean P g := by
  obtain ⟨ws, hws, hmem⟩ := Language.mem_kstar.mp h.shaped.symbols
  induction ws generalizing f with
  | nil => exact ⟨[], List.map_eq_nil_iff.mp hws, by simp⟩
  | cons w ws ih =>
    obtain ⟨g, g', rfl, hg, hg'⟩ := List.map_eq_append_iff.mp (hws.trans List.flatten_cons)
    obtain ⟨hbelow, hbelow'⟩ := conformsAll_append.mp h.shaped.below
    have hmore : ∀ v ∈ ws, v ∈ P.matches' := fun v hv => hmem v (List.mem_cons_of_mem _ hv)
    have hfirst : Clean P g :=
      ⟨⟨hg ▸ hmem w List.mem_cons_self, hbelow⟩, fun l hl => h.errorFree l (by simp [hl])⟩
    have hothers : Clean P.star g' :=
      ⟨⟨Language.mem_kstar.mpr ⟨ws, hg', hmore⟩, hbelow'⟩, fun l hl => h.errorFree l (by simp [hl])⟩
    obtain ⟨gs, rfl, hgs⟩ := ih hothers hg' hmore
    refine ⟨g :: gs, List.flatten_cons.symm, fun v hv => ?_⟩
    rcases List.mem_cons.mp hv with rfl | hv
    · exact hfirst
    · exact hgs v hv

/-- There is no error to be found. -/
theorem not_error (h : Clean (child .error) f) : False := by
  obtain ⟨r, rfl, hr⟩ := List.map_eq_singleton_iff.mp h.shaped.symbols
  cases r with
  | token k => cases hr
  | node label children =>
    obtain he : label.kind = .error := Symbol.node.inj hr
    exact h.errorFree label (by simp [labelsAll, Rose.labels]) he

theorem of_error_mul (h : Clean (child .error * P) f) : False := by
  obtain ⟨g, g', -, hg, -⟩ := h.of_mul
  exact hg.not_error

theorem of_add_error (h : Clean (P + child .error) f) : Clean P f :=
  h.of_add.resolve_right not_error

/-- A node that the pattern asks for, with what its kind asks for below it. -/
theorem of_child (h : Clean (child k) f) :
    ∃ children, f = [.node (.plain k) children] ∧ Clean (strictContents k) children := by
  obtain ⟨r, rfl, hr⟩ := List.map_eq_singleton_iff.mp h.shaped.symbols
  cases r with
  | token k => cases hr
  | node label children =>
    obtain hk : label.kind = k := Symbol.node.inj hr
    have hne : label.kind ≠ .error := h.errorFree label (by simp [labelsAll, Rose.labels])
    cases label with
    | failure message => exact absurd rfl hne
    | plain k' =>
      obtain rfl : k' = k := hk
      obtain ⟨hmatch, hbelow⟩ := h.shaped.below.1
      refine ⟨children, rfl, ⟨hmatch hne, hbelow⟩, fun l hl => ?_⟩
      exact h.errorFree l (by simp [labelsAll, Rose.labels, hl])

theorem of_word (h : Clean (word k) f) : f = [.token k] := by
  obtain ⟨r, rfl, hr⟩ := List.map_eq_singleton_iff.mp h.shaped.symbols
  cases r with
  | token k' =>
    obtain rfl : k' = k := Symbol.token.inj hr
    rfl
  | node label children => cases hr

/-- A node around a single token. -/
theorem eq_leaf (h : Clean (child k) f) (hrule : strictContents k = word k) : f = [leaf k] := by
  obtain ⟨children, rfl, hinside⟩ := h.of_child
  rw [hrule] at hinside
  rw [hinside.of_word, leaf]

/-- Where each repetition is the tree of some datum, all are the trees of a list of data. -/
theorem of_star_map {α : Type} {t : α → Rose Kind} (ht : ∀ g, Clean P g → ∃ a, g = [t a])
    (h : Clean P.star f) : ∃ as : List α, f = as.map t := by
  obtain ⟨gs, rfl, hgs⟩ := h.of_star
  clear h
  induction gs with
  | nil => exact ⟨[], rfl⟩
  | cons g gs ih =>
    obtain ⟨a, rfl⟩ := ht g (hgs g List.mem_cons_self)
    obtain ⟨as, has⟩ := ih fun v hv => hgs v (List.mem_cons_of_mem _ hv)
    exact ⟨a :: as, by rw [List.flatten_cons, has, List.map_cons, List.singleton_append]⟩

theorem of_oneOrMore_map {α : Type} {t : α → Rose Kind} (ht : ∀ g, Clean P g → ∃ a, g = [t a])
    (h : Clean (oneOrMore P) f) : ∃ (a : α) (as : List α), f = (a :: as).map t := by
  obtain ⟨g, g', rfl, hg, hg'⟩ := h.of_mul
  obtain ⟨a, rfl⟩ := ht g hg
  obtain ⟨as, rfl⟩ := hg'.of_star_map ht
  exact ⟨a, as, rfl⟩

theorem exists_path (h : Clean (child .path) f) : ∃ p : Path, f = [p.tree] := by
  obtain ⟨children, rfl, hinside⟩ := h.of_child
  obtain ⟨g, g', rfl, hhead, hinside⟩ := hinside.of_mul
  obtain ⟨steps, tail, rfl, hsteps, htail⟩ := hinside.of_mul
  have htail' : tail = [] := by
    rcases htail.of_optional with rfl | hbroken
    · rfl
    · obtain ⟨u, v, -, -, hv⟩ := hbroken.of_mul
      exact hv.not_error.elim
  obtain ⟨gs, rfl, hgs⟩ := hsteps.of_star
  have hstep : ∀ v ∈ gs, v = [leaf .separator, leaf .ident] := by
    intro v hv
    obtain ⟨u, u', rfl, hsep, hid⟩ := (hgs v hv).of_mul
    rw [hsep.eq_leaf rfl, hid.eq_leaf rfl, List.singleton_append]
  refine ⟨⟨gs.length⟩, ?_⟩
  rw [hhead.eq_leaf rfl, htail', List.append_nil, List.eq_replicate_of_mem hstep,
    List.length_replicate]
  rfl

theorem exists_param (h : Clean (child .param) f) : ∃ p : Param, f = [p.tree] := by
  obtain ⟨children, rfl, hinside⟩ := h.of_child
  rcases hinside.of_add with hinside | hboolean
  · rcases hinside.of_add with hinside | hinteger
    · rcases hinside.of_add with hpath | hstring
      · obtain ⟨p, rfl⟩ := hpath.exists_path
        exact ⟨.path p, rfl⟩
      · exact ⟨.string, by rw [hstring.eq_leaf rfl]; rfl⟩
    · exact ⟨.integer, by rw [hinteger.eq_leaf rfl]; rfl⟩
  · exact ⟨.boolean, by rw [hboolean.eq_leaf rfl]; rfl⟩

theorem exists_pair (h : Clean (child .hashPair) f) : ∃ p : Pair, f = [p.tree] := by
  obtain ⟨children, rfl, hinside⟩ := h.of_child
  obtain ⟨g, g', rfl, hkey, hinside⟩ := hinside.of_mul
  obtain ⟨u, u', rfl, hequals, hvalue⟩ := hinside.of_mul
  obtain ⟨p, rfl⟩ := hvalue.exists_param
  exact ⟨⟨p⟩, by rw [hkey.eq_leaf rfl, hequals.eq_leaf rfl]; rfl⟩

theorem exists_params (h : Clean (child .params) f) :
    ∃ ps : List Param, f = wrapSome .params (ps.map Param.tree) := by
  obtain ⟨children, rfl, hinside⟩ := h.of_child
  obtain ⟨p, ps, rfl⟩ := hinside.of_oneOrMore_map fun g hg => hg.exists_param
  exact ⟨p :: ps, rfl⟩

theorem exists_hash (h : Clean (child .hash) f) :
    ∃ ps : List Pair, f = wrapSome .hash (ps.map Pair.tree) := by
  obtain ⟨children, rfl, hinside⟩ := h.of_child
  obtain ⟨g, g', rfl, hpairs, hend⟩ := hinside.of_add_error.of_mul
  obtain ⟨p, ps, rfl⟩ := hpairs.of_oneOrMore_map fun g hg => hg.exists_pair
  rcases hend.of_optional with rfl | herror
  · exact ⟨p :: ps, by rw [List.append_nil]; rfl⟩
  · exact herror.not_error.elim

theorem exists_expression (h : Clean (child .expression) f) :
    ∃ e : Expression, f = [e.tree] := by
  obtain ⟨children, rfl, hinside⟩ := h.of_child
  obtain ⟨g, tail, rfl, hpath, htail⟩ := hinside.of_mul
  obtain ⟨p, rfl⟩ := hpath.exists_path
  rcases htail.of_optional with rfl | htail
  · exact ⟨⟨p, [], []⟩, rfl⟩
  · rcases htail.of_add with hhash | htail
    · obtain ⟨pairs, rfl⟩ := hhash.exists_hash
      exact ⟨⟨p, [], pairs⟩, rfl⟩
    · obtain ⟨u, v, rfl, hparams, hhash⟩ := htail.of_mul
      obtain ⟨params, rfl⟩ := hparams.exists_params
      rcases hhash.of_optional with rfl | hhash
      · exact ⟨⟨p, params, []⟩, rfl⟩
      · obtain ⟨pairs, rfl⟩ := hhash.exists_hash
        exact ⟨⟨p, params, pairs⟩, rfl⟩

theorem not_lateClosing (h : Clean lateClosing f) : False := by
  rcases h.of_add with h | h
  · exact h.of_error_mul
  · exact h.of_error_mul

/-- A tag ends with its closing delimiter. -/
theorem eq_close (h : Clean closing f) : f = [leaf .close] := by
  rcases h.of_add with hclose | hlate
  · exact hclose.eq_leaf rfl
  · exact hlate.not_lateClosing.elim

/-- The inside of a tag around an expression, with the end of the tag. -/
theorem exists_expression_close
    (h : Clean ((child .expression + child .error) * closing) f) :
    ∃ e : Expression, f = [e.tree] ++ [leaf .close] := by
  obtain ⟨g, g', rfl, hexpression, hclose⟩ := h.of_mul
  obtain ⟨e, rfl⟩ := hexpression.of_add_error.exists_expression
  exact ⟨e, by rw [hclose.eq_close]⟩

theorem exists_mustache (h : Clean (child .mustache) f) :
    ∃ raw e, f = (Statement.mustache raw e).forest := by
  obtain ⟨children, rfl, hinside⟩ := h.of_child
  obtain ⟨g, g', rfl, hopening, hinside⟩ := hinside.of_mul
  obtain ⟨e, rfl⟩ := hinside.exists_expression_close
  rcases hopening.of_add with hopening | hopening
  · exact ⟨false, e, by rw [hopening.eq_leaf rfl]; rfl⟩
  · exact ⟨true, e, by rw [hopening.eq_leaf rfl]; rfl⟩

theorem exists_partialTag (h : Clean (child .partialTag) f) :
    ∃ name context, f = (Statement.partialTag name context).forest := by
  obtain ⟨children, rfl, hinside⟩ := h.of_child
  obtain ⟨g, g', rfl, hopening, hinside⟩ := hinside.of_mul
  rcases hinside.of_add with hinside | hlate
  · obtain ⟨paths, v, rfl, hpaths, hclose⟩ := hinside.of_mul
    obtain ⟨u, w, rfl, hname, hcontext⟩ := hpaths.of_add_error.of_mul
    obtain ⟨name, rfl⟩ := hname.exists_path
    rcases hcontext.of_optional with rfl | hcontext
    · exact ⟨name, none, by rw [hopening.eq_leaf rfl, hclose.eq_close]; rfl⟩
    · obtain ⟨context, rfl⟩ := hcontext.exists_path
      exact ⟨name, some context, by rw [hopening.eq_leaf rfl, hclose.eq_close]; rfl⟩
  · exact hlate.not_lateClosing.elim

/-- The tag that opens a block of either sort. -/
theorem exists_blockTag (h : Clean (child .blockTag + child .inverseTag) f) :
    ∃ inverse, ∃ e : Expression,
      f = [Derivation.tag (blockTag inverse) (blockOpening inverse) [e.tree]] := by
  rcases h.of_add with h | h
  · obtain ⟨children, rfl, hinside⟩ := h.of_child
    obtain ⟨g, g', rfl, hopening, hinside⟩ := hinside.of_mul
    obtain ⟨e, rfl⟩ := hinside.exists_expression_close
    exact ⟨false, e, by rw [hopening.eq_leaf rfl]; rfl⟩
  · obtain ⟨children, rfl, hinside⟩ := h.of_child
    obtain ⟨g, g', rfl, hopening, hinside⟩ := hinside.of_mul
    obtain ⟨e, rfl⟩ := hinside.exists_expression_close
    exact ⟨true, e, by rw [hopening.eq_leaf rfl]; rfl⟩

theorem exists_endTag (h : Clean (child .endTag) f) :
    ∃ name : Path, f = [Derivation.tag .endTag .openEnd [name.tree]] := by
  obtain ⟨children, rfl, hinside⟩ := h.of_child
  obtain ⟨g, g', rfl, hopening, hinside⟩ := hinside.of_mul
  rcases hinside.of_add with hinside | hlate
  · obtain ⟨u, v, rfl, hname, hclose⟩ := hinside.of_mul
    obtain ⟨name, rfl⟩ := hname.of_add_error.exists_path
    exact ⟨name, by rw [hopening.eq_leaf rfl, hclose.eq_close]; rfl⟩
  · exact hlate.not_lateClosing.elim

theorem exists_elseTag (h : Clean (child .elseTag) f) :
    f = [.node (.plain .elseTag) [leaf .openInverse, leaf .close]] := by
  obtain ⟨children, rfl, hinside⟩ := h.of_child
  obtain ⟨g, g', rfl, hopening, hclose⟩ := hinside.of_mul
  rw [hopening.eq_leaf rfl, hclose.eq_leaf rfl, List.singleton_append]

/-- Every program with at most so many nodes in it is the forest of a derivation. -/
def ProgramsDerived (bound : Nat) : Prop :=
  ∀ f, (labelsAll f).length ≤ bound → Clean programTrees f → ∃ p : Program, f = p.forest

/-- A statement, given the programs that are smaller. -/
theorem exists_statement {bound : Nat} (hinner : ProgramsDerived bound)
    (hf : (labelsAll f).length ≤ bound) (h : Clean statementTrees f) :
    ∃ s : Statement, f = s.forest := by
  rcases h.of_add with h | hblock
  · rcases h.of_add with h | hpartial
    · rcases h.of_add with h | hmustache
      · rcases h.of_add with hcontent | hcomment
        · exact ⟨.content, by rw [hcontent.of_word]; rfl⟩
        · exact ⟨.comment, by rw [hcomment.eq_leaf rfl]; rfl⟩
      · obtain ⟨raw, e, rfl⟩ := hmustache.exists_mustache
        exact ⟨_, rfl⟩
    · obtain ⟨name, context, rfl⟩ := hpartial.exists_partialTag
      exact ⟨_, rfl⟩
  · obtain ⟨start, g, rfl, hstart, hinside⟩ := hblock.of_mul
    obtain ⟨body, finish, rfl, hbody, hfinish⟩ := hinside.of_mul
    obtain ⟨inverse, e, rfl⟩ := hstart.exists_blockTag
    obtain ⟨name, rfl⟩ := hfinish.of_add_error.exists_endTag
    have hsmall : (labelsAll body).length ≤ bound := by
      simp only [labelsAll_append, List.length_append] at hf
      omega
    obtain ⟨p, rfl⟩ := hinner body hsmall hbody
    exact ⟨.block inverse e p name, rfl⟩

/-- Statements side by side, given the programs that are smaller. -/
theorem exists_statements {bound : Nat} (hinner : ProgramsDerived bound)
    (hf : (labelsAll f).length ≤ bound) (h : Clean (oneOrMore statementTrees) f) :
    ∃ ss : Statements, f = ss.forest := by
  obtain ⟨g, g', rfl, hfirst, hmore⟩ := h.of_mul
  obtain ⟨gs, rfl, hgs⟩ := hmore.of_star
  clear h hmore
  induction gs generalizing g with
  | nil =>
    rw [List.flatten_nil, List.append_nil] at hf ⊢
    obtain ⟨s, rfl⟩ := exists_statement hinner hf hfirst
    exact ⟨.last s, rfl⟩
  | cons v gs ih =>
    rw [List.flatten_cons, labelsAll_append, List.length_append] at hf
    obtain ⟨s, rfl⟩ := exists_statement hinner (by omega) hfirst
    obtain ⟨ss, hss⟩ := ih v (hgs v List.mem_cons_self)
      (fun u hu => hgs u (List.mem_cons_of_mem _ hu)) (by omega)
    exact ⟨.more s ss, by rw [List.flatten_cons, hss]; rfl⟩

/-- A program by induction on the number of its nodes. -/
theorem programsDerived (bound : Nat) : ProgramsDerived bound := by
  induction bound with
  | zero =>
    intro f hf h
    rcases h.of_optional with rfl | h
    · exact ⟨.empty, rfl⟩
    · obtain ⟨g, g', rfl, hbody, -⟩ := h.of_mul
      obtain ⟨children, rfl, -⟩ := hbody.of_child
      simp [labelsAll, Rose.labels] at hf
  | succ bound ih =>
    intro f hf h
    rcases h.of_optional with rfl | h
    · exact ⟨.empty, rfl⟩
    · obtain ⟨g, g', rfl, hbody, hmore⟩ := h.of_mul
      obtain ⟨children, rfl, hinside⟩ := hbody.of_child
      simp only [List.singleton_append, labelsAll, Rose.labels, List.length_append,
        List.length_cons] at hf
      obtain ⟨body, rfl⟩ := exists_statements ih (by omega) hinside
      rcases hmore.of_optional with rfl | hmore
      · exact ⟨.plain body, rfl⟩
      · obtain ⟨u, v, rfl, helse, hother⟩ := hmore.of_mul
        obtain ⟨children, rfl, hinside⟩ := hother.of_add_error.of_child
        obtain rfl := helse.exists_elseTag
        simp only [List.singleton_append, labelsAll, Rose.labels, List.length_append,
          List.length_cons] at hf
        obtain ⟨other, rfl⟩ := exists_statements ih (by omega) hinside
        exact ⟨.alternative body other, rfl⟩

theorem exists_program (h : Clean programTrees f) : ∃ p : Program, f = p.forest :=
  programsDerived _ f (Nat.le_refl _) h

/-- A template without errors is a single program. -/
theorem exists_program_of_template (h : Clean templateTrees f) : ∃ p : Program, f = p.forest := by
  obtain ⟨g, g', rfl, hprogram, hmore⟩ := h.of_mul
  obtain ⟨gs, rfl, hgs⟩ := hmore.of_star
  cases gs with
  | nil =>
    obtain ⟨p, rfl⟩ := hprogram.exists_program
    exact ⟨p, List.append_nil _⟩
  | cons v gs => exact (hgs v List.mem_cons_self).of_error_mul.elim

end Clean

end Rose

end TemplateTree
