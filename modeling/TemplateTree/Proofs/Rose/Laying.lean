import TemplateTree.Proofs.Lists
import TemplateTree.Rose.Significant

/-!
# Trees laid over tokens

A forest over kinds is laid over a list of tokens of which some are blank. Each
leaf takes the next token that is not blank. Blank tokens that come before it
stand where the outermost node begins that has this leaf as its first token. A
node without leaves takes no token at all, so the blank tokens there go to
whatever follows. What the root does not need is put at its end.

Laying neither loses nor adds anything: the leaves of the result are the tokens
that were used up, and without the blank tokens the result is the forest again.
-/

namespace TemplateTree

namespace Token

/-- The kinds of the tokens that are not blank. -/
def significantKinds (ts : List Token) : List Kind :=
  (ts.map (·.kind)).filter fun k => !k.isTrivia

@[simp] theorem significantKinds_nil : significantKinds [] = [] := rfl

@[simp] theorem significantKinds_append (ts us : List Token) :
    significantKinds (ts ++ us) = significantKinds ts ++ significantKinds us := by
  simp [significantKinds]

theorem significantKinds_eq_nil {ts : List Token} (h : ∀ t ∈ ts, t.isTrivia = true) :
    significantKinds ts = [] := by
  simpa [significantKinds, Token.isTrivia] using h

theorem significantKinds_singleton {t : Token} (h : t.isTrivia = false) :
    significantKinds [t] = [t.kind] := by
  simp only [Token.isTrivia] at h
  simp [significantKinds, h]

/-- How many blank tokens stand in front. -/
def leadingBlanks (ts : List Token) : Nat := (ts.takeWhile Token.isTrivia).length

theorem take_leadingBlanks (ts : List Token) :
    ts.take (leadingBlanks ts) = ts.takeWhile Token.isTrivia := by
  induction ts with
  | nil => rfl
  | cons t ts ih =>
    by_cases h : t.isTrivia = true
    · simpa [leadingBlanks, h] using ih
    · simp [leadingBlanks, h]

theorem isTrivia_of_mem_take {ts : List Token} {t : Token}
    (h : t ∈ ts.take (leadingBlanks ts)) : t.isTrivia = true := by
  rw [take_leadingBlanks] at h
  exact List.all_eq_true.mp List.all_takeWhile t h

theorem significantKinds_drop_leadingBlanks (ts : List Token) :
    significantKinds (ts.drop (leadingBlanks ts)) = significantKinds ts := by
  have h : significantKinds (ts.take (leadingBlanks ts)) = [] :=
    significantKinds_eq_nil fun _ ht => isTrivia_of_mem_take ht
  calc significantKinds (ts.drop (leadingBlanks ts))
      = significantKinds (ts.take (leadingBlanks ts) ++ ts.drop (leadingBlanks ts)) := by
        rw [significantKinds_append, h, List.nil_append]
    _ = significantKinds ts := by rw [List.take_append_drop]

/-- The first token behind the blank ones is the first of the significant ones. -/
theorem exists_of_significantKinds_cons {ts : List Token} {k : Kind} {ks : List Kind}
    (h : significantKinds ts = k :: ks) :
    ∃ t us, ts.drop (leadingBlanks ts) = t :: us ∧ t.isTrivia = false ∧ t.kind = k ∧
      significantKinds us = ks := by
  induction ts with
  | nil => simp at h
  | cons t ts ih =>
    by_cases ht : t.isTrivia = true
    · have hts : significantKinds ts = k :: ks := by
        have hnil : significantKinds [t] = [] := significantKinds_eq_nil (by simpa using ht)
        rw [← h, ← List.singleton_append, significantKinds_append, hnil, List.nil_append]
      simpa [leadingBlanks, ht] using ih hts
    · rw [Bool.not_eq_true] at ht
      rw [← List.singleton_append, significantKinds_append, significantKinds_singleton ht] at h
      obtain ⟨rfl, rfl⟩ := List.cons.inj h
      exact ⟨t, ts, by simp [leadingBlanks, ht], ht, rfl, rfl⟩

end Token

namespace Rose

open Token

mutual

/-- Lays a tree over tokens: the trees that it becomes, with the blank tokens
that come before it, and the tokens that are not used. -/
def lay : Rose Kind → List Token → List (Rose Token) × List Token
  | token _, ts =>
    ((ts.take (leadingBlanks ts + 1)).map .token, ts.drop (leadingBlanks ts + 1))
  | node label children, ts =>
    let blanks := if leavesAll children = [] then 0 else leadingBlanks ts
    let inside := layAll children (ts.drop blanks)
    ((ts.take blanks).map .token ++ [.node label inside.1], inside.2)

def layAll : List (Rose Kind) → List Token → List (Rose Token) × List Token
  | [], ts => ([], ts)
  | r :: rs, ts =>
    let first := lay r ts
    let others := layAll rs first.2
    (first.1 ++ others.1, others.2)

end

theorem lay_leaf (k : Kind) {t : Token} (ht : t.isTrivia = false) (us : List Token) :
    lay (.token k) (t :: us) = ([.token t], us) := by
  simp [lay, leadingBlanks, ht]

theorem lay_node_leaf (label : Label) (k : Kind) {t : Token} (ht : t.isTrivia = false)
    (us : List Token) : lay (.node label [.token k]) (t :: us) = ([.node label [.token t]], us) := by
  simp [lay, layAll, leavesAll, leaves, leadingBlanks, ht]

/-- A leaf takes the next token that is not blank. -/
theorem lay_token {k : Kind} {ts : List Token} {more : List Kind}
    (h : significantKinds ts = k :: more) :
    ∃ (blanks : List Token) (t : Token) (us : List Token), (∀ b ∈ blanks, b.isTrivia = true) ∧
      t.isTrivia = false ∧ t.kind = k ∧ significantKinds us = more ∧
      lay (.token k) ts = (blanks.map .token ++ [.token t], us) := by
  obtain ⟨t, us, hdrop, ht, hkind, hus⟩ := exists_of_significantKinds_cons h
  have hrest : ts.drop (leadingBlanks ts + 1) = us := by
    rw [← List.drop_drop, hdrop]
    rfl
  have htake : ts.take (leadingBlanks ts + 1) = ts.take (leadingBlanks ts) ++ [t] := by
    rw [List.take_add, hdrop]
    rfl
  refine ⟨ts.take (leadingBlanks ts), t, us, fun _ => isTrivia_of_mem_take, ht, hkind, hus, ?_⟩
  rw [lay, hrest, htake, List.map_append]
  rfl

/-- A node is laid over all the tokens but some of the blank ones in front. -/
theorem lay_node (label : Label) (children : List (Rose Kind)) (ts : List Token) :
    ∃ blanks us : List Token, (∀ b ∈ blanks, b.isTrivia = true) ∧
      significantKinds us = significantKinds ts ∧ lay (.node label children) ts =
        (blanks.map .token ++ [.node label (layAll children us).1], (layAll children us).2) := by
  by_cases hnone : leavesAll children = []
  · refine ⟨[], ts, by simp, rfl, ?_⟩
    simp [lay, hnone]
  · refine ⟨ts.take (leadingBlanks ts), ts.drop (leadingBlanks ts), fun _ => isTrivia_of_mem_take,
      significantKinds_drop_leadingBlanks ts, ?_⟩
    rw [lay, if_neg hnone]

/-- A node with leaves is laid over tokens of which the first is not blank. -/
theorem lay_node_of_leaves (label : Label) (children : List (Rose Kind)) {ts : List Token}
    {k : Kind} {more : List Kind} (hne : leavesAll children ≠ [])
    (h : significantKinds ts = k :: more) :
    ∃ (blanks : List Token) (t : Token) (us : List Token), (∀ b ∈ blanks, b.isTrivia = true) ∧
      t.isTrivia = false ∧ t.kind = k ∧ significantKinds us = more ∧
      lay (.node label children) ts =
        (blanks.map .token ++ [.node label (layAll children (t :: us)).1],
          (layAll children (t :: us)).2) := by
  obtain ⟨t, us, hdrop, ht, hkind, hus⟩ := exists_of_significantKinds_cons h
  refine ⟨ts.take (leadingBlanks ts), t, us, fun _ => isTrivia_of_mem_take, ht, hkind, hus, ?_⟩
  rw [lay, if_neg hne, hdrop]

/-- A node over a single leaf takes the next token that is not blank. -/
theorem lay_single (label : Label) {k : Kind} {ts : List Token} {more : List Kind}
    (h : significantKinds ts = k :: more) :
    ∃ (blanks : List Token) (t : Token) (us : List Token), (∀ b ∈ blanks, b.isTrivia = true) ∧
      t.kind = k ∧ significantKinds us = more ∧
      lay (.node label [.token k]) ts = (blanks.map .token ++ [.node label [.token t]], us) := by
  obtain ⟨blanks, t, us, hblanks, ht, hkind, hus, hlay⟩ :=
    lay_node_of_leaves label [.token k] (by simp [leavesAll, leaves]) h
  refine ⟨blanks, t, us, hblanks, hkind, hus, ?_⟩
  rw [hlay]
  simp [layAll, lay_leaf k ht]

/-- A root over all of the tokens. -/
def layRoot (label : Label) (children : List (Rose Kind)) (ts : List Token) : Rose Token :=
  .node label ((layAll children ts).1 ++ (layAll children ts).2.map .token)

theorem leavesAll_map_token {τ : Type} (ts : List τ) : leavesAll (ts.map .token) = ts := by
  induction ts with
  | nil => rfl
  | cons t ts ih => simp [leavesAll, leaves, ih]

theorem labelsAll_map_token {τ : Type} (ts : List τ) : labelsAll (ts.map .token) = [] := by
  induction ts with
  | nil => rfl
  | cons t ts ih => simp [labelsAll, labels, ih]

/-- What is left of a row of tokens are the significant ones. -/
theorem significantAll_map_token (ts : List Token) :
    significantAll (ts.map .token) = (significantKinds ts).map .token := by
  induction ts with
  | nil => rfl
  | cons t ts ih =>
    have hsplit : significantKinds (t :: ts) = significantKinds [t] ++ significantKinds ts :=
      significantKinds_append [t] ts
    rw [hsplit, List.map_append, List.map_cons, significantAll, ih]
    congr 1
    by_cases ht : t.isTrivia = true
    · rw [significantKinds_eq_nil (by simpa using ht)]
      simp [significant, ht]
    · rw [Bool.not_eq_true] at ht
      rw [significantKinds_singleton ht]
      simp [significant, ht]

theorem significantAll_map_blank {ts : List Token} (h : ∀ t ∈ ts, t.isTrivia = true) :
    significantAll (ts.map .token) = [] := by
  rw [significantAll_map_token, significantKinds_eq_nil h, List.map_nil]

mutual

theorem leavesAll_lay (r : Rose Kind) (ts : List Token) :
    leavesAll (lay r ts).1 ++ (lay r ts).2 = ts := by
  cases r with
  | token k => simp [lay, leavesAll_map_token, -List.map_take]
  | node label children =>
    have h := fun us => leavesAll_layAll children us
    simp [lay, leavesAll_map_token, leavesAll, leaves, h, -List.map_take]

/-- Laying uses the tokens up from left to right. -/
theorem leavesAll_layAll (rs : List (Rose Kind)) (ts : List Token) :
    leavesAll (layAll rs ts).1 ++ (layAll rs ts).2 = ts := by
  cases rs with
  | nil => rfl
  | cons r rs =>
    simp [layAll, leavesAll_lay r ts, leavesAll_layAll rs (lay r ts).2]

end

theorem leaves_layRoot (label : Label) (rs : List (Rose Kind)) (ts : List Token) :
    (layRoot label rs ts).leaves = ts := by
  simp [layRoot, leaves, leavesAll_map_token, leavesAll_layAll]

mutual

theorem labelsAll_lay (r : Rose Kind) (ts : List Token) :
    labelsAll (lay r ts).1 = r.labels := by
  cases r with
  | token k => simp [lay, labelsAll_map_token, labels, -List.map_take]
  | node label children =>
    have h := fun us => labelsAll_layAll children us
    simp [lay, labelsAll_map_token, labelsAll, labels, h, -List.map_take]

theorem labelsAll_layAll (rs : List (Rose Kind)) (ts : List Token) :
    labelsAll (layAll rs ts).1 = labelsAll rs := by
  cases rs with
  | nil => rfl
  | cons r rs => simp [layAll, labelsAll, labelsAll_lay r ts, labelsAll_layAll rs (lay r ts).2]

end

theorem labels_layRoot (label : Label) (rs : List (Rose Kind)) (ts : List Token) :
    (layRoot label rs ts).labels = label :: labelsAll rs := by
  simp [layRoot, labels, labelsAll_map_token, labelsAll_layAll]

mutual

theorem significantAll_lay (r : Rose Kind) (ts : List Token) (more : List Kind)
    (h : significantKinds ts = r.leaves ++ more) :
    significantAll (lay r ts).1 = [r] ∧ significantKinds (lay r ts).2 = more := by
  cases r with
  | token k =>
    obtain ⟨blanks, t, us, hblanks, ht, rfl, hus, hlay⟩ := lay_token h
    simp [hlay, significantAll_map_blank hblanks, significantAll, significant, ht, hus]
  | node label children =>
    obtain ⟨blanks, us, hblanks, hus, hlay⟩ := lay_node label children ts
    obtain ⟨hin, hmore⟩ := significantAll_layAll children us more (hus.trans h)
    simp [hlay, significantAll_map_blank hblanks, hin, hmore, significantAll, significant]

/-- Without the blank tokens, laying gives the forest back, provided that the
tokens have the kinds of its leaves. -/
theorem significantAll_layAll (rs : List (Rose Kind)) (ts : List Token) (more : List Kind)
    (h : significantKinds ts = leavesAll rs ++ more) :
    significantAll (layAll rs ts).1 = rs ∧ significantKinds (layAll rs ts).2 = more := by
  cases rs with
  | nil => exact ⟨rfl, h⟩
  | cons r rs =>
    rw [leavesAll, List.append_assoc] at h
    obtain ⟨hr, hrest⟩ := significantAll_lay r ts _ h
    obtain ⟨hrs, hmore⟩ := significantAll_layAll rs _ more hrest
    simp [layAll, hr, hrs, hmore]

end

/-- What laying a forest leaves comes from laying its trees. -/
theorem exists_mem_lay {rs : List (Rose Kind)} {ts : List Token} {more : List Kind}
    (h : significantKinds ts = leavesAll rs ++ more) {r' : Rose Token}
    (hmem : r' ∈ (layAll rs ts).1) :
    ∃ r ∈ rs, ∃ us later, significantKinds us = r.leaves ++ later ∧ r' ∈ (lay r us).1 := by
  induction rs generalizing ts with
  | nil => cases hmem
  | cons r rs ih =>
    rw [leavesAll, List.append_assoc] at h
    rcases List.mem_append.mp hmem with hmem | hmem
    · exact ⟨r, List.mem_cons_self, ts, _, h, hmem⟩
    · obtain ⟨r₁, hr₁, hlay⟩ := ih (significantAll_lay r ts _ h).2 hmem
      exact ⟨r₁, List.mem_cons_of_mem r hr₁, hlay⟩

/-- What is left over after a forest that uses up all the significant tokens is blank. -/
theorem isTrivia_of_mem_layAll_rest {rs : List (Rose Kind)} {ts : List Token}
    (h : significantKinds ts = leavesAll rs) {t : Token} (ht : t ∈ (layAll rs ts).2) :
    t.isTrivia = true := by
  have hnil := (significantAll_layAll rs ts [] (by simpa using h)).2
  have hall : ∀ u ∈ (layAll rs ts).2, u.kind.isTrivia = true := by
    simpa [significantKinds] using hnil
  exact hall t ht

/-- Without the blank tokens, a root laid over tokens is the root over its forest
and over the tokens that the forest leaves. -/
theorem significant_layRoot (label : Label) (rs : List (Rose Kind)) (ts : List Token)
    (more : List Kind) (h : significantKinds ts = leavesAll rs ++ more) :
    (layRoot label rs ts).significant = [.node label (rs ++ more.map .token)] := by
  obtain ⟨hrs, hmore⟩ := significantAll_layAll rs ts more h
  rw [layRoot, significant, significantAll_append, hrs, significantAll_map_token, hmore]

/-- Between nodes that stand side by side there are no tokens but blank ones. -/
theorem isTrivia_of_token_mem_layAll {rs : List (Rose Kind)} (ts : List Token) {t : Token}
    (h : ∀ r ∈ rs, ∃ label children, r = .node label children)
    (ht : .token t ∈ (layAll rs ts).1) : t.isTrivia = true := by
  induction rs generalizing ts with
  | nil => simp [layAll] at ht
  | cons r rs ih =>
    obtain ⟨label, children, rfl⟩ := h r (by simp)
    obtain ⟨blanks, us, hblanks, -, hlay⟩ := lay_node label children ts
    rw [layAll, hlay, List.append_assoc, List.mem_append, List.mem_append, List.mem_singleton] at ht
    rcases ht with ht | ht | ht
    · obtain ⟨u, hu, he⟩ := List.mem_map.mp ht
      obtain rfl := Rose.token.inj he
      exact hblanks u hu
    · cases ht
    · exact ih _ (fun r hr => h r (by simp [hr])) ht

end Rose

end TemplateTree
