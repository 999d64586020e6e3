import TemplateTree.Proofs.Rose.Laying
import TemplateTree.Proofs.Tree.Arena

/-!
# Where blank tokens come to stand

A node that has tokens pulls the blank tokens that come next in front of it, so it
starts with a significant token, and it ends with the last of its significant
tokens. A node without tokens pulls nothing: it stands right behind the token
before it. That token is significant unless blank tokens were pulled for a node
around it that has tokens of its own later on. There is no such node in a firm
forest, where a node that has tokens has one in its first child.
-/

namespace TemplateTree

open Token

namespace Rose

variable {τ : Type}

/-- The first of the trees has a token. -/
def Opens : List (Rose τ) → Prop
  | [] => False
  | r :: _ => r.leaves ≠ []

theorem Opens.append {rs : List (Rose τ)} (h : Opens rs) (ss : List (Rose τ)) :
    Opens (rs ++ ss) := by
  cases rs with
  | nil => exact h.elim
  | cons r rs => exact h

theorem Opens.leavesAll_ne {rs : List (Rose τ)} (h : Opens rs) : leavesAll rs ≠ [] := by
  cases rs with
  | nil => exact h.elim
  | cons r rs => exact fun hnil => h (List.append_eq_nil_iff.mp hnil).1

/-- If there are tokens at all, the first of the trees has one. -/
def Leads (rs : List (Rose τ)) : Prop := leavesAll rs = [] ∨ Opens rs

theorem Leads.nil : Leads ([] : List (Rose τ)) := .inl rfl

theorem Leads.singleton (r : Rose τ) : Leads [r] := by
  by_cases h : r.leaves = []
  · exact .inl (by simpa [leavesAll] using h)
  · exact .inr h

mutual

/-- Every node that has tokens has one in its first child. -/
def Firm : Rose τ → Prop
  | token _ => True
  | node _ children => Leads children ∧ FirmAll children

def FirmAll : List (Rose τ) → Prop
  | [] => True
  | r :: rs => Firm r ∧ FirmAll rs

end

theorem firmAll_append {rs ss : List (Rose τ)} :
    FirmAll (rs ++ ss) ↔ FirmAll rs ∧ FirmAll ss := by
  induction rs with
  | nil => simp [FirmAll]
  | cons r rs ih => simp [FirmAll, ih, and_assoc]

theorem firmAll_map_token (ts : List τ) : FirmAll (ts.map .token) := by
  induction ts with
  | nil => trivial
  | cons t ts ih => exact ⟨trivial, ih⟩

mutual

/-- A condition holds at every node of a tree that stands at a place. -/
def Everywhere (P : Place → List (Rose Token) → Prop) (p : Place) : Rose Token → Prop
  | token _ => True
  | node _ children => P p children ∧ EverywhereAll P (placeInside p) children

def EverywhereAll (P : Place → List (Rose Token) → Prop) (p : Place) : List (Rose Token) → Prop
  | [] => True
  | r :: rs => Everywhere P p r ∧ EverywhereAll P (placeAfter p [r]) rs

end

theorem everywhereAll_append {P : Place → List (Rose Token) → Prop} {p : Place}
    {rs ss : List (Rose Token)} :
    EverywhereAll P p (rs ++ ss) ↔ EverywhereAll P p rs ∧ EverywhereAll P (placeAfter p rs) ss := by
  induction rs generalizing p with
  | nil => simp [EverywhereAll, placeAfter, leavesAll, labelsAll]
  | cons r rs ih =>
    rw [List.cons_append, EverywhereAll, EverywhereAll, ih, placeAfter_cons p r rs, and_assoc]

theorem everywhereAll_map_token (P : Place → List (Rose Token) → Prop) (p : Place)
    (ts : List Token) : EverywhereAll P p (ts.map .token) := by
  induction ts generalizing p with
  | nil => trivial
  | cons t ts ih => exact ⟨trivial, ih _⟩

mutual

theorem everywhere_of_forall {P : Place → List (Rose Token) → Prop} (h : ∀ p rs, P p rs)
    (p : Place) (r : Rose Token) : Everywhere P p r := by
  cases r with
  | token t => trivial
  | node label children => exact ⟨h _ _, everywhereAll_of_forall h _ children⟩

theorem everywhereAll_of_forall {P : Place → List (Rose Token) → Prop} (h : ∀ p rs, P p rs)
    (p : Place) (rs : List (Rose Token)) : EverywhereAll P p rs := by
  cases rs with
  | nil => trivial
  | cons r rs => exact ⟨everywhere_of_forall h p r, everywhereAll_of_forall h _ rs⟩

end

end Rose

namespace Token

/-- The last of the tokens, if there are any, is significant. -/
def Tidy (ts : List Token) : Prop := ∀ t ∈ ts.getLast?, t.isTrivia = false

theorem Tidy.nil : Tidy [] := by simp [Tidy]

theorem Tidy.append_of_ne_nil (ts : List Token) {us : List Token} (h : Tidy us) (hne : us ≠ []) :
    Tidy (ts ++ us) := by
  have hlast : (ts ++ us).getLast? = us.getLast? := by
    rw [List.getLast?_append, List.getLast?_eq_some_getLast hne, Option.some_or]
  rwa [Tidy, hlast]

theorem tidy_append_singleton (ts : List Token) {t : Token} (ht : t.isTrivia = false) :
    Tidy (ts ++ [t]) := by
  simpa [Tidy] using ht

end Token

namespace Rose

mutual

theorem leavesAll_lay_eq_nil (r : Rose Kind) (ts : List Token) (h : r.leaves = []) :
    leavesAll (lay r ts).1 = [] := by
  cases r with
  | token k => cases h
  | node label children =>
    have hc : leavesAll children = [] := h
    simp [lay, hc, leavesAll, leaves, leavesAll_layAll_eq_nil children ts hc]

/-- A forest without tokens takes none. -/
theorem leavesAll_layAll_eq_nil (rs : List (Rose Kind)) (ts : List Token)
    (h : leavesAll rs = []) : leavesAll (layAll rs ts).1 = [] := by
  cases rs with
  | nil => rfl
  | cons r rs =>
    obtain ⟨hr, hrs⟩ := List.append_eq_nil_iff.mp h
    simp [layAll, leavesAll_lay_eq_nil r ts hr, leavesAll_layAll_eq_nil rs _ hrs]

end

theorem ne_nil_of_significantKinds {laid rest : List Token} {ks more : List Kind}
    (hk : significantKinds (laid ++ rest) = ks ++ more) (hmore : significantKinds rest = more)
    (h : ks ≠ []) : laid ≠ [] := by
  rintro rfl
  rw [List.nil_append, hmore] at hk
  exact h (List.self_eq_append_left.mp hk)

theorem leavesAll_lay_ne_nil {r : Rose Kind} {ts : List Token} {more : List Kind}
    (hk : significantKinds ts = r.leaves ++ more) (h : r.leaves ≠ []) :
    leavesAll (lay r ts).1 ≠ [] :=
  ne_nil_of_significantKinds (by rwa [leavesAll_lay]) (significantAll_lay r ts more hk).2 h

theorem leavesAll_layAll_ne_nil {rs : List (Rose Kind)} {ts : List Token} {more : List Kind}
    (hk : significantKinds ts = leavesAll rs ++ more) (h : leavesAll rs ≠ []) :
    leavesAll (layAll rs ts).1 ≠ [] :=
  ne_nil_of_significantKinds (by rwa [leavesAll_layAll]) (significantAll_layAll rs ts more hk).2 h

/-- Once the blank tokens in front are pulled away, the first token that a forest takes
is significant. -/
theorem first_layAll {rs : List (Rose Kind)} {ts : List Token} {more : List Kind}
    (hk : significantKinds ts = leavesAll rs ++ more) (h : leavesAll rs ≠ []) :
    ∀ t ∈ (leavesAll (layAll rs (ts.drop (leadingBlanks ts))).1).head?, t.isTrivia = false := by
  obtain ⟨k, ks, hcons⟩ := List.exists_cons_of_ne_nil h
  rw [hcons] at hk
  obtain ⟨t, us, hdrop, ht, -, -⟩ := exists_of_significantKinds_cons hk
  have hsplit := leavesAll_layAll rs (ts.drop (leadingBlanks ts))
  intro u hu
  obtain ⟨vs, hvs⟩ := List.head?_eq_some_iff.mp hu
  rw [hvs, hdrop] at hsplit
  rwa [(List.cons.inj hsplit).1]

mutual

theorem tidy_lay (r : Rose Kind) (ts : List Token) (more : List Kind)
    (hk : significantKinds ts = r.leaves ++ more) : Tidy (leavesAll (lay r ts).1) := by
  cases r with
  | token k =>
    obtain ⟨t, us, hdrop, ht, -, -⟩ := exists_of_significantKinds_cons hk
    have htake : ts.take (leadingBlanks ts + 1) = ts.take (leadingBlanks ts) ++ [t] := by
      rw [List.take_add, hdrop]
      rfl
    rw [lay, leavesAll_map_token, htake]
    exact tidy_append_singleton _ ht
  | node label children =>
    by_cases hc : leavesAll children = []
    · rw [leavesAll_lay_eq_nil (.node label children) ts hc]
      exact .nil
    · have hdrop : significantKinds (ts.drop (leadingBlanks ts)) = leavesAll children ++ more :=
        (significantKinds_drop_leadingBlanks ts).trans hk
      have hinside := tidy_layAll children _ more hdrop
      have hne := leavesAll_layAll_ne_nil hdrop hc
      simp only [lay, if_neg hc, leavesAll_append, leavesAll_map_token, leavesAll, leaves,
        List.append_nil]
      exact hinside.append_of_ne_nil _ hne

/-- The last token that a forest takes is significant. -/
theorem tidy_layAll (rs : List (Rose Kind)) (ts : List Token) (more : List Kind)
    (hk : significantKinds ts = leavesAll rs ++ more) : Tidy (leavesAll (layAll rs ts).1) := by
  cases rs with
  | nil => exact .nil
  | cons r rs =>
    rw [leavesAll, List.append_assoc] at hk
    have hrest := (significantAll_lay r ts _ hk).2
    rw [layAll, leavesAll_append]
    by_cases hrs : leavesAll rs = []
    · rw [leavesAll_layAll_eq_nil rs _ hrs, List.append_nil]
      exact tidy_lay r ts _ hk
    · exact (tidy_layAll rs _ more hrest).append_of_ne_nil _ (leavesAll_layAll_ne_nil hrest hrs)

end

/-- What is known of a node that stands at a place over all the tokens: which of them
it has, that the first and the last of these are significant, and that the token
before it is significant if it has none. -/
structure Snug (all : List Token) (p : Place) (children : List (Rose Token)) : Prop where
  offset : p.offset = extent (all.take p.token)
  tokens : leavesAll children <+: all.drop p.token
  first : ∀ t ∈ (leavesAll children).head?, t.isTrivia = false
  last : Tidy (leavesAll children)
  empty : leavesAll children = [] → Tidy (all.take p.token)

/-- The place behind these tokens. -/
def Behind (before : List Token) (p : Place) : Prop :=
  p.token = before.length ∧ p.offset = extent before

theorem Behind.after {before : List Token} {p : Place} (h : Behind before p)
    (rs : List (Rose Token)) : Behind (before ++ leavesAll rs) (placeAfter p rs) := by
  simp [Behind, placeAfter, h.1, h.2]

mutual

theorem everywhere_snug_lay (all : List Token) (r : Rose Kind) (before ts : List Token)
    (more : List Kind) (p : Place) (hall : all = before ++ ts) (hp : Behind before p)
    (hk : significantKinds ts = r.leaves ++ more) (hfirm : Firm r)
    (hstart : r.leaves ≠ [] ∨ Tidy before) : EverywhereAll (Snug all) p (lay r ts).1 := by
  cases r with
  | token k => exact everywhereAll_map_token _ _ _
  | node label children =>
    obtain ⟨hleads, hinside⟩ := hfirm
    by_cases hc : leavesAll children = []
    · have htidy : Tidy before := hstart.resolve_left (fun h => h hc)
      have hnone := leavesAll_layAll_eq_nil children ts hc
      have htake : all.take p.token = before := by rw [hall, hp.1, List.take_left]
      simp only [lay, if_pos hc, List.take_zero, List.map_nil, List.drop_zero, List.nil_append]
      refine ⟨⟨?_, ?_⟩, trivial⟩
      · refine ⟨?_, ?_, ?_, ?_, fun _ => ?_⟩
        · rw [htake, hp.2]
        · rw [hnone]
          exact List.nil_prefix
        · simp [hnone]
        · rw [hnone]
          exact .nil
        · rwa [htake]
      · exact everywhereAll_snug_layAll all children before ts more (placeInside p) hall hp hk
          hinside (.inr htidy)
    · have hk' : significantKinds (ts.drop (leadingBlanks ts)) = leavesAll children ++ more :=
        (significantKinds_drop_leadingBlanks ts).trans hk
      have hne := leavesAll_layAll_ne_nil hk' hc
      let before' := before ++ ts.take (leadingBlanks ts)
      let p' := placeAfter p ((ts.take (leadingBlanks ts)).map .token)
      have hp' : Behind before' p' := by
        have h := hp.after ((ts.take (leadingBlanks ts)).map .token)
        rwa [leavesAll_map_token] at h
      have hall' : all = before' ++ ts.drop (leadingBlanks ts) := by
        rw [hall, List.append_assoc, List.take_append_drop]
      have htake : all.take p'.token = before' := by rw [hall', hp'.1, List.take_left]
      have hdrop : all.drop p'.token = ts.drop (leadingBlanks ts) := by
        rw [hall', hp'.1, drop_length_append]
      simp only [lay, if_neg hc]
      refine everywhereAll_append.mpr ⟨everywhereAll_map_token _ _ _, ⟨⟨?_, ?_⟩, trivial⟩⟩
      · refine ⟨?_, ?_, ?_, tidy_layAll children _ more hk', fun hnil => absurd hnil hne⟩
        · rw [htake]
          exact hp'.2
        · rw [hdrop]
          exact ⟨_, leavesAll_layAll children _⟩
        · exact first_layAll hk hc
      · exact everywhereAll_snug_layAll all children before' _ more (placeInside p') hall' hp' hk'
          hinside (.inl (hleads.resolve_left hc))

/-- Wherever a firm forest is laid over the tokens that come next, its nodes are snug,
provided that it starts with a token or the token before it is significant. -/
theorem everywhereAll_snug_layAll (all : List Token) (rs : List (Rose Kind))
    (before ts : List Token) (more : List Kind) (p : Place) (hall : all = before ++ ts)
    (hp : Behind before p) (hk : significantKinds ts = leavesAll rs ++ more)
    (hfirm : FirmAll rs) (hstart : Opens rs ∨ Tidy before) :
    EverywhereAll (Snug all) p (layAll rs ts).1 := by
  cases rs with
  | nil => trivial
  | cons r rs =>
    rw [leavesAll, List.append_assoc] at hk
    have hrest := (significantAll_lay r ts _ hk).2
    have hsplit := leavesAll_lay r ts
    have hall' : all = (before ++ leavesAll (lay r ts).1) ++ (lay r ts).2 := by
      rw [hall, List.append_assoc, hsplit]
    have htidy : Tidy (before ++ leavesAll (lay r ts).1) := by
      by_cases hr : r.leaves = []
      · rw [leavesAll_lay_eq_nil r ts hr, List.append_nil]
        exact hstart.resolve_left (fun h => h hr)
      · exact (tidy_lay r ts _ hk).append_of_ne_nil _ (leavesAll_lay_ne_nil hk hr)
    rw [layAll]
    exact everywhereAll_append.mpr
      ⟨everywhere_snug_lay all r before ts _ p hall hp hk hfirm.1 hstart,
        everywhereAll_snug_layAll all rs _ _ more _ hall' (hp.after _) hrest hfirm.2
          (.inr htidy)⟩

end

end Rose

end TemplateTree
