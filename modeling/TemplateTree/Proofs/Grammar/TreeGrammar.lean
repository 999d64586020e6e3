import Mathlib.Computability.RegularExpressions
import TemplateTree.Rose

/-!
# The grammar of trees

What may stand below a node of each kind, as a regular expression over the
tokens and nodes that are its children. Errors may hold anything. The rules
cover broken templates as well as well-formed ones: an error may stand where a
part is missing, and between the inside of a tag and its end there may be up to
three errors over what was skipped.

There are two sets of rules. In the strict one the inside of an end tag or of
a partial is missing without an error of its own only if an error comes before
the closing delimiter; in the plain one this condition is dropped. A forest is
shaped by a pattern if its trees match the pattern and everything below them
obeys the strict rules.
-/

namespace TemplateTree

/-- What is seen of a child from above. -/
inductive Symbol where
  | token (kind : Kind)
  | node (kind : Kind)
  deriving DecidableEq, Repr

def Symbol.isNode : Symbol → Bool
  | .token _ => false
  | .node _ => true

/-- A description of the children of a node from left to right. -/
abbrev Pattern := RegularExpression Symbol

namespace Pattern

/-- The symbols that a pattern mentions. -/
def symbols : Pattern → List Symbol
  | .zero => []
  | .epsilon => []
  | .char s => [s]
  | .plus P Q => symbols P ++ symbols Q
  | .comp P Q => symbols P ++ symbols Q
  | .star P => symbols P

/-- What matches a pattern consists of symbols that it mentions. -/
theorem mem_symbols {P : Pattern} {w : List Symbol} (hw : w ∈ P.matches') {s : Symbol}
    (hs : s ∈ w) : s ∈ symbols P := by
  induction P generalizing w with
  | zero => exact absurd hw (Language.notMem_zero w)
  | epsilon =>
    obtain rfl : w = [] := (Language.mem_one w).mp hw
    cases hs
  | char a =>
    obtain rfl : w = [a] := hw
    exact hs
  | plus P Q ihP ihQ =>
    rcases hw with hw | hw
    · exact List.mem_append_left _ (ihP hw hs)
    · exact List.mem_append_right _ (ihQ hw hs)
  | comp P Q ihP ihQ =>
    obtain ⟨u, hu, v, hv, rfl⟩ := Language.mem_mul.mp hw
    rcases List.mem_append.mp hs with hs | hs
    · exact List.mem_append_left _ (ihP hu hs)
    · exact List.mem_append_right _ (ihQ hv hs)
  | star P ih =>
    obtain ⟨ws, rfl, hws⟩ := Language.mem_kstar.mp hw
    obtain ⟨u, hu, hs⟩ := List.mem_flatten.mp hs
    exact ih (hws u hu) hs

end Pattern

def Rose.symbol : Rose Kind → Symbol
  | .token k => .token k
  | .node label _ => .node label.kind

namespace TreeGrammar

/-- A token of a kind. -/
def word (k : Kind) : Pattern := .char (.token k)

/-- A node of a kind. -/
def child (k : Kind) : Pattern := .char (.node k)

def optional (P : Pattern) : Pattern := 1 + P

def oneOrMore (P : Pattern) : Pattern := P * P.star

/-- The end of a tag that does not come right where it is expected. -/
def lateClosing : Pattern :=
  child .error * child .close
    + child .error * (child .error * (optional (child .error) * (child .close + child .error)))

/-- The end of a tag. -/
def closing : Pattern := child .close + lateClosing

/-- The trees of a program. -/
def programTrees : Pattern :=
  optional (child .statements
    * optional (child .elseTag * (child .statements + child .error)))

/-- The trees of a statement: a block lies flat among its siblings. -/
def statementTrees : Pattern :=
  word .content + child .comment + child .mustache + child .partialTag
    + (child .blockTag + child .inverseTag) * (programTrees * (child .endTag + child .error))

/-- What stands below the root: programs with an error between any two. -/
def templateTrees : Pattern := programTrees * (child .error * programTrees).star

/-- What stands below a node that is neither an error nor the root. -/
def contents : Kind → Pattern
  | .path => child .ident * ((child .separator * child .ident).star
      * optional (child .separator * child .error))
  | .param => child .path + child .string + child .integer + child .boolean
  | .params => oneOrMore (child .param)
  | .hashPair => child .ident * (child .equals * child .param)
  | .hash => oneOrMore (child .hashPair) * optional (child .error) + child .error
  | .expression => child .path
      * optional (child .hash + child .params * optional (child .hash))
  | .mustache => (child .openValue + child .openRaw)
      * ((child .expression + child .error) * closing)
  | .blockTag => child .openBlock * ((child .expression + child .error) * closing)
  | .inverseTag => child .openInverse * ((child .expression + child .error) * closing)
  | .endTag => child .openEnd * (optional (child .path + child .error) * closing)
  | .partialTag => child .openPartial
      * (optional (child .path * optional (child .path) + child .error) * closing)
  | .elseTag => child .openInverse * child .close
  | .statements => oneOrMore statementTrees
  | .template | .endOfInput | .error | .placeholder => 0
  | k => word k

/-- As `contents`, but a tag without an inside ends late. -/
def strictContents : Kind → Pattern
  | .endTag => child .openEnd * ((child .path + child .error) * closing + lateClosing)
  | .partialTag => child .openPartial
      * ((child .path * optional (child .path) + child .error) * closing + lateClosing)
  | k => contents k

theorem nil_mem_optional (P : Pattern) : [] ∈ (optional P).matches' := .inl rfl

/-- Where the inside may be missing only before a late end, it may be missing. -/
theorem mem_optional_closing {P : Pattern} {w : List Symbol}
    (h : w ∈ (P * closing + lateClosing).matches') : w ∈ (optional P * closing).matches' := by
  rcases h with h | h
  · obtain ⟨u, hu, v, hv, rfl⟩ := Language.mem_mul.mp h
    exact Language.mem_mul.mpr ⟨u, .inr hu, v, hv, rfl⟩
  · exact Language.mem_mul.mpr ⟨[], nil_mem_optional P, w, .inr h, rfl⟩

/-- The strict rules are stricter than the plain ones. -/
theorem mem_contents_of_mem_strictContents (k : Kind) (w : List Symbol)
    (h : w ∈ (strictContents k).matches') : w ∈ (contents k).matches' := by
  have htag : ∀ (opening : Kind) (P : Pattern) (w : List Symbol),
      w ∈ (child opening * (P * closing + lateClosing)).matches' →
        w ∈ (child opening * (optional P * closing)).matches' := by
    intro opening P w hw
    obtain ⟨u, hu, v, hv, rfl⟩ := Language.mem_mul.mp hw
    exact Language.mem_mul.mpr ⟨u, hu, v, mem_optional_closing hv, rfl⟩
  cases k with
  | endTag => exact htag _ _ w h
  | partialTag => exact htag _ _ w h
  | _ => exact h

end TreeGrammar

open TreeGrammar

namespace Rose

mutual

/-- Every node of the tree obeys the rules, errors excepted. -/
def Conforms (rules : Kind → Pattern) : Rose Kind → Prop
  | token _ => True
  | node label children =>
    (label.kind ≠ .error → children.map symbol ∈ (rules label.kind).matches')
      ∧ ConformsAll rules children

def ConformsAll (rules : Kind → Pattern) : List (Rose Kind) → Prop
  | [] => True
  | r :: rs => Conforms rules r ∧ ConformsAll rules rs

end

variable {rules rules' : Kind → Pattern}

theorem conformsAll_append {rs ss : List (Rose Kind)} :
    ConformsAll rules (rs ++ ss) ↔ ConformsAll rules rs ∧ ConformsAll rules ss := by
  induction rs with
  | nil => simp [ConformsAll]
  | cons r rs ih => simp [ConformsAll, ih, and_assoc]

mutual

theorem Conforms.mono (h : ∀ k, ∀ w ∈ (rules k).matches', w ∈ (rules' k).matches')
    {r : Rose Kind} (hr : Conforms rules r) : Conforms rules' r := by
  cases r with
  | token k => trivial
  | node label children => exact ⟨fun hl => h _ _ (hr.1 hl), ConformsAll.mono h hr.2⟩

theorem ConformsAll.mono (h : ∀ k, ∀ w ∈ (rules k).matches', w ∈ (rules' k).matches')
    {rs : List (Rose Kind)} (hrs : ConformsAll rules rs) : ConformsAll rules' rs := by
  cases rs with
  | nil => trivial
  | cons r rs => exact ⟨Conforms.mono h hrs.1, ConformsAll.mono h hrs.2⟩

end

mutual

theorem Conforms.exists_matches {r : Rose Kind} (h : Conforms rules r) {k : Kind}
    (hk : k ≠ .error) {l : Label} (hl : l ∈ r.labels) (he : l.kind = k) :
    ∃ w, w ∈ (rules k).matches' := by
  cases r with
  | token k' => cases hl
  | node label children =>
    rcases List.mem_cons.mp hl with rfl | hl
    · subst he
      exact ⟨_, h.1 hk⟩
    · exact ConformsAll.exists_matches h.2 hk hl he

/-- Where a kind labels a node, its rule can be satisfied. -/
theorem ConformsAll.exists_matches {rs : List (Rose Kind)} (h : ConformsAll rules rs) {k : Kind}
    (hk : k ≠ .error) {l : Label} (hl : l ∈ labelsAll rs) (he : l.kind = k) :
    ∃ w, w ∈ (rules k).matches' := by
  cases rs with
  | nil => cases hl
  | cons r rs =>
    rcases List.mem_append.mp hl with hl | hl
    · exact Conforms.exists_matches h.1 hk hl he
    · exact ConformsAll.exists_matches h.2 hk hl he

end

/-- The trees match the pattern, and all below them obeys the strict rules. -/
structure Shaped (P : Pattern) (f : List (Rose Kind)) : Prop where
  symbols : f.map symbol ∈ P.matches'
  below : ConformsAll strictContents f

namespace Shaped

variable {P Q : Pattern} {f g : List (Rose Kind)}

theorem nil : Shaped 1 [] := ⟨rfl, trivial⟩

theorem word (k : Kind) : Shaped (word k) [.token k] := ⟨rfl, trivial, trivial⟩

theorem append (hf : Shaped P f) (hg : Shaped Q g) : Shaped (P * Q) (f ++ g) :=
  ⟨Language.mem_mul.mpr ⟨_, hf.symbols, _, hg.symbols, List.map_append.symm⟩,
    conformsAll_append.mpr ⟨hf.below, hg.below⟩⟩

theorem left (hf : Shaped P f) : Shaped (P + Q) f := ⟨.inl hf.symbols, hf.below⟩

theorem right (hf : Shaped Q f) : Shaped (P + Q) f := ⟨.inr hf.symbols, hf.below⟩

theorem absent : Shaped (optional P) [] := nil.left

theorem present (hf : Shaped P f) : Shaped (optional P) f := hf.right

theorem star_nil : Shaped P.star [] := ⟨Language.nil_mem_kstar _, trivial⟩

theorem star_append (hf : Shaped P f) (hg : Shaped P.star g) : Shaped P.star (f ++ g) := by
  obtain ⟨ws, hws, hmem⟩ := Language.mem_kstar.mp hg.symbols
  refine ⟨Language.mem_kstar.mpr ⟨f.map symbol :: ws, ?_, ?_⟩, (hf.append hg).below⟩
  · rw [List.map_append, hws, List.flatten_cons]
  · intro w hw
    rcases List.mem_cons.mp hw with rfl | hw
    · exact hf.symbols
    · exact hmem w hw

/-- A forest whose pattern mentions no tokens consists of nodes. -/
theorem isNode (h : Shaped P f) (hP : ∀ s ∈ Pattern.symbols P, s.isNode = true)
    {r : Rose Kind} (hr : r ∈ f) : ∃ label children, r = .node label children := by
  cases r with
  | token k => cases hP _ (Pattern.mem_symbols h.symbols (List.mem_map_of_mem hr))
  | node label children => exact ⟨label, children, rfl⟩

theorem of_mul (h : Shaped (P * Q) f) : ∃ g g', f = g ++ g' ∧ Shaped P g ∧ Shaped Q g' := by
  obtain ⟨u, hu, v, hv, he⟩ := Language.mem_mul.mp h.symbols
  obtain ⟨g, g', rfl, rfl, rfl⟩ := List.map_eq_append_iff.mp he.symm
  obtain ⟨hg, hg'⟩ := conformsAll_append.mp h.below
  exact ⟨g, g', rfl, ⟨hu, hg⟩, ⟨hv, hg'⟩⟩

/-- One more of the trees that may be repeated in front. -/
theorem star_mul_append (hf : Shaped P f) (hg : Shaped (P.star * Q) g) :
    Shaped (P.star * Q) (f ++ g) := by
  obtain ⟨u, v, rfl, hu, hv⟩ := of_mul hg
  rw [← List.append_assoc]
  exact (star_append hf hu).append hv

/-- A node of a plain kind around what may stand below it. -/
theorem node {k : Kind} (hf : Shaped (strictContents k) f) :
    Shaped (child k) [.node (.plain k) f] :=
  ⟨rfl, ⟨fun _ => hf.symbols, hf.below⟩, trivial⟩

/-- An error around anything. -/
theorem failure (hf : ConformsAll strictContents f) (message : String) :
    Shaped (child .error) [.node (.failure message) f] :=
  ⟨rfl, ⟨fun h => absurd rfl h, hf⟩, trivial⟩

end Shaped

end Rose

end TemplateTree
