import TemplateTree.Proofs.Rose.Serialization
import TemplateTree.Proofs.Tree.Coverage

/-!
# Building and walking

A builder accepts exactly the serializations of trees whose root is a node and
whose tokens cover the text. The steps that were accepted are kept as an invariant
of the builder: so many nodes are open as have started and not finished, and
the offset is the length of the tokens. A walk from the root of what was built
then shows the steps again, with every element at the number and at the offset
that counting along the steps gives it.
-/

namespace TemplateTree

open Rose

/-- What comes of two steps comes of the second after the first has succeeded. -/
theorem exists_ok_of_bind {ε α β : Type} {x : Except ε α} {f : α → Except ε β} {b : β}
    (h : x.bind f = .ok b) : ∃ a, x = .ok a ∧ f a = .ok b := by
  cases x with
  | error e => cases h
  | ok a => exact ⟨a, rfl, h⟩

namespace Builder

/-- Carries out the steps that build a whole tree over a text. -/
def build (text : String) (ss : List BuildStep) : Except Fault Tree :=
  ((start text).applyAll ss).bind finish

variable {b c : Builder}

theorem openNode_ok {label : Label} (h : b.openNode label = .ok c) :
    (b.depth = 0 → b.nodes.size = 0) ∧ c = b.opened label := by
  obtain ⟨text, nodes, tokens, frames, offset⟩ := b
  cases frames with
  | nil =>
    by_cases hnodes : nodes = #[]
    · subst hnodes
      rw [openNode_eq_opened fun _ => rfl] at h
      exact ⟨fun _ => rfl, (Except.ok.inj h).symm⟩
    · simp [openNode, hnodes] at h
  | cons f fs =>
    rw [openNode_eq_opened (by simp)] at h
    exact ⟨by simp [depth], (Except.ok.inj h).symm⟩

theorem depth_addChild (e : Element) (fs : List Frame) : (addChild e fs).length = fs.length := by
  cases fs <;> rfl

theorem addToken_ok {t : Token} (h : b.addToken t = .ok c) :
    b.depth ≠ 0 ∧ c.depth = b.depth ∧ c.nodes = b.nodes ∧ c.text = b.text ∧
      c.offset = b.offset + t.length ∧ c.offset < offsetLimit := by
  obtain ⟨text, nodes, tokens, frames, offset⟩ := b
  cases frames with
  | nil => simp [addToken] at h
  | cons f fs =>
    unfold addToken advance? at h
    by_cases hlimit : offset + t.length < offsetLimit
    · by_cases hbeyond : text.utf8ByteSize < offset + t.length
      · simp [hlimit, hbeyond] at h
      · simp only [hlimit, hbeyond, if_true, if_false, Except.ok.injEq] at h
        subst h
        simp [depth, depth_addChild, hlimit]
    · simp [hlimit] at h

theorem closeNode_ok (h : b.closeNode = .ok c) :
    b.depth = c.depth + 1 ∧ c.nodes.size = b.nodes.size ∧ c.text = b.text ∧
      c.offset = b.offset := by
  obtain ⟨text, nodes, tokens, frames, offset⟩ := b
  cases frames with
  | nil => simp [closeNode] at h
  | cons f fs =>
    simp only [closeNode, Except.ok.injEq] at h
    subst h
    simp [depth, depth_addChild]

theorem finish_ok {t : Tree} (h : b.finish = .ok t) :
    b.depth = 0 ∧ b.nodes.size ≠ 0 ∧ b.offset = b.text.utf8ByteSize := by
  unfold finish at h
  by_cases hframes : b.frames = []
  · by_cases hnodes : b.nodes = #[]
    · simp [hframes, hnodes] at h
    · by_cases hoffset : b.offset = b.text.utf8ByteSize
      · simp [depth, hframes, hnodes, hoffset]
      · simp [hframes, hnodes, hoffset] at h
  · simp [hframes] at h

/-- The builder stands over the text where the steps have led it. -/
structure Reflects (b : Builder) (text : String) (ss : List BuildStep) : Prop where
  stage : Stage b.depth b.nodes.size ss
  text_eq : b.text = text
  offset_eq : b.offset = extent (ss.filterMap BuildStep.token?)
  offset_lt : b.offset < offsetLimit

theorem reflects_start (text : String) : (start text).Reflects text [] :=
  ⟨.fresh, rfl, rfl, show 0 < offsetLimit by decide⟩

theorem Reflects.apply {text : String} {ss : List BuildStep} {s : BuildStep}
    (hb : b.Reflects text ss) (h : b.apply s = .ok c) : c.Reflects text (ss ++ [s]) := by
  obtain ⟨hstage, htext, hoffset, hlimit⟩ := hb
  rw [extent] at hoffset
  cases s with
  | start label =>
    obtain ⟨hroot, rfl⟩ := openNode_ok h
    constructor
    · simpa [opened, depth] using hstage.start label hroot
    · exact htext
    · simp [opened, extent, hoffset, List.filterMap_cons]
    · exact hlimit
  | token t =>
    obtain ⟨hopen, hdepth, hnodes, htext', hoffset', hlimit'⟩ := addToken_ok h
    constructor
    · rw [hdepth, hnodes]
      exact hstage.add (.token t) hopen
    · exact htext'.trans htext
    · simp [hoffset', hoffset, extent]
    · exact hlimit'
  | finish =>
    obtain ⟨hdepth, hnodes, htext', hoffset'⟩ := closeNode_ok h
    rw [hdepth] at hstage
    constructor
    · rw [hnodes]
      exact hstage.finish
    · exact htext'.trans htext
    · simp [hoffset', hoffset, extent, List.filterMap_cons]
    · rw [hoffset']
      exact hlimit

theorem Reflects.applyAll {text : String} {ss ts : List BuildStep} (hb : b.Reflects text ss)
    (h : b.applyAll ts = .ok c) : c.Reflects text (ss ++ ts) := by
  induction ts generalizing b ss with
  | nil =>
    obtain rfl := Except.ok.inj h
    simpa using hb
  | cons s ts ih =>
    rw [applyAll_cons] at h
    obtain ⟨d, hs, hothers⟩ := exists_ok_of_bind h
    simpa using ih (hb.apply hs) hothers

/-- What is accepted is the serialization of a node over the text. -/
theorem exists_node_of_build {text : String} {ss : List BuildStep} {t : Tree}
    (h : build text ss = .ok t) :
    ∃ label children, (Rose.node label children).steps = ss ∧
      extent (leavesAll children) = text.utf8ByteSize ∧ text.utf8ByteSize < offsetLimit := by
  unfold build at h
  obtain ⟨b, hall, hfinish⟩ := exists_ok_of_bind h
  obtain ⟨hdepth, hnodes, hcovered⟩ := finish_ok hfinish
  obtain ⟨hstage, htext, hoffset, hlimit⟩ := (reflects_start text).applyAll hall
  rw [List.nil_append] at hstage hoffset
  rw [hdepth] at hstage
  rw [hcovered, htext] at hoffset hlimit
  generalize b.nodes.size = count at hstage hnodes
  cases hstage with
  | fresh => exact absurd rfl hnodes
  | finished label children count =>
    rw [filterMap_steps] at hoffset
    exact ⟨label, children, rfl, hoffset.symm, hlimit⟩

/-- The serialization of a node over the text builds the tables of that node. -/
theorem build_steps {text : String} {label : Label} {children : List (Rose Token)}
    (hextent : extent (leavesAll children) = text.utf8ByteSize)
    (hlimit : text.utf8ByteSize < offsetLimit) :
    build text (Rose.node label children).steps = .ok (arena text (.node label children)) := by
  have hroom : (start text).HasRoom (extent (leavesAll children)) := by
    constructor
    · show 0 + extent (leavesAll children) ≤ text.utf8ByteSize
      omega
    · exact hlimit
  rw [build, applyAll_node label children (start text) (fun _ => rfl) hroom]
  exact finish_withNode hextent

end Builder

/-- What a walk shows of an element when it comes by: the number with the label of a
node or with the kind and the span of a token. -/
inductive Sight where
  | node (index : Nat) (label : Label)
  | token (index : Nat) (kind : Kind) (span : Span)
  deriving DecidableEq, Repr

/-- A step of a walk with what it shows. -/
inductive Visit where
  | enter (sight : Sight)
  | leave (sight : Sight)
  deriving DecidableEq, Repr

namespace Tree

def sight (t : Tree) : Element → Sight
  | .node i => .node i (t.node i).label
  | .token i => .token i (t.token i).kind (t.token i).span

def visit (t : Tree) : WalkStep → Visit
  | .enter e => .enter (t.sight e)
  | .leave e => .leave (t.sight e)

end Tree

/-- The visits that steps stand for, from a place on and inside the open nodes: a start
enters a node with the next number, a finish leaves the innermost node that is open, and
a token with the next number is entered and left where the tokens before it end. -/
def transcript (p : Place) (opened : List Sight) : List BuildStep → List Visit
  | [] => []
  | .start label :: ss =>
    .enter (.node p.node label) :: transcript (placeInside p) (.node p.node label :: opened) ss
  | .token t :: ss =>
    let sight := .token p.token t.kind ⟨p.offset, p.offset + t.length⟩
    .enter sight :: .leave sight :: transcript (placeAfter p [.token t]) opened ss
  | .finish :: ss =>
    match opened with
    | [] => transcript p [] ss
    | innermost :: outer => .leave innermost :: transcript p outer ss

namespace Tree

theorem placeAfter_node (p : Place) (label : Label) (children : List (Rose Token)) :
    placeAfter p [.node label children] = placeAfter (placeInside p) children := by
  simp [placeAfter, placeInside, labelsAll, labels, leavesAll, leaves]
  omega

mutual

theorem map_visit_walkUpTo {t : Tree} {parent : Option Nat} {p : Place} (r : Rose Token)
    (h : Embeds t parent p r) (depth : Nat) (hd : r.labels.length < depth) (opened : List Sight)
    (later : List BuildStep) :
    transcript p opened (r.steps ++ later) =
      (t.walkUpTo depth (element p r)).map t.visit ++ transcript (placeAfter p [r]) opened later := by
  obtain ⟨depth, rfl⟩ := Nat.exists_eq_succ_of_ne_zero (Nat.ne_zero_of_lt hd)
  cases r with
  | token tok => simp [steps, transcript, element, walkUpTo, visit, sight, h.token_eq]
  | node label children =>
    have hinside : (labelsAll children).length < depth := by simpa [labels] using hd
    have hchildren := map_visit_walkUpTo_elements children h.children depth hinside
      (.node p.node label :: opened) (.finish :: later)
    have hsight : t.sight (.node p.node) = .node p.node label := by rw [sight, h.node_eq]
    rw [steps, List.cons_append, List.append_assoc, transcript]
    show _ :: transcript _ _ (stepsAll children ++ .finish :: later) = _
    rw [hchildren, transcript, element, walkUpTo, elements, h.node_eq, placeAfter_node]
    simp [visit, hsight]

/-- A walk through an embedded forest shows the steps of the forest. -/
theorem map_visit_walkUpTo_elements {t : Tree} {parent : Nat} {p : Place} (rs : List (Rose Token))
    (h : EmbedsAll t parent p rs) (depth : Nat) (hd : (labelsAll rs).length < depth)
    (opened : List Sight) (later : List BuildStep) :
    transcript p opened (stepsAll rs ++ later) =
      ((Rose.elements p rs).flatMap (t.walkUpTo depth)).map t.visit ++
        transcript (placeAfter p rs) opened later := by
  cases rs with
  | nil =>
    have hplace : placeAfter p [] = p := by simp [placeAfter, labelsAll, leavesAll]
    rw [hplace]
    rfl
  | cons r rs =>
    rw [labelsAll, List.length_append] at hd
    have hr := map_visit_walkUpTo r h.first depth (by omega) opened (stepsAll rs ++ later)
    have hrs := map_visit_walkUpTo_elements rs h.others depth (by omega) opened later
    rw [stepsAll, List.append_assoc, hr, hrs, placeAfter_cons p r rs, Rose.elements,
      List.flatMap_cons, List.map_append, List.append_assoc]

end

/-- The nodes that a walk enters. -/
def enteredNodes (steps : List WalkStep) : List Nat :=
  (entered steps).filterMap fun
    | .node j => some j
    | .token _ => none

@[simp] theorem enteredNodes_append (ss ts : List WalkStep) :
    enteredNodes (ss ++ ts) = enteredNodes ss ++ enteredNodes ts := by
  simp [enteredNodes, entered]

mutual

theorem enteredNodes_walkUpTo {t : Tree} {parent : Option Nat} {p : Place} (r : Rose Token)
    (h : Embeds t parent p r) (depth : Nat) (hd : r.labels.length < depth) :
    enteredNodes (t.walkUpTo depth (element p r)) = List.range' p.node r.labels.length := by
  obtain ⟨depth, rfl⟩ := Nat.exists_eq_succ_of_ne_zero (Nat.ne_zero_of_lt hd)
  cases r with
  | token tok => rfl
  | node label children =>
    have hinside : (labelsAll children).length < depth := by simpa [labels] using hd
    have hchildren := enteredNodes_walkUpTo_elements children h.children depth hinside
    have hnode : ∀ steps : List WalkStep, enteredNodes (.enter (.node p.node) ::
        (steps ++ [.leave (.node p.node)])) = p.node :: enteredNodes steps := by
      intro steps
      simp [enteredNodes, entered]
    rw [element, walkUpTo, elements, h.node_eq, hnode, hchildren, labels, List.length_cons,
      List.range'_succ]
    rfl

/-- A walk below an embedded forest enters its nodes by their numbers. -/
theorem enteredNodes_walkUpTo_elements {t : Tree} {parent : Nat} {p : Place}
    (rs : List (Rose Token)) (h : EmbedsAll t parent p rs) (depth : Nat)
    (hd : (labelsAll rs).length < depth) :
    enteredNodes ((Rose.elements p rs).flatMap (t.walkUpTo depth)) =
      List.range' p.node (labelsAll rs).length := by
  cases rs with
  | nil => rfl
  | cons r rs =>
    rw [labelsAll, List.length_append] at hd
    have hr := enteredNodes_walkUpTo r h.first depth (by omega)
    have hrs := enteredNodes_walkUpTo_elements rs h.others depth (by omega)
    rw [Rose.elements, List.flatMap_cons, enteredNodes_append, hr, hrs, labelsAll,
      List.length_append, ← List.range'_append_1]
    simp [placeAfter, labelsAll]

end

section

variable (text : String) (label : Label) (children : List (Rose Token))

/-- A walk from the root of an arena enters every node once, in the order of the table. -/
theorem descendants_arena :
    (arena text (.node label children)).descendants 0 =
      List.range (arena text (.node label children)).nodes.size := by
  have hsize := size_nodes_arena text (.node label children)
  have h := enteredNodes_walkUpTo _ (embeds_arena text (.node label children))
    ((arena text (.node label children)).nodes.size + 1) (by omega)
  rw [← hsize] at h
  exact h.trans List.range_eq_range'.symm

end

end Tree

end TemplateTree
