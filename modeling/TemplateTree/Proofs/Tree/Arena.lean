import TemplateTree.Proofs.Lists
import TemplateTree.Total
import TemplateTree.Tree.Builder

/-!
# The tables of a rose tree

The two tables of a tree can be read off a rose tree: nodes are numbered in
the order in which they open, tokens from left to right, and every element
covers the text of the tokens below it. A builder that carries out the steps of
a rose tree inside an open node appends exactly these records to its tables
and the elements of the tree to the children of that node. There is room for
them as long as the tokens do not reach beyond the end of the text.
-/

namespace TemplateTree

/-- Where a record comes to stand: the numbers of the next node and of the next
token, and the offset in the text. -/
structure Place where
  node : Nat
  token : Nat
  offset : Nat
  deriving DecidableEq, Repr

/-- The front of a text with no records. -/
def Place.front : Place := ⟨0, 0, 0⟩

namespace Rose

/-- Number of bytes that tokens cover together. -/
def extent (ts : List Token) : Nat := total Token.length ts

@[simp] theorem extent_nil : extent [] = 0 := rfl

theorem extent_cons (t : Token) (ts : List Token) : extent (t :: ts) = t.length + extent ts := rfl

@[simp] theorem extent_append (ts us : List Token) : extent (ts ++ us) = extent ts + extent us := by
  simp [extent]

/-- The place behind a forest. -/
def placeAfter (p : Place) (rs : List (Rose Token)) : Place :=
  ⟨p.node + (labelsAll rs).length, p.token + (leavesAll rs).length,
    p.offset + extent (leavesAll rs)⟩

theorem placeAfter_cons (p : Place) (r : Rose Token) (rs : List (Rose Token)) :
    placeAfter p (r :: rs) = placeAfter (placeAfter p [r]) rs := by
  simp [placeAfter, labelsAll, leavesAll, Nat.add_assoc]

/-- The place inside a node that opens here. -/
def placeInside (p : Place) : Place := ⟨p.node + 1, p.token, p.offset⟩

/-- The element that a tree becomes. -/
def element (p : Place) : Rose Token → Element
  | token _ => .token p.token
  | node .. => .node p.node

/-- The elements of a forest. -/
def elements (p : Place) : List (Rose Token) → List Element
  | [] => []
  | r :: rs => element p r :: elements (placeAfter p [r]) rs

mutual

/-- The node records of a tree below a node with the given number. -/
def nodeRecords (parent : Option Nat) (p : Place) : Rose Token → List NodeRecord
  | token _ => []
  | node label children =>
    ⟨label, parent, elements (placeInside p) children,
        ⟨p.offset, p.offset + extent (leavesAll children)⟩⟩
      :: nodeRecordsAll p.node (placeInside p) children

def nodeRecordsAll (parent : Nat) (p : Place) : List (Rose Token) → List NodeRecord
  | [] => []
  | r :: rs => nodeRecords (some parent) p r ++ nodeRecordsAll parent (placeAfter p [r]) rs

end

mutual

/-- The token records of a tree below a node with the given number. -/
def tokenRecords (parent : Nat) (p : Place) : Rose Token → List TokenRecord
  | token t => [⟨t.kind, ⟨p.offset, p.offset + t.length⟩, parent⟩]
  | node _ children => tokenRecordsAll p.node (placeInside p) children

def tokenRecordsAll (parent : Nat) (p : Place) : List (Rose Token) → List TokenRecord
  | [] => []
  | r :: rs => tokenRecords parent p r ++ tokenRecordsAll parent (placeAfter p [r]) rs

end

mutual

theorem length_nodeRecords (parent : Option Nat) (p : Place) (r : Rose Token) :
    (nodeRecords parent p r).length = r.labels.length := by
  cases r with
  | token t => rfl
  | node label children => simp [nodeRecords, labels, length_nodeRecordsAll _ _ children]

theorem length_nodeRecordsAll (parent : Nat) (p : Place) (rs : List (Rose Token)) :
    (nodeRecordsAll parent p rs).length = (labelsAll rs).length := by
  cases rs with
  | nil => rfl
  | cons r rs =>
    simp [nodeRecordsAll, labelsAll, length_nodeRecords _ _ r, length_nodeRecordsAll _ _ rs]

end

mutual

theorem length_tokenRecords (parent : Nat) (p : Place) (r : Rose Token) :
    (tokenRecords parent p r).length = r.leaves.length := by
  cases r with
  | token t => rfl
  | node label children => simp [tokenRecords, leaves, length_tokenRecordsAll _ _ children]

theorem length_tokenRecordsAll (parent : Nat) (p : Place) (rs : List (Rose Token)) :
    (tokenRecordsAll parent p rs).length = (leavesAll rs).length := by
  cases rs with
  | nil => rfl
  | cons r rs =>
    simp [tokenRecordsAll, leavesAll, length_tokenRecords _ _ r, length_tokenRecordsAll _ _ rs]

end

theorem nodeRecordsAll_append (parent : Nat) (p : Place) (rs ss : List (Rose Token)) :
    nodeRecordsAll parent p (rs ++ ss) =
      nodeRecordsAll parent p rs ++ nodeRecordsAll parent (placeAfter p rs) ss := by
  induction rs generalizing p with
  | nil => rfl
  | cons r rs ih =>
    rw [List.cons_append, nodeRecordsAll, nodeRecordsAll, ih, placeAfter_cons p r rs,
      List.append_assoc]

theorem tokenRecordsAll_append (parent : Nat) (p : Place) (rs ss : List (Rose Token)) :
    tokenRecordsAll parent p (rs ++ ss) =
      tokenRecordsAll parent p rs ++ tokenRecordsAll parent (placeAfter p rs) ss := by
  induction rs generalizing p with
  | nil => rfl
  | cons r rs ih =>
    rw [List.cons_append, tokenRecordsAll, tokenRecordsAll, ih, placeAfter_cons p r rs,
      List.append_assoc]

/-- The tree over a text whose tables are those of a rose tree. -/
def arena (text : String) (r : Rose Token) : Tree :=
  ⟨text, (nodeRecords none .front r).toArray, (tokenRecords 0 .front r).toArray⟩

end Rose

namespace Builder

open Rose

/-- Where the next record of a builder comes to stand. -/
def place (b : Builder) : Place := ⟨b.nodes.size, b.tokens.size, b.offset⟩

/-- Adds elements to the innermost open node. -/
def addChildren (es : List Element) : List Frame → List Frame
  | [] => []
  | f :: fs => { f with children := f.children ++ es.toArray } :: fs

/-- A builder inside the open node `parent` to which a forest is added. -/
def graft (b : Builder) (parent : Nat) (rs : List (Rose Token)) : Builder where
  text := b.text
  nodes := b.nodes ++ (nodeRecordsAll parent b.place rs).toArray
  tokens := b.tokens ++ (tokenRecordsAll parent b.place rs).toArray
  frames := addChildren (elements b.place rs) b.frames
  offset := b.offset + extent (leavesAll rs)

/-- There is room for so many bytes more. -/
def HasRoom (b : Builder) (bytes : Nat) : Prop :=
  b.offset + bytes ≤ b.text.utf8ByteSize ∧ b.text.utf8ByteSize < offsetLimit

/-- The innermost open node. -/
def innermost? (b : Builder) : Option Nat := b.frames.head?.map (·.node)

theorem graft_nil (b : Builder) (parent : Nat) : b.graft parent [] = b := by
  obtain ⟨text, nodes, tokens, frames, offset⟩ := b
  cases frames <;>
    simp [graft, nodeRecordsAll, tokenRecordsAll, elements, addChildren, leavesAll, Rose.extent]

theorem place_graft (b : Builder) (parent : Nat) (rs : List (Rose Token)) :
    (b.graft parent rs).place = placeAfter b.place rs := by
  simp [place, graft, placeAfter, length_nodeRecordsAll, length_tokenRecordsAll]

@[simp] theorem innermost?_graft (b : Builder) (parent : Nat) (rs : List (Rose Token)) :
    (b.graft parent rs).innermost? = b.innermost? := by
  obtain ⟨text, nodes, tokens, frames, offset⟩ := b
  cases frames <;> rfl

@[simp] theorem depth_graft (b : Builder) (parent : Nat) (rs : List (Rose Token)) :
    (b.graft parent rs).depth = b.depth := by
  obtain ⟨text, nodes, tokens, frames, offset⟩ := b
  cases frames <;> rfl

theorem HasRoom.graft {b : Builder} {m n : Nat} (h : b.HasRoom (m + n)) (parent : Nat)
    {rs : List (Rose Token)} (hm : extent (leavesAll rs) = m) :
    (b.graft parent rs).HasRoom n := by
  obtain ⟨hle, hlt⟩ := h
  refine ⟨?_, hlt⟩
  show b.offset + extent (leavesAll rs) + n ≤ b.text.utf8ByteSize
  omega

theorem HasRoom.mono {b : Builder} {m n : Nat} (h : b.HasRoom m) (hn : n ≤ m) : b.HasRoom n :=
  ⟨Nat.le_trans (Nat.add_le_add_left hn _) h.1, h.2⟩

/-- Forests can be added one after the other. -/
theorem graft_graft (b : Builder) (parent : Nat) (r : Rose Token) (rs : List (Rose Token)) :
    (b.graft parent [r]).graft parent rs = b.graft parent (r :: rs) := by
  have hplace := place_graft b parent [r]
  obtain ⟨text, nodes, tokens, frames, offset⟩ := b
  simp only [graft] at hplace ⊢
  rw [hplace]
  cases frames <;>
    simp [nodeRecordsAll, tokenRecordsAll, elements, addChildren, leavesAll, Nat.add_assoc]

theorem graft_append (b : Builder) (parent : Nat) (rs ss : List (Rose Token)) :
    (b.graft parent rs).graft parent ss = b.graft parent (rs ++ ss) := by
  induction rs generalizing b with
  | nil => rw [graft_nil, List.nil_append]
  | cons r rs ih => rw [← graft_graft, ih, graft_graft, List.cons_append]

theorem applyAll_append (b : Builder) (ss ts : List BuildStep) :
    b.applyAll (ss ++ ts) = (b.applyAll ss).bind fun c => c.applyAll ts := by
  simp only [applyAll, List.foldlM_append]
  rfl

theorem addToken_eq_graft {b : Builder} {t : Token} {parent : Nat}
    (hp : b.innermost? = some parent) (hroom : b.HasRoom t.length) :
    b.addToken t = .ok (b.graft parent [.token t]) := by
  obtain ⟨text, nodes, tokens, frames, offset⟩ := b
  obtain ⟨hle, hlt⟩ := hroom
  cases frames with
  | nil => simp [innermost?] at hp
  | cons f fs =>
    simp only [innermost?, List.head?_cons, Option.map_some, Option.some.injEq] at hp
    subst hp
    simp only at hle hlt
    have hadv : advance? offset t.length = some (offset + t.length) :=
      advance?_eq_some_iff.mpr ⟨rfl, Nat.lt_of_le_of_lt hle hlt⟩
    have hsize : ¬ text.utf8ByteSize < offset + t.length := Nat.not_lt.mpr hle
    simp [addToken, hadv, hsize, graft, place, nodeRecordsAll, nodeRecords, tokenRecordsAll,
      tokenRecords, elements, element, addChild, addChildren, leavesAll, leaves, Rose.extent]

/-- A builder with one more node open. -/
def opened (b : Builder) (label : Label) : Builder :=
  { b with
    nodes := b.nodes.push ⟨label, b.innermost?, [], ⟨b.offset, b.offset⟩⟩
    frames := ⟨b.nodes.size, #[]⟩ :: b.frames }

/-- A builder to which one node with its children has been added. -/
def withNode (b : Builder) (label : Label) (children : List (Rose Token)) : Builder where
  text := b.text
  nodes := b.nodes ++ (nodeRecords b.innermost? b.place (.node label children)).toArray
  tokens := b.tokens ++ (tokenRecordsAll b.nodes.size (placeInside b.place) children).toArray
  frames := addChildren [.node b.nodes.size] b.frames
  offset := b.offset + extent (leavesAll children)

theorem openNode_eq_opened {b : Builder} (h : b.frames = [] → b.nodes = #[]) (label : Label) :
    b.openNode label = .ok (b.opened label) := by
  obtain ⟨text, nodes, tokens, frames, offset⟩ := b
  cases frames with
  | nil =>
    have hn : nodes = #[] := h rfl
    simp [openNode, opened, innermost?, hn]
  | cons f fs => simp [openNode, opened, innermost?]

theorem place_opened (b : Builder) (label : Label) :
    (b.opened label).place = placeInside b.place := by
  simp [place, opened, placeInside]

/-- Closing a node fills in the record that was made when it opened. -/
theorem closeNode_graft_opened (b : Builder) (label : Label) (children : List (Rose Token)) :
    ((b.opened label).graft b.nodes.size children).closeNode = .ok (b.withNode label children) := by
  have hplace := place_opened b label
  obtain ⟨text, nodes, tokens, frames, offset⟩ := b
  simp only [graft, hplace]
  simp only [closeNode, opened, addChildren, withNode, nodeRecords, place, innermost?]
  congr 1
  rw [push_append_toArray, modify_append_cons]
  cases frames <;> simp [addChild]

theorem withNode_eq_graft {b : Builder} {parent : Nat} (hp : b.innermost? = some parent)
    (label : Label) (children : List (Rose Token)) :
    b.withNode label children = b.graft parent [.node label children] := by
  simp [withNode, graft, hp, nodeRecordsAll, tokenRecordsAll, tokenRecords, elements, element,
    leavesAll, leaves, place]

theorem applyAll_cons (b : Builder) (s : BuildStep) (ss : List BuildStep) :
    b.applyAll (s :: ss) = (b.apply s).bind fun c => c.applyAll ss := by
  simp only [applyAll, List.foldlM_cons]
  rfl

mutual

/-- The steps of a node add the node, also where it is the first one. -/
theorem applyAll_node (label : Label) (children : List (Rose Token)) (b : Builder)
    (hroot : b.frames = [] → b.nodes = #[]) (hroom : b.HasRoom (extent (leavesAll children))) :
    b.applyAll (Rose.node label children).steps = .ok (b.withNode label children) := by
  have hinside : (b.opened label).innermost? = some b.nodes.size := rfl
  have hchildren := applyAll_stepsAll children (b.opened label) b.nodes.size hinside hroom
  rw [steps, applyAll_cons]
  show (b.openNode label).bind _ = _
  rw [openNode_eq_opened hroot]
  show (b.opened label).applyAll (stepsAll children ++ [.finish]) = _
  rw [applyAll_append, hchildren]
  show (((b.opened label).graft b.nodes.size children).closeNode).bind _ = _
  rw [closeNode_graft_opened]
  rfl

/-- The steps of a tree inside an open node graft the tree onto it. -/
theorem applyAll_steps (r : Rose Token) (b : Builder) (parent : Nat)
    (hp : b.innermost? = some parent) (hroom : b.HasRoom (extent r.leaves)) :
    b.applyAll r.steps = .ok (b.graft parent [r]) := by
  cases r with
  | token t =>
    have ht : b.HasRoom t.length := by simpa [leaves, Rose.extent] using hroom
    rw [steps, applyAll_cons]
    show (b.addToken t).bind _ = _
    rw [addToken_eq_graft hp ht]
    rfl
  | node label children =>
    have hroot : b.frames = [] → b.nodes = #[] := by
      intro hf
      simp [innermost?, hf] at hp
    rw [← withNode_eq_graft hp]
    exact applyAll_node label children b hroot hroom

theorem applyAll_stepsAll (rs : List (Rose Token)) (b : Builder) (parent : Nat)
    (hp : b.innermost? = some parent) (hroom : b.HasRoom (extent (leavesAll rs))) :
    b.applyAll (stepsAll rs) = .ok (b.graft parent rs) := by
  cases rs with
  | nil => rw [graft_nil]; rfl
  | cons r rs =>
    rw [leavesAll, extent_append] at hroom
    have hfirst := applyAll_steps r b parent hp (hroom.mono (Nat.le_add_right _ _))
    have hothers := applyAll_stepsAll rs (b.graft parent [r]) parent (by simpa using hp)
      (hroom.graft parent (by simp [leavesAll]))
    rw [stepsAll, applyAll_append, hfirst]
    show (b.graft parent [r]).applyAll (stepsAll rs) = _
    rw [hothers, graft_graft]

end

/-- A builder that holds a whole tree finishes with the tables of that tree. -/
theorem finish_withNode {text : String} {label : Label} {children : List (Rose Token)}
    (h : extent (leavesAll children) = text.utf8ByteSize) :
    ((start text).withNode label children).finish = .ok (arena text (.node label children)) := by
  simp [finish, withNode, start, addChildren, place, innermost?, nodeRecords, arena, tokenRecords,
    Place.front, h]

end Builder

end TemplateTree
