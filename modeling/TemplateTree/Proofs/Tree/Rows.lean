import TemplateTree.Proofs.Text.Quoted
import TemplateTree.Proofs.Tree.Lookup

/-!
# Rows

What the line of an element tells as data: the depth, the label of a node or the kind and
the text of a token, and the span. A line tells its row, a text tells the lines of which
it consists, and the rows of a tree in document order tell the tree: where the depth falls
back, the nodes end.
-/

namespace TemplateTree

namespace Kind

/-- No name begins with a blank. -/
theorem head?_name_append (k : Kind) (cs : List Char) :
    ∀ c, (k.name.toList ++ cs).head? = some c → c ≠ ' ' := by
  have hname : ∃ first others, k.name.toList = first :: others ∧ first ≠ ' ' := by
    cases k <;> exact ⟨_, _, rfl, by decide⟩
  obtain ⟨first, others, hname, hne⟩ := hname
  intro c hc
  rw [hname] at hc
  rwa [← Option.some.inj hc]

theorem not_mem_name (k : Kind) : '@' ∉ k.name.toList ∧ '\n' ∉ k.name.toList := by
  cases k <;> decide

theorem name_injective {k k' : Kind} (h : k.name = k'.name) : k = k' := by
  have hread := ofName?_name k
  rw [h, ofName?_name k'] at hread
  exact (Option.some.inj hread).symm

end Kind

/-- What is told of an element besides where it stands. -/
inductive Row.Subject where
  | node (label : Label)
  | token (kind : Kind) (text : String)

namespace Row.Subject

def kind : Row.Subject → Kind
  | node label => label.kind
  | token kind _ => kind

/-- What is quoted, the message of a failure or the text of a token. -/
def quote? : Row.Subject → Option String
  | node label => label.message?
  | token _ text => some text

/-- What stands behind kind and span. -/
def remark (x : Row.Subject) : String :=
  match x.quote? with
  | none => ""
  | some s => " " ++ Text.quoted s

/-- No token is taken for an error. -/
def Sound : Row.Subject → Prop
  | node _ => True
  | token kind _ => kind ≠ .error

variable {x x' : Row.Subject}

theorem eq_of_kind_eq (hx : x.Sound) (hx' : x'.Sound) (hkind : x.kind = x'.kind)
    (hquote : x.quote? = x'.quote?) : x = x' := by
  cases x with
  | node l =>
    cases x' with
    | node l' => cases l <;> cases l' <;> simp_all [kind, quote?, Label.kind, Label.message?]
    | token k' s' => cases l <;> simp_all [kind, quote?, Label.kind, Label.message?, Sound]
  | token k s =>
    cases x' with
    | node l' => cases l' <;> simp_all [kind, quote?, Label.kind, Label.message?, Sound]
    | token k' s' => simp_all [kind, quote?]

theorem quote?_eq_of_remark_eq (h : x.remark = x'.remark) : x.quote? = x'.quote? := by
  unfold remark at h
  have hne : ∀ s : String, " " ++ Text.quoted s ≠ "" := by
    intro s hs
    exact absurd (String.append_eq_empty_iff.mp hs).1 (by decide)
  cases hx : x.quote? with
  | none =>
    cases hx' : x'.quote? with
    | none => rfl
    | some s' =>
      rw [hx, hx'] at h
      exact absurd h.symm (hne s')
  | some s =>
    cases hx' : x'.quote? with
    | none =>
      rw [hx, hx'] at h
      exact absurd h (hne s)
    | some s' =>
      rw [hx, hx'] at h
      rw [Text.quoted_injective ((String.append_right_inj _).mp h)]

/-- A remark is empty, or it is parted from the span by a blank. -/
theorem head?_remark (x : Row.Subject) : ∀ c, x.remark.toList.head? = some c → c = ' ' := by
  intro c h
  unfold remark at h
  split at h
  · cases h
  · rw [String.toList_append] at h
    exact (Option.some.inj h).symm

theorem lineFeed_not_mem_remark (x : Row.Subject) : '\n' ∉ x.remark.toList := by
  unfold remark
  split
  · exact List.not_mem_nil
  · rw [String.toList_append, List.mem_append, not_or]
    exact ⟨by decide, Text.lineFeed_not_mem_quoted _⟩

end Row.Subject

/-- What the line of an element tells. -/
structure Row where
  depth : Nat
  subject : Row.Subject
  span : Span

namespace Row

def text (row : Row) : String :=
  String.ofList (List.replicate (2 * row.depth) ' ') ++
    (row.subject.kind.name ++ "@" ++ row.span.text) ++ row.subject.remark

/-- The characters of a line, parted where its parts begin. -/
theorem toList_text (row : Row) :
    row.text.toList = List.replicate (2 * row.depth) ' ' ++ (row.subject.kind.name.toList ++
      '@' :: (Nat.toDigits 10 row.span.start ++ '.' :: '.' :: (Nat.toDigits 10 row.span.stop ++
        row.subject.remark.toList))) := by
  simp [text, Span.text]

theorem not_mem_toDigits {c : Char} (hc : c.isDigit = false) {n : Nat} :
    c ∉ Nat.toDigits 10 n := by
  intro h
  rw [Nat.isDigit_of_mem_toDigits (by decide) (by decide) h] at hc
  cases hc

theorem toDigits_injective {m n : Nat} (h : Nat.toDigits 10 m = Nat.toDigits 10 n) : m = n := by
  rw [← Nat.ofDigitChars_ten_toDigits (n := m), h, Nat.ofDigitChars_ten_toDigits]

theorem isDigit_of_mem_toDigits {n : Nat} : ∀ c ∈ Nat.toDigits 10 n, c.isDigit = true :=
  fun _ => Nat.isDigit_of_mem_toDigits (by decide) (by decide)

variable {row row' : Row}

/-- A line tells the depth, the kind, the span and the remark. -/
theorem parts_eq_of_text_eq (h : row.text = row'.text) :
    row.depth = row'.depth ∧ row.subject.kind = row'.subject.kind ∧ row.span = row'.span ∧
      row.subject.remark = row'.subject.remark := by
  have hblank : ∀ {n : Nat}, ∀ c ∈ List.replicate n ' ', decide (c = ' ') = true :=
    fun c hc => decide_eq_true (List.eq_of_mem_replicate hc)
  have hname : ∀ (k : Kind) (cs : List Char) (c : Char), (k.name.toList ++ cs).head? = some c →
      decide (c = ' ') = false := fun k cs c hc => decide_eq_false (k.head?_name_append cs c hc)
  have hremark : ∀ (x : Row.Subject) (c : Char), x.remark.toList.head? = some c →
      c.isDigit = false := by
    intro x c hc
    rw [x.head?_remark c hc]
    decide
  have hdot : ∀ {n : Nat}, '.' ∉ Nat.toDigits 10 n := not_mem_toDigits (by decide)
  have hchars := congrArg String.toList h
  rw [toList_text, toList_text] at hchars
  -- The parts are split off from the front, each at the first character that it cannot have.
  obtain ⟨hdepth, hchars⟩ := append_inj_of_forall (fun c => decide (c = ' '))
    hblank (hname _ _) hblank (hname _ _) hchars
  obtain ⟨hkind, hchars⟩ := append_cons_inj_of_notMem row.subject.kind.not_mem_name.1
    row'.subject.kind.not_mem_name.1 hchars
  obtain ⟨hstart, hchars⟩ := append_cons_inj_of_notMem hdot hdot hchars
  obtain ⟨hstop, hremarks⟩ := append_inj_of_forall Char.isDigit isDigit_of_mem_toDigits
    (hremark _) isDigit_of_mem_toDigits (hremark _) (List.cons.inj hchars).2
  refine ⟨?_, Kind.name_injective (String.toList_injective hkind), ?_,
    String.toList_injective hremarks⟩
  · have hlength := congrArg List.length hdepth
    rw [List.length_replicate, List.length_replicate] at hlength
    exact Nat.eq_of_mul_eq_mul_left (by decide) hlength
  · show Span.mk row.span.start row.span.stop = Span.mk row'.span.start row'.span.stop
    rw [toDigits_injective hstart, toDigits_injective hstop]

/-- A line tells its row. -/
theorem eq_of_text_eq (hsound : row.subject.Sound) (hsound' : row'.subject.Sound)
    (h : row.text = row'.text) : row = row' := by
  obtain ⟨hdepth, hkind, hspan, hremark⟩ := parts_eq_of_text_eq h
  have hsubject := Subject.eq_of_kind_eq hsound hsound' hkind
    (Subject.quote?_eq_of_remark_eq hremark)
  show Row.mk row.depth row.subject row.span = Row.mk row'.depth row'.subject row'.span
  rw [hdepth, hsubject, hspan]

theorem lineFeed_not_mem_text (row : Row) : '\n' ∉ row.text.toList := by
  rw [toList_text]
  simp [row.subject.kind.not_mem_name.2, row.subject.lineFeed_not_mem_remark, not_mem_toDigits]

theorem lineFeed_not_mem_of_mem_map (rows : List Row) :
    ∀ line ∈ rows.map text, '\n' ∉ line.toList := by
  intro line hline
  obtain ⟨row, -, rfl⟩ := List.mem_map.mp hline
  exact lineFeed_not_mem_text row

end Row

/-- Lines that are ended by line feeds are seen from the text that they make up. -/
theorem lines_injective {lines lines' : List String} (h : ∀ line ∈ lines, '\n' ∉ line.toList)
    (h' : ∀ line ∈ lines', '\n' ∉ line.toList)
    (he : String.join (lines.map (· ++ "\n")) = String.join (lines'.map (· ++ "\n"))) :
    lines = lines' := by
  have hlines := congrArg String.toList he
  simp only [String.toList_join, List.flatMap_map, String.toList_append] at hlines
  clear he
  induction lines generalizing lines' with
  | nil =>
    cases lines' with
    | nil => rfl
    | cons line' lines' => simp at hlines
  | cons line lines ih =>
    cases lines' with
    | nil => simp at hlines
    | cons line' lines' =>
      rw [List.forall_mem_cons] at h h'
      rw [List.flatMap_cons, List.flatMap_cons, List.append_assoc, List.append_assoc] at hlines
      obtain ⟨hline, hrest⟩ := append_cons_inj_of_notMem h.1 h'.1 hlines
      rw [String.toList_injective hline, ih h.2 h'.2 hrest]

namespace Rose

mutual

/-- The rows of a tree at this place, the tokens having these texts. -/
def rows (texts : Nat → String) (depth : Nat) (p : Place) : Rose Token → List Row
  | token t => [⟨depth, .token t.kind (texts p.token), ⟨p.offset, p.offset + t.length⟩⟩]
  | node label children =>
    ⟨depth, .node label, ⟨p.offset, p.offset + extent (leavesAll children)⟩⟩ ::
      rowsAll texts (depth + 1) (placeInside p) children

def rowsAll (texts : Nat → String) (depth : Nat) (p : Place) : List (Rose Token) → List Row
  | [] => []
  | r :: rs => rows texts depth p r ++ rowsAll texts depth (placeAfter p [r]) rs

end

variable {texts texts' : Nat → String}

theorem exists_cons_rows (texts : Nat → String) (depth : Nat) (p : Place) (r : Rose Token) :
    ∃ row others, rows texts depth p r = row :: others ∧ row.depth = depth := by
  cases r with
  | token t => exact ⟨_, _, rfl, rfl⟩
  | node label children => exact ⟨_, _, rfl, rfl⟩

/-- These rows do not go on below this depth. -/
def Shallow (depth : Nat) (xs : List Row) : Prop := ∀ row, xs.head? = some row → row.depth < depth

theorem shallow_rowsAll {depth : Nat} {p : Place} {rs : List (Rose Token)} {xs : List Row}
    (hxs : Shallow depth xs) : Shallow (depth + 1) (rowsAll texts depth p rs ++ xs) := by
  intro row hrow
  cases rs with
  | nil => exact Nat.lt_succ_of_lt (hxs row hrow)
  | cons r rs =>
    obtain ⟨first, others, hrows, hdepth⟩ := exists_cons_rows texts depth p r
    rw [rowsAll, hrows, List.append_assoc, List.cons_append, List.head?_cons] at hrow
    rw [← Option.some.inj hrow, hdepth]
    exact Nat.lt_succ_self depth

/-- Where no more trees come, there is no row of this depth. -/
theorem rows_append_ne {depth : Nat} {p : Place} {r : Rose Token} {xs ys : List Row}
    (hys : Shallow depth ys) : rows texts depth p r ++ xs ≠ ys := by
  rintro rfl
  obtain ⟨first, others, hrows, hdepth⟩ := exists_cons_rows texts depth p r
  have hlt := hys first (by rw [hrows]; rfl)
  omega

mutual

theorem rows_append_inj {depth : Nat} {p : Place} (r r' : Rose Token) {xs ys : List Row}
    (hxs : Shallow (depth + 1) xs) (hys : Shallow (depth + 1) ys)
    (h : rows texts depth p r ++ xs = rows texts' depth p r' ++ ys) :
    r = r' ∧ (∀ i, Holds p [r] (.token i) → texts i = texts' i) ∧ xs = ys := by
  cases r with
  | token t =>
    cases r' with
    | token t' =>
      obtain ⟨kind, length⟩ := t
      obtain ⟨kind', length'⟩ := t'
      simp only [rows, List.cons_append, List.nil_append, List.cons.injEq, Row.mk.injEq,
        Row.Subject.token.injEq, Span.mk.injEq, true_and, Nat.add_left_cancel_iff] at h
      obtain ⟨⟨⟨rfl, htext⟩, rfl⟩, rfl⟩ := h
      refine ⟨rfl, fun i hi => ?_, rfl⟩
      rw [Element.token.inj (holds_token.mp hi)]
      exact htext
    | node label' children' => simp [rows] at h
  | node label children =>
    cases r' with
    | token t' => simp [rows] at h
    | node label' children' =>
      simp only [rows, List.cons_append, List.cons.injEq, Row.mk.injEq, Row.Subject.node.injEq,
        true_and] at h
      obtain ⟨⟨rfl, -⟩, h⟩ := h
      -- The children are deeper than the row behind the node, so that row ends them.
      obtain ⟨rfl, htexts, rfl⟩ := rowsAll_append_inj children children' hxs hys h
      refine ⟨rfl, fun i hi => htexts i ?_, rfl⟩
      exact (holds_node.mp hi).resolve_left nofun

/-- Where the trees of a forest end is seen from the depth of the row behind them. -/
theorem rowsAll_append_inj {depth : Nat} {p : Place} (rs rs' : List (Rose Token))
    {xs ys : List Row} (hxs : Shallow depth xs) (hys : Shallow depth ys)
    (h : rowsAll texts depth p rs ++ xs = rowsAll texts' depth p rs' ++ ys) :
    rs = rs' ∧ (∀ i, Holds p rs (.token i) → texts i = texts' i) ∧ xs = ys := by
  cases rs with
  | nil =>
    cases rs' with
    | nil => exact ⟨rfl, fun i hi => absurd hi not_holds_nil, h⟩
    | cons r' rs' =>
      rw [rowsAll, rowsAll, List.append_assoc] at h
      exact absurd h.symm (rows_append_ne hxs)
  | cons r rs =>
    cases rs' with
    | nil =>
      rw [rowsAll, rowsAll, List.append_assoc] at h
      exact absurd h (rows_append_ne hys)
    | cons r' rs' =>
      rw [rowsAll, rowsAll, List.append_assoc, List.append_assoc] at h
      obtain ⟨rfl, hfirst, h⟩ := rows_append_inj r r' (shallow_rowsAll hxs) (shallow_rowsAll hys) h
      obtain ⟨rfl, hothers, rfl⟩ := rowsAll_append_inj rs rs' hxs hys h
      exact ⟨rfl, fun i hi => (holds_cons.mp hi).elim (hfirst i) (hothers i), rfl⟩

end

/-- The rows of a tree tell the tree and the texts of its tokens. -/
theorem rows_injective {r r' : Rose Token} (h : rows texts 0 .front r = rows texts' 0 .front r') :
    r = r' ∧ ∀ i, Holds .front [r] (.token i) → texts i = texts' i := by
  have hnil : Shallow 1 [] := by
    intro row hrow
    cases hrow
  obtain ⟨rfl, htexts, -⟩ := rows_append_inj r r' hnil hnil (by rw [h])
  exact ⟨rfl, htexts⟩

end Rose

end TemplateTree
