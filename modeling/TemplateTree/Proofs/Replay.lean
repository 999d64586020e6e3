import TemplateTree.Proofs.Rose.Laying
import TemplateTree.Proofs.Script.Recording
import TemplateTree.Proofs.Tree.Embedding
import TemplateTree.Replay

/-!
# What a replay builds

A replay passes over placeholders, so only the settled journal counts. Where
that writes a forest down, the replay lays the forest over the tokens that it
has not fed yet and grafts the result onto the open node of its builder. The
decision where blank tokens go, which the replay makes by a scan of the journal
ahead, is the one that laying makes by a look at the leaves of a node.
-/

namespace TemplateTree

open Rose Token

/-- No node of the forest has the label that only placeholders have. -/
def Rose.Settled (f : List (Rose Kind)) : Prop := ∀ l ∈ labelsAll f, l ≠ .plain .placeholder

namespace Rose.Settled

theorem first {r : Rose Kind} {rs : List (Rose Kind)} (h : Settled (r :: rs)) : Settled [r] := by
  intro l hl
  exact h l (by simp [labelsAll] at hl ⊢; exact .inl hl)

theorem others {r : Rose Kind} {rs : List (Rose Kind)} (h : Settled (r :: rs)) : Settled rs := by
  intro l hl
  exact h l (by simp [labelsAll, hl])

theorem children {label : Label} {cs : List (Rose Kind)} (h : Settled [.node label cs]) :
    Settled cs := by
  intro l hl
  exact h l (by simp [labelsAll, labels, hl])

theorem label_ne {label : Label} {cs : List (Rose Kind)} (h : Settled [.node label cs]) :
    label ≠ .plain .placeholder :=
  h label (by simp [labelsAll, labels])

theorem nil : Settled [] := fun _ hl => absurd hl List.not_mem_nil

theorem append {f g : List (Rose Kind)} (hf : Settled f) (hg : Settled g) : Settled (f ++ g) := by
  intro l hl
  rw [labelsAll_append, List.mem_append] at hl
  exact hl.elim (hf l) (hg l)

theorem node {label : Label} {cs : List (Rose Kind)} (hl : label ≠ .plain .placeholder)
    (hcs : Settled cs) : Settled [.node label cs] := by
  intro l h
  rw [labelsAll, labels, labelsAll, List.append_nil, List.mem_cons] at h
  rcases h with rfl | h
  · exact hl
  · exact hcs l h

theorem tokens (ks : List Kind) : Settled (ks.map .token) := by
  intro l hl
  rw [labelsAll_map_token] at hl
  exact absurd hl List.not_mem_nil

/-- A closing that labels its node with anything else leaves no placeholder. -/
theorem wrap {f : List (Rose Kind)} (hf : Settled f) {c : Closing} (hc : c ≠ .node .placeholder) :
    Settled (c.wrap f) := by
  cases c with
  | node kind =>
    refine node ?_ hf
    rintro ⟨⟩
    exact hc rfl
  | error message => exact node (by simp) hf
  | splice => exact hf
  | undo => exact nil

end Rose.Settled

namespace Journal

mutual

theorem settled_entries (n : Nat) (r : Rose Kind) (h : Rose.Settled [r]) :
    settled (entries n r) = entries n r := by
  cases r with
  | token k => rfl
  | node label children =>
    have hinside := settled_entriesAll n children h.children
    have hopening : Entry.opening label ≠ .placeholder := by simpa using h.label_ne
    rw [entries, settled_cons, settled_append, hinside, settled_singleton hopening]
    rfl

/-- A forest without placeholders is written down without placeholders. -/
theorem settled_entriesAll (n : Nat) (rs : List (Rose Kind)) (h : Rose.Settled rs) :
    settled (entriesAll n rs) = entriesAll n rs := by
  cases rs with
  | nil => rfl
  | cons r rs =>
    rw [entriesAll, settled_append, settled_entries n r h.first, settled_entriesAll _ rs h.others]

end

theorem scanForToken_opening (depth : Nat) {label : Label} (h : label ≠ .plain .placeholder)
    (later : List Entry) :
    scanForToken depth (.opening label :: later) = scanForToken (depth + 1) later := by
  rw [scanForToken]
  intro he
  exact h (by simpa using he)

theorem scanForToken_settled (depth : Nat) (es : List Entry) :
    scanForToken depth (settled es) = scanForToken depth es := by
  induction es generalizing depth with
  | nil => rfl
  | cons e es ih =>
    by_cases h : e = .placeholder
    · rw [h, settled_cons, settled_placeholder, List.nil_append, ih, scanForToken]
    · rw [settled_cons, settled_singleton h, List.singleton_append]
      cases e with
      | opening label =>
        have hl : label ≠ .plain .placeholder := by simpa using h
        rw [scanForToken_opening _ hl, scanForToken_opening _ hl, ih]
      | token n => rfl
      | close => simp only [scanForToken, ih]

mutual

theorem scanForToken_entries (n depth : Nat) (hd : 0 < depth) (r : Rose Kind)
    (h : Rose.Settled [r]) (later : List Entry) :
    scanForToken depth (entries n r ++ later) =
      (decide (r.leaves ≠ []) || scanForToken depth later) := by
  cases r with
  | token k => simp [entries, scanForToken, leaves]
  | node label children =>
    have hinside := scanForToken_entriesAll n (depth + 1) (Nat.succ_pos _) children h.children
      (.close :: later)
    have hclose : scanForToken (depth + 1) (.close :: later) = scanForToken depth later := by
      simp [scanForToken, Nat.ne_of_gt hd]
    rw [entries, List.cons_append, List.append_assoc, scanForToken_opening _ h.label_ne,
      List.singleton_append, hinside, hclose, leaves]

/-- A scan inside an open node finds the tokens of a forest, or goes on behind it. -/
theorem scanForToken_entriesAll (n depth : Nat) (hd : 0 < depth) (rs : List (Rose Kind))
    (h : Rose.Settled rs) (later : List Entry) :
    scanForToken depth (entriesAll n rs ++ later) =
      (decide (leavesAll rs ≠ []) || scanForToken depth later) := by
  cases rs with
  | nil => simp [entriesAll, leavesAll]
  | cons r rs =>
    rw [entriesAll, List.append_assoc, scanForToken_entries _ _ hd r h.first,
      scanForToken_entriesAll _ _ hd rs h.others, leavesAll]
    cases hl : r.leaves <;> simp

end

/-- The scan at the opening of a node looks at the leaves of the node. -/
theorem coversToken_node (n : Nat) {label : Label} {cs : List (Rose Kind)}
    (h : Rose.Settled [.node label cs]) (later : List Entry) :
    coversToken (.opening label :: (entriesAll n cs ++ (.close :: later))) =
      decide (leavesAll cs ≠ []) := by
  rw [coversToken, scanForToken_opening _ h.label_ne,
    scanForToken_entriesAll _ _ Nat.one_pos _ h.children]
  simp [scanForToken]

end Journal

namespace Replay

theorem run_cons (stream : TokenStream) (e : Entry) (later : List Entry) (r : Replay) :
    run stream (e :: later) r = r.step stream later e >>= run stream later := rfl

theorem step_opening (stream : TokenStream) (behind : List Entry) (r : Replay) {label : Label}
    (h : label ≠ .plain .placeholder) :
    r.step stream behind (.opening label) =
      (if 0 < r.builder.depth && Journal.coversToken (.opening label :: behind) then r.feedTrivia
        else .ok r) >>= fun ready => ready.openNode label := by
  rw [step]
  · split <;> rfl
  · intro he
    exact h (by simpa using he)

theorem step_close (stream : TokenStream) (behind : List Entry) (r : Replay) :
    r.step stream behind .close =
      (if r.builder.depth = 1 then r.feedUpTo stream.tokens.size else .ok r) >>= closeNode := by
  rw [step]
  split <;> rfl

theorem run_opening (stream : TokenStream) {label : Label} (h : label ≠ .plain .placeholder)
    (later : List Entry) (r : Replay) :
    run stream (.opening label :: later) r =
      ((if 0 < r.builder.depth && Journal.coversToken (.opening label :: later) then r.feedTrivia
        else .ok r) >>= fun ready => ready.openNode label >>= run stream later) := by
  rw [run_cons, step_opening stream later r h, bind_assoc]

/-- The placeholders behind an entry make no difference to it. -/
theorem step_settled (stream : TokenStream) (behind : List Entry) (r : Replay) (e : Entry) :
    r.step stream (Journal.settled behind) e = r.step stream behind e := by
  cases e with
  | opening label =>
    by_cases h : label = .plain .placeholder
    · rw [h]
      rfl
    · have hc : Journal.coversToken (.opening label :: Journal.settled behind) =
          Journal.coversToken (.opening label :: behind) := by
        rw [Journal.coversToken, Journal.coversToken, Journal.scanForToken_opening _ h,
          Journal.scanForToken_opening _ h, Journal.scanForToken_settled]
      rw [step_opening _ _ _ h, step_opening _ _ _ h, hc]
  | token n => rfl
  | close => rfl

/-- A replay does not notice placeholders. -/
theorem run_settled (stream : TokenStream) (es : List Entry) (r : Replay) :
    run stream (Journal.settled es) r = run stream es r := by
  induction es generalizing r with
  | nil => rfl
  | cons e es ih =>
    by_cases h : e = .placeholder
    · rw [h, Journal.settled_cons, Journal.settled_placeholder, List.nil_append, ih]
      rfl
    · have hih : run stream (Journal.settled es) = run stream es := funext ih
      rw [Journal.settled_cons, Journal.settled_singleton h, List.singleton_append, run_cons,
        run_cons, step_settled, hih]

/-- The replay that has fed so many tokens more into the open node. -/
def fedBy (r : Replay) (parent count : Nat) : Replay where
  builder := r.builder.graft parent ((r.rest.take count).map .token)
  fed := r.fed + min count r.rest.length
  rest := r.rest.drop count

theorem feed_eq_fedBy {r : Replay} {parent : Nat} (hp : r.builder.innermost? = some parent)
    (count : Nat) (hroom : r.builder.HasRoom (extent (r.rest.take count))) :
    r.feed count = .ok (r.fedBy parent count) := by
  induction count generalizing r with
  | zero => simp [feed, fedBy, Builder.graft_nil]
  | succ count ih =>
    obtain ⟨builder, fed, rest⟩ := r
    cases rest with
    | nil => simp [feed, fedBy, Builder.graft_nil]
    | cons t rest =>
      have hsplit : extent ((t :: rest).take (count + 1)) =
          t.length + extent (rest.take count) := by
        simp [extent]
      simp only [hsplit] at hroom
      have ht := Builder.addToken_eq_graft hp (hroom.mono (Nat.le_add_right _ _))
      have hnext := @Builder.HasRoom.graft _ _ _ hroom parent [.token t]
        (by simp [leavesAll, leaves, extent])
      have hrest := @ih ⟨builder.graft parent [.token t], fed + 1, rest⟩ (by simpa using hp) hnext
      have hstep : feed (count + 1) ⟨builder, fed, t :: rest⟩ =
          feed count ⟨builder.graft parent [.token t], fed + 1, rest⟩ := by
        rw [feed]
        simp only [ht]
        rfl
      rw [hstep, hrest]
      simp [fedBy, Builder.graft_graft, Nat.add_comm, Nat.add_left_comm]

/-- A replay that has fed the first tokens of the stream, among them `count`
significant ones, and has room for the others. -/
structure Ready (stream : TokenStream) (count : Nat) (r : Replay) : Prop where
  behind : ∃ before, stream.tokens.toList = before ++ r.rest ∧ before.length = r.fed ∧
    (significantKinds before).length = count
  room : r.builder.HasRoom (extent r.rest)

theorem length_places (ts : List Token) (n : Nat) :
    ((ts.zipIdx n).filter fun p => !p.1.isTrivia).length = (significantKinds ts).length := by
  induction ts generalizing n with
  | nil => rfl
  | cons t ts ih =>
    rw [List.zipIdx_cons, ← List.singleton_append, ← List.singleton_append (l := ts),
      List.filter_append, significantKinds_append, List.length_append, List.length_append, ih]
    congr 1
    by_cases h : t.isTrivia = true
    · rw [significantKinds_eq_nil (by simpa using h)]
      simp [h]
    · rw [Bool.not_eq_true] at h
      rw [significantKinds_singleton h]
      simp [h]

/-- The next significant token stands behind the blank tokens that come next. -/
theorem Ready.significant_eq {stream : TokenStream} {count : Nat} {r : Replay}
    (h : r.Ready stream count) {t : Token} {us : List Token}
    (hrest : r.rest.drop (leadingBlanks r.rest) = t :: us) (ht : t.isTrivia = false) :
    stream.significant[count]? = some (r.fed + leadingBlanks r.rest) := by
  obtain ⟨before, htokens, hlen, hcount⟩ := h.behind
  have hblanks : significantKinds (r.rest.take (leadingBlanks r.rest)) = [] :=
    significantKinds_eq_nil fun _ hm => isTrivia_of_mem_take hm
  have hle : leadingBlanks r.rest ≤ r.rest.length := (List.takeWhile_sublist _).length_le
  have hsplit : stream.tokens.toList =
      (before ++ r.rest.take (leadingBlanks r.rest)) ++ t :: us := by
    rw [htokens, ← hrest, List.append_assoc, List.take_append_drop]
  have hfront := length_places (before ++ r.rest.take (leadingBlanks r.rest)) 0
  rw [significantKinds_append, hblanks, List.append_nil, hcount] at hfront
  rw [stream.significant_eq, significantPlaces, hsplit, List.zipIdx_append, List.filter_append,
    List.map_append, List.getElem?_toArray, List.getElem?_append_right (by simp [hfront])]
  simp [hfront, ht, hlen, Nat.min_eq_left hle]

/-- The replay that has laid a forest over the tokens that come next. -/
def laid (r : Replay) (parent : Nat) (f : List (Rose Kind)) : Replay where
  builder := r.builder.graft parent (layAll f r.rest).1
  fed := r.fed + (leavesAll (layAll f r.rest).1).length
  rest := (layAll f r.rest).2

/-- Feeding tokens from the front keeps a replay ready. -/
theorem Ready.graft {stream : TokenStream} {count : Nat} {r : Replay} (h : r.Ready stream count)
    (parent : Nat) {rs : List (Rose Token)} {rest : List Token}
    (hrest : leavesAll rs ++ rest = r.rest) :
    Ready stream (count + (significantKinds (leavesAll rs)).length)
      ⟨r.builder.graft parent rs, r.fed + (leavesAll rs).length, rest⟩ := by
  obtain ⟨before, htokens, hlen, hcount⟩ := h.behind
  refine ⟨⟨before ++ leavesAll rs, ?_, ?_, ?_⟩, ?_⟩
  · rw [htokens, ← hrest, List.append_assoc]
  · rw [List.length_append, hlen]
  · rw [significantKinds_append, List.length_append, hcount]
  · have hroom := h.room
    rw [← hrest, extent_append] at hroom
    exact hroom.graft parent rfl

theorem Ready.laid {stream : TokenStream} {count : Nat} {r : Replay} (h : r.Ready stream count)
    (parent : Nat) {f : List (Rose Kind)} {more : List Kind}
    (hf : significantKinds r.rest = leavesAll f ++ more) :
    (r.laid parent f).Ready stream (count + (leavesAll f).length) := by
  have hsplit := leavesAll_layAll f r.rest
  have hmore := (significantAll_layAll f r.rest more hf).2
  have hready := h.graft parent hsplit
  have hkinds : (significantKinds (leavesAll (layAll f r.rest).1)).length =
      (leavesAll f).length := by
    have htotal := congrArg List.length hf
    rw [← hsplit, significantKinds_append, hmore] at htotal
    simpa using htotal
  rw [hkinds] at hready
  exact hready

theorem laid_laid (s : Replay) (parent : Nat) (r : Rose Kind) (rs : List (Rose Kind)) :
    (s.laid parent [r]).laid parent rs = s.laid parent (r :: rs) := by
  simp [laid, layAll, Builder.graft_append, Nat.add_assoc]

theorem laid_nil (s : Replay) (parent : Nat) : s.laid parent [] = s := by
  simp [laid, layAll, Builder.graft_nil, leavesAll]

theorem fedBy_leadingBlanks (s : Replay) (parent : Nat) (k : Kind) :
    s.fedBy parent (leadingBlanks s.rest + 1) = s.laid parent [.token k] := by
  simp [fedBy, laid, layAll, lay, leavesAll_map_token, -List.map_take]

theorem extent_take_le (ts : List Token) (n : Nat) : extent (ts.take n) ≤ extent ts := by
  have h : extent (ts.take n) + extent (ts.drop n) = extent ts := by
    rw [← extent_append, List.take_append_drop]
  omega

/-- Blank tokens in front of a node can be fed before it opens. -/
theorem Ready.fedBy {stream : TokenStream} {count : Nat} {s : Replay} (h : s.Ready stream count)
    (parent : Nat) {n : Nat} (hn : significantKinds (s.rest.take n) = []) :
    (s.fedBy parent n).Ready stream count := by
  have hsplit : leavesAll ((s.rest.take n).map .token) ++ s.rest.drop n = s.rest := by
    rw [leavesAll_map_token, List.take_append_drop]
  have hready := h.graft parent hsplit
  rw [leavesAll_map_token, hn, List.length_take] at hready
  exact hready

/-- Inside an open node the close of a node that was opened after it adds that
node with its children. -/
theorem run_close_inner (stream : TokenStream) (later : List Entry) (s : Replay) (label : Label)
    (children : List (Rose Token)) (fed : Nat) (rest : List Token) {parent : Nat}
    (hp : s.builder.innermost? = some parent) :
    run stream (.close :: later)
        ⟨(s.builder.opened label).graft s.builder.nodes.size children, fed, rest⟩ =
      run stream later ⟨s.builder.graft parent [.node label children], fed, rest⟩ := by
  have hdepth : ((s.builder.opened label).graft s.builder.nodes.size children).depth ≠ 1 := by
    rw [Builder.depth_graft]
    obtain ⟨⟨text, nodes, tokens, frames, offset⟩, fed', rest'⟩ := s
    cases frames with
    | nil => simp [Builder.innermost?] at hp
    | cons f fs => simp [Builder.depth, Builder.opened]
  rw [run_cons, step]
  simp only [hdepth, if_false]
  show ((closeNode ⟨(s.builder.opened label).graft s.builder.nodes.size children, fed, rest⟩) >>=
    run stream later) = _
  rw [closeNode, Builder.closeNode_graft_opened, Builder.withNode_eq_graft hp]
  rfl

mutual

theorem run_entries (stream : TokenStream) (r : Rose Kind) (count : Nat) (s : Replay)
    (parent : Nat) (more : List Kind) (later : List Entry) (hready : s.Ready stream count)
    (hp : s.builder.innermost? = some parent) (hsettled : Settled [r])
    (hkinds : significantKinds s.rest = r.leaves ++ more) :
    run stream (entries count r ++ later) s = run stream later (s.laid parent [r]) := by
  have hroom : ∀ n, s.builder.HasRoom (extent (s.rest.take n)) := fun n =>
    hready.room.mono (extent_take_le s.rest n)
  cases r with
  | token k =>
    obtain ⟨t, us, hrest, ht, -, -⟩ := exists_of_significantKinds_cons hkinds
    have hplace := hready.significant_eq hrest ht
    have hcount : s.fed + leadingBlanks s.rest + 1 - s.fed = leadingBlanks s.rest + 1 := by omega
    rw [entries, List.singleton_append, run_cons, step, hplace, Option.getD_some, feedUpTo,
      hcount, feed_eq_fedBy hp _ (hroom _), fedBy_leadingBlanks s parent k]
    rfl
  | node label children =>
    -- The blank tokens that the node pulls in front of it are fed first.
    let blanks := if leavesAll children = [] then 0 else leadingBlanks s.rest
    have hnone : significantKinds (s.rest.take blanks) = [] := by
      refine significantKinds_eq_nil fun t ht => ?_
      by_cases hc : leavesAll children = []
      · simp [blanks, hc] at ht
      · exact isTrivia_of_mem_take (by simpa [blanks, hc] using ht)
    have hdepth : 0 < s.builder.depth := by
      obtain ⟨⟨text, nodes, tokens, frames, offset⟩, fed, rest⟩ := s
      cases frames with
      | nil => simp [Builder.innermost?] at hp
      | cons f fs => simp [Builder.depth]
    have hfeed : (if 0 < s.builder.depth && Journal.coversToken
          (.opening label :: (entriesAll count children ++ (.close :: later))) then s.feedTrivia
        else .ok s) = .ok (s.fedBy parent blanks) := by
      rw [Journal.coversToken_node count hsettled later]
      by_cases hc : leavesAll children = []
      · simp [blanks, hc, fedBy, Builder.graft_nil]
      · have htrivia : s.feedTrivia = .ok (s.fedBy parent (leadingBlanks s.rest)) :=
          feed_eq_fedBy hp _ (hroom _)
        simp [blanks, hc, hdepth, htrivia]
    have hp₁ : (s.fedBy parent blanks).builder.innermost? = some parent := by
      simpa [fedBy] using hp
    have hroot : (s.fedBy parent blanks).builder.frames = [] →
        (s.fedBy parent blanks).builder.nodes = #[] := by
      intro hf
      simp [Builder.innermost?, hf] at hp₁
    have hready₁ := hready.fedBy parent hnone
    let inner : Replay := ⟨(s.fedBy parent blanks).builder.opened label,
      (s.fedBy parent blanks).fed, (s.fedBy parent blanks).rest⟩
    have hready₂ : inner.Ready stream count := ⟨hready₁.behind, hready₁.room⟩
    have hkinds₂ : significantKinds inner.rest = leavesAll children ++ more := by
      have htotal := congrArg significantKinds (List.take_append_drop blanks s.rest)
      rw [significantKinds_append, hnone, List.nil_append] at htotal
      exact htotal.trans hkinds
    have hinside := run_entriesAll stream children count inner _ more (.close :: later) hready₂ rfl
      hsettled.children hkinds₂
    rw [entries, List.cons_append, List.append_assoc, List.singleton_append,
      run_opening _ hsettled.label_ne, hfeed]
    show ((s.fedBy parent blanks).openNode label >>= _) = _
    rw [openNode, Builder.openNode_eq_opened hroot]
    show run stream (entriesAll count children ++ (.close :: later)) inner = _
    rw [hinside]
    refine (run_close_inner stream later (s.fedBy parent blanks) label _ _ _ hp₁).trans ?_
    simp [laid, fedBy, layAll, lay, Builder.graft_append, inner, blanks, leavesAll_map_token,
      leavesAll, leaves, Nat.add_assoc, -List.map_take]

/-- Where the journal writes a forest down, the replay lays it over the tokens
that come next and grafts the result onto the open node. -/
theorem run_entriesAll (stream : TokenStream) (rs : List (Rose Kind)) (count : Nat) (s : Replay)
    (parent : Nat) (more : List Kind) (later : List Entry) (hready : s.Ready stream count)
    (hp : s.builder.innermost? = some parent) (hsettled : Settled rs)
    (hkinds : significantKinds s.rest = leavesAll rs ++ more) :
    run stream (entriesAll count rs ++ later) s = run stream later (s.laid parent rs) := by
  cases rs with
  | nil => rw [laid_nil]; rfl
  | cons r rs =>
    rw [leavesAll, List.append_assoc] at hkinds
    have hfirst := run_entries stream r count s parent _ (entriesAll (count + r.leaves.length) rs
      ++ later) hready hp hsettled.first hkinds
    have hkinds₁ : significantKinds s.rest = leavesAll [r] ++ (leavesAll rs ++ more) := by
      simpa [leavesAll] using hkinds
    have hready₁ : (s.laid parent [r]).Ready stream (count + r.leaves.length) := by
      simpa [leavesAll] using hready.laid parent hkinds₁
    have hothers := run_entriesAll stream rs (count + r.leaves.length) (s.laid parent [r]) parent
      more later hready₁ (by simpa [laid] using hp) hsettled.others
      (significantAll_layAll [r] s.rest _ hkinds₁).2
    rw [entriesAll, List.append_assoc, hfirst, hothers, laid_laid]

end

/-- The close of the root feeds whatever is left over. -/
theorem run_close_root (stream : TokenStream) (s : Replay) {parent : Nat}
    (hp : s.builder.innermost? = some parent) (hdepth : s.builder.depth = 1)
    (hroom : s.builder.HasRoom (extent s.rest))
    (hrest : s.fed + s.rest.length = stream.tokens.size) :
    run stream [.close] s =
      closeNode ⟨s.builder.graft parent (s.rest.map .token), stream.tokens.size, []⟩ := by
  have hcount : stream.tokens.size - s.fed = s.rest.length := by omega
  have hfeed := feed_eq_fedBy hp s.rest.length (by simpa using hroom)
  rw [run_cons, step]
  simp only [hdepth, if_true, feedUpTo, hcount, hfeed, bind, Except.bind, run]
  simp only [fedBy, List.take_length, List.drop_length, Nat.min_self, hrest]
  cases closeNode ⟨s.builder.graft parent (s.rest.map .token), stream.tokens.size, []⟩ <;> rfl

/-- A replay of a root with its forest builds the root over all the tokens. -/
theorem run_root (stream : TokenStream) {label : Label} {children : List (Rose Kind)}
    {more : List Kind} (hsettled : Settled [.node label children])
    (hkinds : stream.kinds = leavesAll children ++ more)
    (hextent : extent stream.tokens.toList = stream.text.utf8ByteSize)
    (hlimit : stream.text.utf8ByteSize < offsetLimit) :
    run stream (entries 0 (.node label children)) ⟨.start stream.text, 0, stream.tokens.toList⟩ =
      .ok ⟨(Builder.start stream.text).withNode label
          ((layAll children stream.tokens.toList).1 ++
            (layAll children stream.tokens.toList).2.map .token),
        stream.tokens.size, []⟩ := by
  let inner : Replay := ⟨(Builder.start stream.text).opened label, 0, stream.tokens.toList⟩
  have hroom : inner.builder.HasRoom (extent stream.tokens.toList) := by
    refine ⟨?_, hlimit⟩
    show 0 + extent stream.tokens.toList ≤ stream.text.utf8ByteSize
    omega
  have hready : inner.Ready stream 0 := ⟨⟨[], rfl, rfl, rfl⟩, hroom⟩
  have hinside := run_entriesAll stream children 0 inner 0 more [.close] hready rfl
    hsettled.children hkinds
  have hlaid := hready.laid 0 hkinds
  have hsplit := congrArg List.length (leavesAll_layAll children stream.tokens.toList)
  rw [List.length_append] at hsplit
  have hparent : (inner.laid 0 children).builder.innermost? = some 0 := by
    simp [laid]
    rfl
  have hclose := run_close_root stream (inner.laid 0 children) hparent
    (by simp [laid]; rfl) hlaid.room (by simpa [laid, inner] using hsplit)
  rw [entries, run_opening _ hsettled.label_ne]
  show run stream (entriesAll 0 children ++ [.close]) inner = _
  rw [hinside, hclose]
  simp only [laid, Builder.graft_append, closeNode, inner]
  rw [show (0 : Nat) = (Builder.start stream.text).nodes.size from rfl,
    Builder.closeNode_graft_opened]
  rfl

end Replay

/-- A session whose settled journal writes down a root with its forest ends
with the tables of that root, laid over all the tokens of the stream. -/
theorem Session.finish_eq {s : Session} {label : Label} {children : List (Rose Kind)}
    {more : List Kind}
    (hjournal : Journal.settled s.journal.toList = entries 0 (.node label children))
    (hsettled : Settled [.node label children])
    (hkinds : s.stream.kinds = leavesAll children ++ more)
    (hextent : extent s.stream.tokens.toList = s.stream.text.utf8ByteSize)
    (hlimit : s.stream.text.utf8ByteSize < offsetLimit) :
    s.finish =
      .ok (arena s.stream.text (layRoot label children s.stream.tokens.toList)) := by
  have hrun := Replay.run_root s.stream hsettled hkinds hextent hlimit
  rw [← hjournal, Replay.run_settled] at hrun
  have hall : extent (leavesAll ((layAll children s.stream.tokens.toList).1 ++
      (layAll children s.stream.tokens.toList).2.map .token)) = s.stream.text.utf8ByteSize := by
    rw [leavesAll_append, leavesAll_map_token, leavesAll_layAll, hextent]
  rw [finish, hrun]
  exact Builder.finish_withNode hall

end TemplateTree
