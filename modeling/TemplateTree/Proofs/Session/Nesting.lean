import TemplateTree.Proofs.Journal.Nesting
import TemplateTree.Proofs.Session.Draft
import TemplateTree.Proofs.Tree.Building

/-!
# Nodes find their own tokens

The journal of a run of commands that closes what it opens is the root around a matched
stretch. So each node in it has one close, the scan that starts at the opening of a node
finds a token exactly if one stands before that close, and the replay has as many nodes
open at each entry as the depth there says: at least one at every token and at every
close, and none only before the first entry and behind the last.
-/

namespace TemplateTree

open Rose

namespace Replay

variable {stream : TokenStream} {front behind : List Entry} {r r' : Replay} {e : Entry}

theorem depth_feed {count : Nat} (h : r.feed count = .ok r') :
    r'.builder.depth = r.builder.depth := by
  induction count generalizing r with
  | zero =>
    cases h
    rfl
  | succ count ih =>
    obtain ⟨builder, fed, rest⟩ := r
    cases rest with
    | nil =>
      cases h
      rfl
    | cons t rest =>
      obtain ⟨next, hadd, hfeed⟩ := exists_ok_of_bind h
      exact (ih hfeed).trans (Builder.addToken_ok hadd).2.1

/-- Blank tokens that are fed in front of an entry open and close nothing. -/
theorem depth_ite_feed {c : Prop} [Decidable c] {count : Nat}
    (h : (if c then r.feed count else .ok r) = .ok r') : r'.builder.depth = r.builder.depth := by
  split at h
  · exact depth_feed h
  · cases h
    rfl

theorem depth_openNode {label : Label} (h : r.openNode label = .ok r') :
    r'.builder.depth = r.builder.depth + 1 := by
  obtain ⟨opened, hopen, hr⟩ := exists_ok_of_bind h
  cases hr
  rw [(Builder.openNode_ok hopen).2]
  rfl

theorem depth_closeNode (h : r.closeNode = .ok r') :
    r.builder.depth = r'.builder.depth + 1 := by
  obtain ⟨closed, hclose, hr⟩ := exists_ok_of_bind h
  cases hr
  exact (Builder.closeNode_ok hclose).1

/-- The number of open nodes changes with an entry as the depth does. -/
theorem depth_step (h : r.step stream behind e = .ok r') :
    e.depthBehind? r.builder.depth = some r'.builder.depth := by
  cases e with
  | opening label =>
    by_cases hl : label = .plain .placeholder
    · subst hl
      cases h
      rfl
    · rw [step_opening stream behind r hl] at h
      obtain ⟨ready, hfeed, hopen⟩ := exists_ok_of_bind h
      rw [Journal.depthBehind?_opening hl, depth_openNode hopen, depth_ite_feed hfeed]
  | token number =>
    rw [Entry.depthBehind?, depth_feed h]
  | close =>
    rw [step_close] at h
    obtain ⟨ready, hfeed, hclose⟩ := exists_ok_of_bind h
    rw [Entry.depthBehind?, ← depth_ite_feed hfeed, depth_closeNode hclose]
    rfl

theorem depth_runFront (h : runFront stream behind front r = .ok r') :
    Journal.depthBehind? r.builder.depth front = some r'.builder.depth := by
  induction front generalizing r with
  | nil =>
    cases h
    rfl
  | cons e front ih =>
    obtain ⟨next, hstep, hrest⟩ := exists_ok_of_bind h
    rw [Journal.depthBehind?_cons, depth_step hstep, Option.bind_some]
    exact ih hrest

/-- A replay passes through the front of a journal and then through the rest. -/
theorem run_append (stream : TokenStream) (front behind : List Entry) (r : Replay) :
    run stream (front ++ behind) r = runFront stream behind front r >>= run stream behind := by
  induction front generalizing r with
  | nil => rfl
  | cons e front ih =>
    rw [List.cons_append, run_cons, runFront, bind_assoc]
    exact bind_congr fun next => ih next

/-- The replay of a journal over a stream stands between two parts of the journal, with as
many nodes open as the depth says. Some node is open if a token or a close comes next, and
behind the first entry none is open exactly if nothing comes next. -/
structure Reaches (stream : TokenStream) (front behind : List Entry) (r : Replay) : Prop where
  runFront_eq : runFront stream behind front ⟨.start stream.text, 0, stream.tokens.toList⟩ = .ok r
  depth_eq : Journal.depthBehind? 0 front = some r.builder.depth
  depth_pos : ∀ e later, behind = e :: later → (e = .close ∨ ∃ n, e = .token n) →
    0 < r.builder.depth
  depth_eq_zero_iff : front ≠ [] → (r.builder.depth = 0 ↔ behind = [])

/-- A replay that succeeds on a root around a matched stretch has the root open from the
first entry to the last. -/
theorem exists_reaches {es : List Entry} {label : Label} {last : Replay}
    (hes : Journal.Matched es) (hlabel : label ≠ .plain .placeholder)
    (hrun : run stream (.opening label :: (es ++ [.close]))
      ⟨.start stream.text, 0, stream.tokens.toList⟩ = .ok last)
    (he : .opening label :: (es ++ [.close]) = front ++ behind) :
    ∃ r, Reaches stream front behind r := by
  rw [he, run_append] at hrun
  obtain ⟨r, hfront, -⟩ := exists_ok_of_bind hrun
  have hdepth : Journal.depthBehind? 0 front = some r.builder.depth := depth_runFront hfront
  have hinside : front ≠ [] → behind ≠ [] → 0 < r.builder.depth := by
    intro hf hb
    obtain ⟨d, hd, hfound⟩ := hes.exists_pos_depthBehind?_eq hlabel he hf hb
    rw [hdepth, Option.some_inj] at hfound
    omega
  refine ⟨r, hfront, hdepth, ?_, ?_⟩
  · intro e later hbehind hkind
    subst hbehind
    apply hinside _ (List.cons_ne_nil e later)
    -- In front of everything there is the opening of the root.
    intro hnil
    subst hnil
    obtain ⟨rfl, -⟩ := List.cons.inj he
    rcases hkind with hclose | ⟨n, htoken⟩
    · cases hclose
    · cases htoken
  · intro hf
    constructor
    · intro hzero
      by_contra hb
      exact Nat.ne_of_gt (hinside hf hb) hzero
    · intro hb
      have hall : Journal.Matched front := by
        rw [hb, List.append_nil] at he
        rw [← he]
        exact .node hlabel hes .nil
      rw [hall.depthBehind?_eq 0, Option.some_inj] at hdepth
      exact hdepth.symm

end Replay

namespace Session

variable {stream : TokenStream} {recovery : KindSet} {s : Session} {d : Draft} {label : Label}

/-- With all other checkpoints closed, the root is completed around a matched stretch, and
the journal can be replayed. -/
theorem Follows.exists_matched {text : String} {tokens : List Token}
    (haccepted : TokenStream.ofTokens text tokens = .ok stream)
    (hlabel : label ≠ .plain .placeholder) (h : Follows stream recovery s [] d) :
    ∃ es last, Journal.Matched es ∧
      (s.complete (Session.start stream recovery).checkpoint label).journal.toList =
        .opening label :: (es ++ [.close]) ∧
      Replay.run stream (.opening label :: (es ++ [.close]))
        ⟨.start stream.text, 0, stream.tokens.toList⟩ = .ok last := by
  cases h with
  | @root f es added =>
    obtain ⟨more, hmore⟩ := added.tokens
    obtain ⟨htext, htokens, hextent, hlimit⟩ := TokenStream.ofTokens_eq_ok haccepted
    have hentries : Journal.settled es = entriesAll 0 f :=
      added.recorded.trans (Journal.settled_entriesAll 0 f added.settled)
    have hjournal : Journal.settled (.opening label :: (es ++ [.close])) =
        entries 0 (.node label f) := by
      have hopening : Entry.opening label ≠ .placeholder := by simpa using hlabel
      rw [Journal.settled_cons, Journal.settled_append, Journal.settled_singleton hopening,
        hentries]
      rfl
    have hrun := Replay.run_root stream (.node hlabel added.settled) hmore.symm
      (by rw [htokens, htext, hextent]) (by rw [htext]; exact hlimit)
    rw [← hjournal, Replay.run_settled] at hrun
    refine ⟨es, _, .of_settled (Journal.matched_entriesAll 0 f added.settled) hentries, ?_, hrun⟩
    simp [complete, after, Session.opened, Session.start, checkpoint]

/-- The journal of a session under control, with the root completed. -/
def Steered.journal (s : Steered) (label : Label) : List Entry :=
  (s.session.complete s.root label).journal.toList

/-- In the journal of a run of commands that closes what it opens, with the root completed
last, the scan at the opening of a node finds exactly the tokens of that node, and the
replay reaches every place of the journal with the right number of nodes open. -/
theorem finds_own_tokens {text : String} {tokens : List Token} {stream : TokenStream}
    (recovery : KindSet) {commands : List Command} {label : Label}
    (haccepted : TokenStream.ofTokens text tokens = .ok stream) (hnested : WellNested commands)
    (hlabel : label ≠ .plain .placeholder) :
    let log := (perform Steered.step (.start stream recovery) commands).2.journal label
    (∀ front opened behind, log = front ++ .opening opened :: behind →
        opened ≠ .plain .placeholder → ∃ inner, Journal.Encloses opened behind inner) ∧
      ∀ front behind, log = front ++ behind → ∃ r, Replay.Reaches stream front behind r := by
  intro log
  have hks : .placeholder ∉ stream.kinds := fun hk => by
    cases TokenStream.isTerminal_of_ofTokens haccepted hk
  have hstart : (Steered.start stream recovery).Follows stream recovery
      (.start stream.kinds recovery) := ⟨rfl, .start⟩
  obtain ⟨-, ⟨hmark, hfollows⟩, hmarks⟩ := hstart.perform hks hnested
  rw [List.length_eq_zero_iff.mp hmarks] at hfollows
  obtain ⟨es, last, hes, hjournal, hrun⟩ := hfollows.exists_matched haccepted hlabel
  rw [← hmark] at hjournal
  have hlog : log = .opening label :: (es ++ [.close]) := hjournal
  have hall : Journal.Matched log := by
    rw [hlog]
    exact .node hlabel hes .nil
  constructor
  · intro front opened behind he hopened
    exact hall.exists_encloses hopened he
  · intro front behind he
    exact Replay.exists_reaches hes hlabel hrun (hlog.symm.trans he)

theorem finds_own_tokens_abandoned :
    let stream : TokenStream :=
      ⟨"x\x7b\x7b a", #[⟨.content, 1⟩, ⟨.openValue, 2⟩, ⟨.blank, 1⟩, ⟨.ident, 1⟩], #[0, 1, 3],
        by decide⟩
    let commands : List Command := [.start, .bump, .start, .rule .mustache, .rollback,
      .attempt .path, .report "m", .start, .bump, .abandon, .complete .statements]
    let inside : List Entry := [.opening (.failure "m"), .close, .placeholder, .token 1]
    (perform Steered.step (.start stream .syncPoints) commands).2.journal (.plain .template) =
        .opening (.plain .template) :: .opening (.plain .statements) :: .token 0 ::
          (inside ++ [.close, .close]) ∧
      Journal.Encloses (.plain .statements) (.token 0 :: (inside ++ [.close, .close]))
        (.token 0 :: inside) ∧
      Journal.Encloses (.failure "m") [.close, .placeholder, .token 1, .close, .close] [] ∧
      ∃ r, Replay.Reaches stream
          (.opening (.plain .template) :: .opening (.plain .statements) :: .token 0 :: inside)
          [.close, .close] r ∧ r.builder.depth = 2 := by
  intro stream commands inside
  have haccepted : TokenStream.ofTokens "x\x7b\x7b a"
      [⟨.content, 1⟩, ⟨.openValue, 2⟩, ⟨.blank, 1⟩, ⟨.ident, 1⟩] = .ok stream := rfl
  have hlog : (perform Steered.step (.start stream .syncPoints) commands).2.journal
      (.plain .template) = .opening (.plain .template) :: .opening (.plain .statements) ::
        .token 0 :: (inside ++ [.close, .close]) := by decide +kernel
  obtain ⟨hnodes, hplaces⟩ := finds_own_tokens .syncPoints haccepted
    (show WellNested commands by decide) (show Label.plain .template ≠ .plain .placeholder by decide)
  have hinside : Journal.Matched (.token 0 :: inside) :=
    .token (.node (by decide) .nil (.placeholder (.token .nil)))
  obtain ⟨outer, houter⟩ := hnodes [.opening (.plain .template)] (.plain .statements) _ hlog
    (by decide)
  obtain ⟨empty, hempty⟩ := hnodes
    [.opening (.plain .template), .opening (.plain .statements), .token 0] (.failure "m") _ hlog
    (by decide)
  obtain ⟨r, hr⟩ := hplaces
    (.opening (.plain .template) :: .opening (.plain .statements) :: .token 0 :: inside)
    [.close, .close] hlog
  obtain rfl := houter.unique (.token 0 :: inside) [.close] hinside rfl
  obtain rfl := hempty.unique [] [.placeholder, .token 1, .close, .close] .nil rfl
  exact ⟨hlog, houter, hempty, r, hr, (Option.some.inj hr.depth_eq).symm⟩

end Session

end TemplateTree
