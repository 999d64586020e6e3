import TemplateTree.Journal.Nesting
import TemplateTree.Proofs.Replay

/-!
# Matched journals

What a session writes down is matched, placeholders or not, because without its
placeholders it writes down a forest. In a matched stretch every opening has exactly one
close, the scan for a token that starts at the opening stops there at the latest, and the
depth never falls below what it was in front of the stretch.
-/

namespace TemplateTree

open Rose

namespace Journal

variable {es fs inner inner' later later' front behind : List Entry} {label : Label}

/-- Openings of nodes count, whatever their labels are. -/
theorem depthBehind?_opening (h : label ≠ .plain .placeholder) (depth : Nat) :
    Entry.depthBehind? depth (.opening label) = some (depth + 1) := by
  rw [Entry.depthBehind?]
  intro he
  exact h (by simpa using he)

@[simp] theorem depthBehind?_nil (depth : Nat) : depthBehind? depth [] = some depth := rfl

theorem depthBehind?_cons (depth : Nat) (e : Entry) (es : List Entry) :
    depthBehind? depth (e :: es) = (e.depthBehind? depth).bind fun d => depthBehind? d es := rfl

theorem depthBehind?_append (depth : Nat) (es fs : List Entry) :
    depthBehind? depth (es ++ fs) = (depthBehind? depth es).bind fun d => depthBehind? d fs :=
  List.foldlM_append

theorem scanChecked_opening (depth : Nat) (h : label ≠ .plain .placeholder) (later : List Entry) :
    scanChecked depth (.opening label :: later) = scanChecked (depth + 1) later := by
  rw [scanChecked]
  intro he
  exact h (by simpa using he)

/-- Inside an open node the depth of a scan stays above zero until the scan stops. -/
theorem scanChecked_eq (depth : Nat) (hd : 0 < depth) (es : List Entry) :
    scanChecked depth es = some (scanForToken depth es) := by
  induction es generalizing depth with
  | nil => rfl
  | cons e es ih =>
    cases e with
    | opening label =>
      by_cases h : label = .plain .placeholder
      · rw [h, scanChecked, scanForToken, ih depth hd]
      · rw [scanChecked_opening depth h, scanForToken_opening depth h, ih _ (Nat.succ_pos depth)]
    | token n => rfl
    | close =>
      have hne : depth ≠ 0 := Nat.ne_of_gt hd
      rw [scanChecked, scanForToken, if_neg hne]
      by_cases hlast : depth - 1 = 0
      · rw [if_pos hlast, if_pos hlast]
      · rw [if_neg hlast, if_neg hlast, ih _ (Nat.pos_of_ne_zero hlast)]

theorem add_depthBehind? {e : Entry} {depth d : Nat} (h : e.depthBehind? depth = some d)
    (n : Nat) : e.depthBehind? (n + depth) = some (n + d) := by
  cases e with
  | opening label =>
    by_cases hl : label = .plain .placeholder
    · subst hl
      rw [Entry.depthBehind?, Option.some_inj] at h ⊢
      omega
    · rw [depthBehind?_opening hl, Option.some_inj] at h ⊢
      omega
  | token number =>
    rw [Entry.depthBehind?, Option.some_inj] at h ⊢
    omega
  | close =>
    rw [Entry.depthBehind?] at h ⊢
    split at h
    · cases h
    · rw [if_neg (by omega)]
      rw [Option.some_inj] at h ⊢
      omega

/-- A stretch that can be read at one depth can be read at any greater depth. -/
theorem depthBehind?_add {depth d : Nat} (h : depthBehind? depth es = some d) (n : Nat) :
    depthBehind? (n + depth) es = some (n + d) := by
  induction es generalizing depth with
  | nil =>
    rw [depthBehind?_nil, Option.some_inj] at h ⊢
    omega
  | cons e es ih =>
    rw [depthBehind?_cons] at h ⊢
    obtain ⟨c, hc, hrest⟩ := Option.bind_eq_some_iff.mp h
    rw [add_depthBehind? hc, Option.bind_some]
    exact ih hrest

namespace Matched

theorem append (hes : Matched es) (hfs : Matched fs) : Matched (es ++ fs) := by
  induction hes with
  | nil => exact hfs
  | placeholder _ ih => exact .placeholder ih
  | token _ ih => exact .token ih
  | node hlabel hinner _ _ ih =>
    rw [List.cons_append, List.append_assoc, List.cons_append]
    exact .node hlabel hinner ih

theorem of_placeholders (h : ∀ e ∈ es, e = .placeholder) : Matched es := by
  induction es with
  | nil => exact .nil
  | cons e es ih =>
    obtain ⟨rfl, hes⟩ := List.forall_mem_cons.mp h
    exact .placeholder (ih hes)

/-- A matched stretch ends at the depth at which it starts. -/
theorem depthBehind?_eq (h : Matched es) (depth : Nat) : depthBehind? depth es = some depth := by
  induction h generalizing depth with
  | nil => rfl
  | placeholder _ ih => exact ih depth
  | token _ ih => exact ih depth
  | node hlabel _ _ ihinner ihlater =>
    rw [depthBehind?_cons, depthBehind?_opening hlabel, Option.bind_some, depthBehind?_append,
      ihinner, Option.bind_some, depthBehind?_cons]
    exact ihlater depth

/-- Within a matched stretch the depth does not fall below the one in front of it. -/
theorem exists_depthBehind?_eq (h : Matched (front ++ behind)) (depth : Nat) :
    ∃ d, depth ≤ d ∧ depthBehind? depth front = some d := by
  have hall := h.depthBehind?_eq 0
  rw [depthBehind?_append] at hall
  obtain ⟨d, hfront, -⟩ := Option.bind_eq_some_iff.mp hall
  exact ⟨depth + d, Nat.le_add_right depth d, depthBehind?_add hfront depth⟩

/-- Between the first opening and the last close of a journal the depth is positive. -/
theorem exists_pos_depthBehind?_eq (h : Matched es) (hlabel : label ≠ .plain .placeholder)
    (he : .opening label :: (es ++ [.close]) = front ++ behind) (hfront : front ≠ [])
    (hbehind : behind ≠ []) : ∃ d, 0 < d ∧ depthBehind? 0 front = some d := by
  obtain ⟨e, front, rfl⟩ := List.exists_cons_of_ne_nil hfront
  rw [List.cons_append] at he
  obtain ⟨rfl, hinside⟩ := List.cons.inj he
  obtain ⟨inside, last, rfl⟩ : ∃ inside last, behind = inside ++ [last] :=
    ⟨_, _, (List.dropLast_concat_getLast hbehind).symm⟩
  rw [← List.append_assoc] at hinside
  obtain ⟨rfl, -⟩ := List.append_inj' hinside rfl
  obtain ⟨d, hd, hdepth⟩ := h.exists_depthBehind?_eq 1
  rw [depthBehind?_cons, depthBehind?_opening hlabel]
  exact ⟨d, hd, hdepth⟩

/-- Behind a matched stretch nothing is open that the stretch has opened. -/
theorem not_append_close (h : Matched inner) : ¬ Matched (inner ++ .close :: later) := by
  intro hlonger
  have hdepth := hlonger.depthBehind?_eq 0
  rw [depthBehind?_append, h.depthBehind?_eq 0] at hdepth
  cases hdepth

/-- A node has one close. -/
theorem append_close_inj (h : Matched inner) (h' : Matched inner')
    (he : inner ++ .close :: later = inner' ++ .close :: later') :
    inner = inner' ∧ later = later' := by
  have hinner : inner = inner' := by
    rcases List.append_eq_append_iff.mp he with ⟨more, rfl, hmore⟩ | ⟨more, rfl, hmore⟩
    · cases more with
      | nil => exact (List.append_nil inner).symm
      | cons e more =>
        obtain ⟨rfl, -⟩ := List.cons.inj hmore
        exact absurd h' h.not_append_close
    · cases more with
      | nil => exact List.append_nil inner'
      | cons e more =>
        obtain ⟨rfl, -⟩ := List.cons.inj hmore
        exact absurd h h'.not_append_close
  subst hinner
  exact ⟨rfl, (List.cons.inj (List.append_cancel_left he)).2⟩

/-- A node that opens in a matched stretch closes in it. -/
theorem exists_close (h : Matched es) (hlabel : label ≠ .plain .placeholder)
    (he : es = front ++ .opening label :: behind) :
    ∃ inner later, behind = inner ++ .close :: later ∧ Matched inner := by
  induction h generalizing front behind with
  | nil => simp at he
  | placeholder _ ih =>
    cases front with
    | nil =>
      obtain ⟨hopening, -⟩ := List.cons.inj he
      exact absurd (Entry.opening.inj hopening).symm hlabel
    | cons e front => exact ih (List.cons.inj he).2
  | token _ ih =>
    cases front with
    | nil => cases he
    | cons e front => exact ih (List.cons.inj he).2
  | @node label' inner later _ hinner _ ihinner ihlater =>
    cases front with
    | nil =>
      obtain ⟨-, hbehind⟩ := List.cons.inj he
      exact ⟨inner, later, hbehind.symm, hinner⟩
    | cons e front =>
      -- The node opens inside the first node of the stretch, or behind that.
      rcases List.append_eq_append_iff.mp (List.cons.inj he).2 with
        ⟨more, rfl, hmore⟩ | ⟨more, rfl, hmore⟩
      · cases more with
        | nil => cases hmore
        | cons e more => exact ihlater (List.cons.inj hmore).2
      · cases more with
        | nil => cases hmore
        | cons e more =>
          obtain ⟨rfl, rfl⟩ := List.cons.inj hmore
          obtain ⟨inner', later', rfl, hinner'⟩ := ihinner rfl
          exact ⟨inner', later' ++ .close :: later, by simp, hinner'⟩

/-- A scan inside an open node finds the tokens of a matched stretch, or goes on behind it. -/
theorem scanForToken_append_iff (h : Matched inner) {depth : Nat} (hd : 0 < depth)
    (later : List Entry) :
    scanForToken depth (inner ++ later) = true ↔
      (∃ n, .token n ∈ inner) ∨ scanForToken depth later = true := by
  induction h generalizing depth later with
  | nil => simp
  | placeholder _ ih => simp [scanForToken, ih hd]
  | token _ ih => simp [scanForToken]
  | @node label inner' later' hlabel _ _ ihinner ihlater =>
    have hclose : scanForToken (depth + 1) (.close :: (later' ++ later)) =
        scanForToken depth (later' ++ later) := by
      rw [scanForToken, Nat.add_sub_cancel, if_neg (Nat.ne_of_gt hd)]
    rw [List.cons_append, scanForToken_opening depth hlabel, List.append_assoc, List.cons_append,
      ihinner (Nat.succ_pos depth), hclose, ihlater hd]
    simp [or_assoc, exists_or]

/-- The scan at an opening looks at what stands before the close of the node. -/
theorem coversToken_iff (h : Matched inner) (hlabel : label ≠ .plain .placeholder)
    (later : List Entry) :
    coversToken (.opening label :: (inner ++ .close :: later)) = true ↔ ∃ n, .token n ∈ inner := by
  rw [coversToken, scanForToken_opening 0 hlabel, h.scanForToken_append_iff Nat.one_pos]
  simp [scanForToken]

/-- Placeholders may stand anywhere. -/
theorem of_settled (h : Matched fs) (he : settled es = fs) : Matched es := by
  have hcons : ∀ {e es fs}, settled es = e :: fs →
      ∃ skipped rest, es = skipped ++ e :: rest ∧ Matched skipped ∧ settled rest = fs := by
    intro e es fs he
    obtain ⟨skipped, rest, rfl, hskipped, -, hrest⟩ := List.filter_eq_cons_iff.mp he
    exact ⟨skipped, rest, rfl, of_placeholders (by simpa using hskipped), hrest⟩
  induction h generalizing es with
  | nil =>
    have hnone := List.filter_eq_nil_iff.mp he
    exact of_placeholders (by simpa using hnone)
  | placeholder _ ih =>
    obtain ⟨skipped, rest, rfl, hskipped, hrest⟩ := hcons he
    exact hskipped.append (.placeholder (ih hrest))
  | token _ ih =>
    obtain ⟨skipped, rest, rfl, hskipped, hrest⟩ := hcons he
    exact hskipped.append (.token (ih hrest))
  | node hlabel _ _ ihinner ihlater =>
    obtain ⟨skipped, rest, rfl, hskipped, hrest⟩ := hcons he
    obtain ⟨inside, others, rfl, hinside, hothers⟩ := List.filter_eq_append_iff.mp hrest
    obtain ⟨last, later, rfl, hlast, hlater⟩ := hcons hothers
    rw [← List.append_assoc inside]
    exact hskipped.append (.node hlabel ((ihinner hinside).append hlast) (ihlater hlater))

end Matched

mutual

theorem matched_entries (n : Nat) (r : Rose Kind) (h : Rose.Settled [r]) :
    Matched (entries n r) := by
  cases r with
  | token k => exact .token .nil
  | node label children => exact .node h.label_ne (matched_entriesAll n children h.children) .nil

/-- The entries that write a forest down are matched. -/
theorem matched_entriesAll (n : Nat) (rs : List (Rose Kind)) (h : Rose.Settled rs) :
    Matched (entriesAll n rs) := by
  cases rs with
  | nil => exact .nil
  | cons r rs => exact (matched_entries n r h.first).append (matched_entriesAll _ rs h.others)

end

/-- The node that opens right before `behind` has `inner` inside: this is what stands before
its close. The scan that starts at the opening never has to take anything away from a depth
of zero, and it finds a token exactly if there is one inside. -/
structure Encloses (label : Label) (behind inner : List Entry) : Prop where
  matched : Matched inner
  closed : ∃ later, behind = inner ++ .close :: later
  unique : ∀ inner' later, Matched inner' → behind = inner' ++ .close :: later → inner' = inner
  checked : scanChecked 0 (.opening label :: behind) = some (coversToken (.opening label :: behind))
  covers_iff : coversToken (.opening label :: behind) = true ↔ ∃ n, .token n ∈ inner

/-- Every node that opens in a matched stretch encloses something. -/
theorem Matched.exists_encloses (h : Matched es) (hlabel : label ≠ .plain .placeholder)
    (he : es = front ++ .opening label :: behind) : ∃ inner, Encloses label behind inner := by
  obtain ⟨inner, later, rfl, hinner⟩ := h.exists_close hlabel he
  refine ⟨inner, hinner, ⟨later, rfl⟩, ?_, ?_, hinner.coversToken_iff hlabel later⟩
  · intro inner' later' hinner' heq
    exact (hinner'.append_close_inj hinner heq.symm).1
  · rw [scanChecked_opening 0 hlabel, scanChecked_eq 1 Nat.one_pos, coversToken,
      scanForToken_opening 0 hlabel]

end Journal

end TemplateTree
