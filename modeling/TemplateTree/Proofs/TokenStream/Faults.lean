import TemplateTree.Proofs.TokenStream

/-!
# Faults of token lists

When a list of tokens is accepted for a text and what is reported if it is not, said
without the check. A token fits the text if its kind is one that a tokenizer produces
and it ends between two characters. The first token that does not fit is reported
under its number; if there is none, the tokens taken together may still be shorter
than the text.

The offset at which a token ends is computed before it is compared with the length of
the text. So this holds as far as offsets reach: where the sum of the lengths leaves
the range of offsets at a token before which all tokens fit, the check comes to no
answer. This is the only way in which it can fail, and no list whose lengths add up to
less than the limit of offsets fails like this.
-/

namespace TemplateTree

open Rose Token

namespace TokenStream

/-- What is wrong with a token that does not fit. -/
inductive Misfit (text : String) (index : Nat) (kind : Kind) (stop : Nat) : Fault → Prop
  | notTerminal : kind.isTerminal = false → Misfit text index kind stop (.notTerminal index kind)
  | beyond : kind.isTerminal = true → text.utf8ByteSize < stop →
      Misfit text index kind stop (.lengthMismatch stop text.utf8ByteSize)
  | inside : kind.isTerminal = true → stop ≤ text.utf8ByteSize → ¬IsBoundary text stop →
      Misfit text index kind stop (.insideCharacter index stop)

variable {text : String} {index offset : Nat} {t : Token} {fault : Fault}

theorem exists_misfit {kind : Kind} {stop : Nat} (h : ¬Fits text kind stop) (index : Nat) :
    ∃ fault, Misfit text index kind stop fault := by
  by_cases hkind : kind.isTerminal = true
  · by_cases hstop : stop ≤ text.utf8ByteSize
    · exact ⟨_, .inside hkind hstop fun hboundary => h ⟨hkind, hstop, hboundary⟩⟩
    · exact ⟨_, .beyond hkind (Nat.not_le.mp hstop)⟩
  · rw [Bool.not_eq_true] at hkind
    exact ⟨_, .notTerminal hkind⟩

/-- What is wrong with a token has a name. -/
theorem Misfit.exists_label {kind : Kind} {stop : Nat} (h : Misfit text index kind stop fault) :
    ∃ label, fault.label? = some label := by
  cases h <;> exact ⟨_, rfl⟩

theorem AllFit.extent_le {ts : List Token} (h : AllFit text offset ts)
    (hoffset : offset ≤ text.utf8ByteSize) : offset + extent ts ≤ text.utf8ByteSize := by
  induction ts generalizing offset with
  | nil => exact hoffset
  | cons t ts ih =>
    obtain ⟨hfirst, hothers⟩ := allFit_cons.mp h
    rw [extent_cons, ← Nat.add_assoc]
    exact ih hothers hfirst.stop_le

/-- Either all the tokens fit or there is a first that does not. -/
theorem allFit_or_exists_not_fits (text : String) (offset : Nat) (tokens : List Token) :
    AllFit text offset tokens ∨ ∃ before t after, tokens = before ++ t :: after ∧
      AllFit text offset before ∧ ¬Fits text t.kind (offset + extent before + t.length) := by
  induction tokens generalizing offset with
  | nil => exact .inl allFit_nil
  | cons t ts ih =>
    by_cases hfirst : Fits text t.kind (offset + t.length)
    · rcases ih (offset + t.length) with hothers | ⟨before, u, after, rfl, hbefore, hu⟩
      · exact .inl (allFit_cons.mpr ⟨hfirst, hothers⟩)
      · refine .inr ⟨t :: before, u, after, rfl, allFit_cons.mpr ⟨hfirst, hbefore⟩, ?_⟩
        rwa [extent_cons, ← Nat.add_assoc]
    · exact .inr ⟨[], t, ts, rfl, allFit_nil, hfirst⟩

/-- The check goes past tokens that fit, as long as their ends are offsets. -/
theorem check_append {before : List Token} (after : List Token) (hfit : AllFit text offset before)
    (hlt : offset + extent before < offsetLimit) :
    check text index offset (before ++ after) =
      check text (index + before.length) (offset + extent before) after := by
  induction before generalizing index offset with
  | nil => rfl
  | cons t ts ih =>
    obtain ⟨⟨hkind, hstop, hboundary⟩, hothers⟩ := allFit_cons.mp hfit
    rw [extent_cons, ← Nat.add_assoc] at hlt ⊢
    rw [List.cons_append, check, if_neg (by simpa using hkind),
      advance?_eq_some_iff.mpr ⟨rfl, Nat.lt_of_le_of_lt (Nat.le_add_right _ _) hlt⟩]
    simp only [if_neg (Nat.not_lt.mpr hstop), if_pos hboundary]
    rw [ih hothers hlt, List.length_cons, Nat.add_assoc, Nat.add_comm 1]

/-- A token that does not fit is reported, if its end is an offset. -/
theorem check_of_misfit (after : List Token)
    (h : Misfit text index t.kind (offset + t.length) fault)
    (hlt : t.kind.isTerminal = true → offset + t.length < offsetLimit) :
    check text index offset (t :: after) = .error fault := by
  rw [check]
  cases h with
  | notTerminal hkind => rw [if_pos (by simpa using hkind)]
  | beyond hkind hstop =>
    rw [if_neg (by simpa using hkind), advance?_eq_some_iff.mpr ⟨rfl, hlt hkind⟩]
    exact if_pos hstop
  | inside hkind hstop hinside =>
    rw [if_neg (by simpa using hkind), advance?_eq_some_iff.mpr ⟨rfl, hlt hkind⟩]
    simp only [if_neg (Nat.not_lt.mpr hstop), if_neg hinside]

/-- What there is to report of tokens for a text. -/
inductive Reports (text : String) : List Token → Fault → Prop
  /-- The first token that does not fit. -/
  | first {before : List Token} {t : Token} {after : List Token} {fault : Fault} :
      AllFit text 0 before → Misfit text before.length t.kind (extent before + t.length) fault →
      Reports text (before ++ t :: after) fault
  /-- All tokens fit, but they do not make up the text. -/
  | whole {tokens : List Token} : AllFit text 0 tokens → extent tokens ≠ text.utf8ByteSize →
      Reports text tokens (.lengthMismatch (extent tokens) text.utf8ByteSize)

/-- The tokens tile the text, or else there is something to report. -/
theorem tiles_or_exists_reports (text : String) (tokens : List Token) :
    (AllFit text 0 tokens ∧ extent tokens = text.utf8ByteSize) ∨
      ∃ fault, Reports text tokens fault := by
  rcases allFit_or_exists_not_fits text 0 tokens with hfit | ⟨before, t, after, rfl, hfit, ht⟩
  · by_cases hextent : extent tokens = text.utf8ByteSize
    · exact .inl ⟨hfit, hextent⟩
    · exact .inr ⟨_, .whole hfit hextent⟩
  · rw [Nat.zero_add] at ht
    obtain ⟨fault, hmisfit⟩ := exists_misfit ht before.length
    exact .inr ⟨fault, .first hfit hmisfit⟩

theorem check_of_allFit {tokens : List Token} (hfit : AllFit text 0 tokens)
    (hlt : extent tokens < offsetLimit) :
    check text 0 0 tokens =
      if extent tokens = text.utf8ByteSize then .ok ()
      else .error (.lengthMismatch (extent tokens) text.utf8ByteSize) := by
  have hcheck : check text 0 0 (tokens ++ []) =
      check text (0 + tokens.length) (0 + extent tokens) [] :=
    check_append [] hfit (by rwa [Nat.zero_add])
  rwa [List.append_nil, check, Nat.zero_add] at hcheck

/-- Tokens that tile a text are accepted. -/
theorem exists_ofTokens_eq_ok {tokens : List Token} (hfit : AllFit text 0 tokens)
    (hextent : extent tokens = text.utf8ByteSize) (hlt : extent tokens < offsetLimit) :
    ∃ stream, ofTokens text tokens = .ok stream := by
  have hcheck := check_of_allFit hfit hlt
  rw [if_pos hextent] at hcheck
  exact ⟨_, by rw [ofTokens, hcheck]⟩

/-- Tokens that fit but do not make up the text are not. -/
theorem ofTokens_of_extent_ne {tokens : List Token} (hfit : AllFit text 0 tokens)
    (hextent : extent tokens ≠ text.utf8ByteSize) (hlt : extent tokens < offsetLimit) :
    ofTokens text tokens = .error (.lengthMismatch (extent tokens) text.utf8ByteSize) := by
  rw [ofTokens, check_of_allFit hfit hlt, if_neg hextent]

section

variable {before : List Token} (after : List Token)

/-- Behind tokens that fit, one that does not is reported, if its end is an offset. -/
theorem ofTokens_of_misfit (hfit : AllFit text 0 before) (hbefore : extent before < offsetLimit)
    (h : Misfit text before.length t.kind (extent before + t.length) fault)
    (hlt : t.kind.isTerminal = true → extent before + t.length < offsetLimit) :
    ofTokens text (before ++ t :: after) = .error fault := by
  rw [ofTokens, check_append _ hfit (by rwa [Nat.zero_add]), Nat.zero_add, Nat.zero_add,
    check_of_misfit after h hlt]

/-- There is no answer if its end is none. -/
theorem ofTokens_of_overflow (hfit : AllFit text 0 before) (hbefore : extent before < offsetLimit)
    (hkind : t.kind.isTerminal = true) (h : offsetLimit ≤ extent before + t.length) :
    ofTokens text (before ++ t :: after) = .error .offsetOverflow := by
  rw [ofTokens, check_append _ hfit (by rwa [Nat.zero_add]), Nat.zero_add, Nat.zero_add, check,
    if_neg (by simpa using hkind), advance?_eq_none_iff.mpr h]

end

/-- What there is to report is reported, as long as the lengths add up to an offset. -/
theorem ofTokens_eq_error {tokens : List Token} (h : Reports text tokens fault)
    (hlt : extent tokens < offsetLimit) : ofTokens text tokens = .error fault := by
  cases h with
  | @first before t after _ hfit hmisfit =>
    rw [extent_append, extent_cons] at hlt
    exact ofTokens_of_misfit after hfit (by omega) hmisfit fun _ => by omega
  | whole hfit hextent => exact ofTokens_of_extent_ne hfit hextent hlt

/-- Tokens are accepted exactly if they tile the text. -/
theorem exists_ofTokens_eq_ok_iff {tokens : List Token} (hlt : extent tokens < offsetLimit) :
    (∃ stream, ofTokens text tokens = .ok stream) ↔
      AllFit text 0 tokens ∧ extent tokens = text.utf8ByteSize := by
  constructor
  · rintro ⟨stream, hstream⟩
    obtain ⟨-, hfit, hextent, -⟩ := allFit_of_ofTokens hstream
    exact ⟨hfit, hextent⟩
  · rintro ⟨hfit, hextent⟩
    exact exists_ofTokens_eq_ok hfit hextent hlt

theorem ofTokens_eq_error_iff {tokens : List Token} (hlt : extent tokens < offsetLimit) :
    ofTokens text tokens = .error fault ↔ Reports text tokens fault := by
  refine ⟨fun herror => ?_, fun hreports => ofTokens_eq_error hreports hlt⟩
  rcases tiles_or_exists_reports text tokens with ⟨hfit, hextent⟩ | ⟨found, hreports⟩
  · obtain ⟨stream, hstream⟩ := exists_ofTokens_eq_ok hfit hextent hlt
    cases hstream.symm.trans herror
  · obtain rfl := Except.error.inj ((ofTokens_eq_error hreports hlt).symm.trans herror)
    exact hreports

/-- The sum of the lengths leaves the range of offsets at a token of a kind that a tokenizer
produces, before which all tokens fit. -/
def Overflows (text : String) (tokens : List Token) : Prop :=
  ∃ before t after, tokens = before ++ t :: after ∧ AllFit text 0 before ∧
    t.kind.isTerminal = true ∧ offsetLimit ≤ extent before + t.length

section

variable {tokens : List Token} (htext : text.utf8ByteSize < offsetLimit)

include htext

theorem extent_lt_of_allFit {ts : List Token} (hfit : AllFit text 0 ts) :
    extent ts < offsetLimit := by
  have hle := hfit.extent_le (Nat.zero_le _)
  omega

theorem Overflows.ofTokens_eq (h : Overflows text tokens) :
    ofTokens text tokens = .error .offsetOverflow := by
  obtain ⟨before, t, after, rfl, hfit, hkind, hsum⟩ := h
  exact ofTokens_of_overflow after hfit (extent_lt_of_allFit htext hfit) hkind hsum

/-- Where the offsets suffice, there is an answer. -/
theorem ofTokens_of_not_overflows (h : ¬Overflows text tokens) :
    (∃ stream, ofTokens text tokens = .ok stream) ∨
      ∃ fault label, ofTokens text tokens = .error fault ∧ fault.label? = some label := by
  rcases tiles_or_exists_reports text tokens with ⟨hfit, hextent⟩ | ⟨fault, hreports⟩
  · exact .inl (exists_ofTokens_eq_ok hfit hextent (hextent ▸ htext))
  · cases hreports with
    | @first before t after _ hfit hmisfit =>
      obtain ⟨label, hlabel⟩ := hmisfit.exists_label
      refine .inr ⟨fault, label, ?_, hlabel⟩
      refine ofTokens_of_misfit after hfit (extent_lt_of_allFit htext hfit) hmisfit fun hkind => ?_
      exact Nat.not_le.mp fun hsum => h ⟨before, t, after, rfl, hfit, hkind, hsum⟩
    | whole hfit hextent =>
      exact .inr ⟨_, _, ofTokens_of_extent_ne hfit hextent (extent_lt_of_allFit htext hfit), rfl⟩

/-- The check of tokens comes to no answer exactly where the sum of the lengths leaves the
range of offsets at a token of a kind that a tokenizer produces, before which all tokens fit.
Everywhere else tokens are accepted or a fault with a name is reported; and tokens whose
lengths do not add up to that of the text are never accepted. -/
theorem ofTokens_overflows_iff :
    (ofTokens text tokens = .error .offsetOverflow ↔ Overflows text tokens) ∧
      (¬Overflows text tokens → (∃ stream, ofTokens text tokens = .ok stream) ∨
        ∃ fault label, ofTokens text tokens = .error fault ∧ fault.label? = some label) ∧
      (extent tokens ≠ text.utf8ByteSize → ∃ fault, ofTokens text tokens = .error fault) := by
  refine ⟨⟨fun herror => ?_, fun h => h.ofTokens_eq htext⟩,
    fun h => ofTokens_of_not_overflows htext h, fun hextent => ?_⟩
  · refine Classical.byContradiction fun hnot => ?_
    rcases ofTokens_of_not_overflows htext hnot with ⟨stream, hstream⟩ | ⟨fault, label, hf, hlabel⟩
    · cases hstream.symm.trans herror
    · obtain rfl := Except.error.inj (hf.symm.trans herror)
      cases hlabel
  · cases hresult : ofTokens text tokens with
    | ok stream => exact absurd (ofTokens_eq_ok hresult).2.2.1 hextent
    | error fault => exact ⟨fault, rfl⟩

end

/-- The second of two tokens over a single letter has the greatest length that there is. -/
theorem ofTokens_overflows_behind_letter :
    "a".utf8ByteSize < offsetLimit ∧
      (∀ t ∈ [(⟨.content, 1⟩ : Token), ⟨.content, 4294967295⟩], t.length < offsetLimit) ∧
      extent [⟨.content, 1⟩, ⟨.content, 4294967295⟩] ≠ "a".utf8ByteSize ∧
      ofTokens "a" [⟨.content, 1⟩, ⟨.content, 4294967295⟩] = .error .offsetOverflow := by
  have htext : "a".utf8ByteSize < offsetLimit := by decide
  have hfit : AllFit "a" 0 [⟨.content, 1⟩] :=
    allFit_cons.mpr ⟨⟨rfl, by decide, by decide⟩, allFit_nil⟩
  refine ⟨htext, by decide, by decide, (ofTokens_overflows_iff htext).1.mpr ?_⟩
  exact ⟨[⟨.content, 1⟩], ⟨.content, 4294967295⟩, [], rfl, hfit, rfl, by decide⟩

end TokenStream

end TemplateTree
