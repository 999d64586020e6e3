import TemplateTree.Proofs.Rose.Laying
import TemplateTree.Proofs.Tree.Coverage
import TemplateTree.TokenStream

/-!
# Accepted token streams

What is known of a list of tokens once it was accepted for a text: the stream
keeps text and tokens as they are, each token fits the text, which means that its kind
is one that a tokenizer produces and that it ends between two characters, the tokens
are as long as the text, and every offset in the text fits.
-/

namespace TemplateTree.TokenStream

open Rose Token

/-- A token of a kind that ends at an offset fits the text. -/
structure Fits (text : String) (kind : Kind) (stop : Nat) : Prop where
  terminal : kind.isTerminal = true
  stop_le : stop ≤ text.utf8ByteSize
  boundary : IsBoundary text stop

/-- All the tokens fit the text, laid end to end from an offset. -/
def AllFit (text : String) (offset : Nat) (tokens : List Token) : Prop :=
  ∀ p ∈ spread offset tokens, Fits text p.1 p.2.stop

variable {text : String} {index offset : Nat} {t : Token}

theorem allFit_nil : AllFit text offset [] := fun _ hp => nomatch hp

theorem allFit_cons {ts : List Token} :
    AllFit text offset (t :: ts) ↔
      Fits text t.kind (offset + t.length) ∧ AllFit text (offset + t.length) ts :=
  List.forall_mem_cons

theorem AllFit.isTerminal {ts : List Token} (h : AllFit text offset ts) (ht : t ∈ ts) :
    t.kind.isTerminal = true := by
  have hkind := List.mem_map_of_mem (f := Token.kind) ht
  rw [← map_fst_spread offset] at hkind
  obtain ⟨p, hp, hkind⟩ := List.mem_map.mp hkind
  exact hkind ▸ (h p hp).terminal

/-- A check that runs through has met only tokens that fit, and ends exactly where the
text ends. -/
theorem allFit_of_check {ts : List Token} (h : check text index offset ts = .ok ())
    (hoffset : offset < offsetLimit) :
    AllFit text offset ts ∧ offset + extent ts = text.utf8ByteSize ∧
      text.utf8ByteSize < offsetLimit := by
  induction ts generalizing index offset with
  | nil =>
    unfold check at h
    split at h
    · rename_i he
      exact ⟨allFit_nil, he, he ▸ hoffset⟩
    · cases h
  | cons t ts ih =>
    rw [check] at h
    split at h
    · cases h
    · rename_i hkind
      split at h
      · cases h
      · rename_i stop hstop
        obtain ⟨rfl, hlt⟩ := advance?_eq_some_iff.mp hstop
        split at h
        · cases h
        · split at h
          · rename_i hle hboundary
            obtain ⟨hothers, hextent, hlimit⟩ := ih h hlt
            have hfirst : Fits text t.kind (offset + t.length) :=
              ⟨by simpa using hkind, Nat.not_lt.mp hle, hboundary⟩
            rw [extent_cons, ← Nat.add_assoc]
            exact ⟨allFit_cons.mpr ⟨hfirst, hothers⟩, hextent, hlimit⟩
          · cases h

section

variable {tokens : List Token} {stream : TokenStream}

/-- An accepted stream consists of its text and tokens, which fit and are equally long. -/
theorem allFit_of_ofTokens (h : ofTokens text tokens = .ok stream) :
    (stream.text = text ∧ stream.tokens.toList = tokens) ∧ AllFit text 0 tokens ∧
      extent tokens = text.utf8ByteSize ∧ text.utf8ByteSize < offsetLimit := by
  unfold ofTokens at h
  split at h
  · rename_i hcheck
    obtain rfl := Except.ok.inj h
    obtain ⟨hfit, hextent, hlimit⟩ := allFit_of_check hcheck (by decide)
    exact ⟨⟨rfl, rfl⟩, hfit, by omega, hlimit⟩
  · cases h

theorem ofTokens_eq_ok (h : ofTokens text tokens = .ok stream) :
    stream.text = text ∧ stream.tokens.toList = tokens ∧
      extent tokens = text.utf8ByteSize ∧ text.utf8ByteSize < offsetLimit := by
  obtain ⟨⟨htext, htokens⟩, -, hextent, hlimit⟩ := allFit_of_ofTokens h
  exact ⟨htext, htokens, hextent, hlimit⟩

/-- No token of an accepted stream has a kind that only nodes have. -/
theorem isTerminal_of_ofTokens (h : ofTokens text tokens = .ok stream) {k : Kind}
    (hk : k ∈ stream.kinds) : k.isTerminal = true := by
  obtain ⟨⟨-, htokens⟩, hfit, -⟩ := allFit_of_ofTokens h
  rw [kinds, htokens] at hk
  obtain ⟨t, ht, rfl⟩ := List.mem_map.mp (List.mem_filter.mp hk).1
  exact hfit.isTerminal ht

end

theorem kinds_eq_significantKinds (s : TokenStream) :
    s.kinds = Token.significantKinds s.tokens.toList := rfl

end TemplateTree.TokenStream
