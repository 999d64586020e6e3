import TemplateTree.Proofs.Text.Pieces
import TemplateTree.Proofs.TokenStream.Faults

/-!
# Streams of pieces

Tokens that are given by their own texts tile the text that these make up, so nothing
can be wrong with them but their kinds, and cutting the text where they end gives the
pieces back. Every stream that was accepted is the stream of such pieces.
-/

namespace TemplateTree.TokenStream

open Rose Token

theorem ofPieces_eq_ofTokens (pieces : List (Kind × String)) :
    ofPieces pieces = ofTokens (Pieces.text pieces) (Pieces.tokens pieces) := rfl

theorem map_kind_tokens (pieces : List (Kind × String)) :
    (Pieces.tokens pieces).map (·.kind) = pieces.map (·.1) := by
  rw [Pieces.tokens, List.map_map]
  rfl

theorem extent_tokens_eq_total (pieces : List (Kind × String)) :
    extent (Pieces.tokens pieces) = total (fun p => p.2.utf8ByteSize) pieces := by
  induction pieces with
  | nil => rfl
  | cons p ps ih => rw [Pieces.tokens_cons, extent_cons, ih, total_cons, Token.ofPiece]

/-- The tokens of the first pieces fit the text of all of them exactly if their kinds do. -/
theorem allFit_tokens {before after : List (Kind × String)} :
    AllFit (Pieces.text (before ++ after)) 0 (Pieces.tokens before) ↔
      ∀ q ∈ before, q.1.isTerminal = true := by
  constructor
  · intro h q hq
    exact h.isTerminal (List.mem_map_of_mem (f := Token.ofPiece) hq)
  · intro h p hp
    have hmem := List.mem_map_of_mem (f := Prod.fst) hp
    rw [map_fst_spread, map_kind_tokens] at hmem
    obtain ⟨q, hq, hkind⟩ := List.mem_map.mp hmem
    have hboundary : IsBoundary (Pieces.text (before ++ after)) p.2.stop := by
      apply Pieces.isBoundary_of_mem_spread
      rw [Pieces.tokens_append, spread_append]
      exact List.mem_append_left _ hp
    exact ⟨hkind ▸ h q hq, hboundary.le, hboundary⟩

/-- All that can be wrong with the tokens of pieces is the kind of one of them. -/
theorem reports_pieces_iff {pieces : List (Kind × String)} {fault : Fault} :
    Reports (Pieces.text pieces) (Pieces.tokens pieces) fault ↔
      ∃ before p after, pieces = before ++ p :: after ∧ (∀ q ∈ before, q.1.isTerminal = true) ∧
        p.1.isTerminal = false ∧ fault = .notTerminal before.length p.1 := by
  constructor
  · intro h
    generalize htokens : Pieces.tokens pieces = tokens at h
    cases h with
    | first hfit hmisfit =>
      obtain ⟨before, rest, rfl, rfl, hrest⟩ := List.map_eq_append_iff.mp htokens
      obtain ⟨p, after, rfl, rfl, rfl⟩ := List.map_eq_cons_iff.mp hrest
      have hbefore := allFit_tokens.mp hfit
      have hboundary := Pieces.isBoundary_text (before ++ [p]) after
      rw [List.append_assoc, Pieces.tokens_append, extent_append] at hboundary
      cases hmisfit with
      | notTerminal hkind =>
        exact ⟨before, p, after, rfl, hbefore, hkind, by rw [List.length_map]; rfl⟩
      | beyond _ hstop => exact absurd hboundary.le (Nat.not_le.mpr hstop)
      | inside _ _ hinside => exact absurd hboundary hinside
    | whole _ hextent =>
      rw [← htokens] at hextent
      exact absurd (Pieces.extent_tokens pieces) hextent
  · rintro ⟨before, p, after, rfl, hbefore, hkind, rfl⟩
    rw [Pieces.tokens_append, Pieces.tokens_cons]
    rw [show before.length = (Pieces.tokens before).length from (List.length_map _).symm]
    exact .first (allFit_tokens.mpr hbefore) (.notTerminal hkind)

/-- Every accepted stream is the stream of pieces of its text. -/
theorem exists_pieces_of_ofTokens {text : String} {tokens : List Token} {stream : TokenStream}
    (h : ofTokens text tokens = .ok stream) :
    ∃ pieces, text = Pieces.text pieces ∧ tokens = Pieces.tokens pieces := by
  obtain ⟨-, hfit, hextent, -⟩ := allFit_of_ofTokens h
  have hboundary : ∀ p ∈ spread "".utf8ByteSize tokens, IsBoundary ("" ++ text) p.2.stop := by
    intro p hp
    rw [String.empty_append]
    exact (hfit p hp).boundary
  obtain ⟨pieces, rfl, rfl⟩ := Pieces.exists_of_forall_isBoundary hboundary hextent
  exact ⟨pieces, rfl, rfl⟩

/-- Of tokens that are given by their own texts nothing but a kind can be wrong. They are
accepted exactly if all kinds are such as a tokenizer produces, and otherwise the first that is
not is reported. Cutting the text of the stream where its tokens end gives back the pieces. -/
theorem ofPieces_exact {pieces : List (Kind × String)}
    (hlt : total (fun p => p.2.utf8ByteSize) pieces < offsetLimit) :
    ((∃ stream, ofPieces pieces = .ok stream) ↔ ∀ p ∈ pieces, p.1.isTerminal = true) ∧
    (∀ fault, ofPieces pieces = .error fault ↔
      ∃ before p after, pieces = before ++ p :: after ∧ (∀ q ∈ before, q.1.isTerminal = true) ∧
        p.1.isTerminal = false ∧ fault = .notTerminal before.length p.1) ∧
    ∀ stream, ofPieces pieces = .ok stream →
      stream.text = String.join (pieces.map (·.2)) ∧
        stream.tokens.toList.map (·.kind) = pieces.map (·.1) ∧
        (spread 0 stream.tokens.toList).map (fun p => p.2.slice? stream.text) =
          pieces.map fun p => some p.2 := by
  have hsum : extent (Pieces.tokens pieces) < offsetLimit := extent_tokens_eq_total pieces ▸ hlt
  rw [ofPieces_eq_ofTokens]
  refine ⟨?_, fun fault => (ofTokens_eq_error_iff hsum).trans reports_pieces_iff, ?_⟩
  · have hkinds : AllFit (Pieces.text (pieces ++ [])) 0 (Pieces.tokens pieces) ↔
        ∀ p ∈ pieces, p.1.isTerminal = true := allFit_tokens
    rw [List.append_nil] at hkinds
    rw [exists_ofTokens_eq_ok_iff hsum, hkinds]
    exact and_iff_left (Pieces.extent_tokens pieces)
  · intro stream h
    obtain ⟨htext, htokens, -, -⟩ := ofTokens_eq_ok h
    rw [htext, htokens]
    exact ⟨rfl, map_kind_tokens pieces, Pieces.map_slice?_spread [] pieces⟩

/-- A piece of no kind that a tokenizer produces, behind an empty one and one that is a single
character of two bytes. -/
theorem ofPieces_exact_node_kind :
    total (fun p => p.2.utf8ByteSize) [(Kind.blank, ""), (.content, "é"), (.statements, "a"),
      (.error, "")] < offsetLimit ∧
    ofPieces [(.blank, ""), (.content, "é"), (.statements, "a"), (.error, "")] =
      .error (.notTerminal 2 .statements) := by
  have hlt : total (fun p => p.2.utf8ByteSize) [(Kind.blank, ""), (.content, "é"),
      (.statements, "a"), (.error, "")] < offsetLimit := by decide
  refine ⟨hlt, ((ofPieces_exact hlt).2.1 _).mpr ?_⟩
  exact ⟨[(.blank, ""), (.content, "é")], (.statements, "a"), [(.error, "")], rfl, by decide, rfl, rfl⟩

end TemplateTree.TokenStream
