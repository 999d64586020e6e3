import TemplateTree.Proofs.Tree.Coverage

/-!
# Pieces

A list of tokens cuts a text into pieces if the text consists of pieces that are as
long as the tokens. Then every offset at which a token ends lies between two
characters, and a span that runs from one of these offsets to another cuts out what
stands between them. Pieces that are laid end to end are cut like this by the tokens
that they make, and conversely there are such pieces wherever all the tokens end
between characters.
-/

namespace TemplateTree

open Rose

/-- Where a text is parted twice, the longer of the two fronts goes on from the shorter. -/
theorem exists_eq_append_of_le {a b c d : String} (h : a ++ b = c ++ d)
    (hle : a.utf8ByteSize ≤ c.utf8ByteSize) : ∃ m, c = a ++ m ∧ b = m ++ d := by
  have hchars := congrArg String.toList h
  rw [String.toList_append, String.toList_append, List.append_eq_append_iff] at hchars
  rcases hchars with ⟨m, hc, hb⟩ | ⟨m, ha, hd⟩
  · refine ⟨String.ofList m, String.toList_inj.mp ?_, String.toList_inj.mp ?_⟩
    · rw [hc, String.toList_append, String.toList_ofList]
    · rw [hb, String.toList_append, String.toList_ofList]
  · -- The shorter front is the longer one with `m` behind it, so there is nothing in `m`.
    have hfront : a = c ++ String.ofList m := by
      rw [← String.toList_inj, ha, String.toList_append, String.toList_ofList]
    rw [hfront, String.utf8ByteSize_append] at hle
    have hempty : String.ofList m = "" := String.utf8ByteSize_eq_zero_iff.mp (by omega)
    rw [hempty, String.append_empty] at hfront
    subst hfront
    exact ⟨"", String.append_empty.symm, by simpa using h⟩

/-- The span cuts a piece out of the text. -/
structure Span.Within (s : Span) (source : String) : Prop where
  start_le : s.start ≤ s.stop
  stop_le : s.stop ≤ source.utf8ByteSize
  start : IsBoundary source s.start
  stop : IsBoundary source s.stop

theorem Span.Within.isSome_slice? {s : Span} {source : String} (h : s.Within source) :
    (s.slice? source).isSome :=
  Span.slice?_isSome_iff.mpr ⟨h.start, h.stop, h.start_le⟩

/-- Only a span within a text cuts something out of it. -/
theorem Span.within_of_slice?_eq_some {s : Span} {source piece : String}
    (h : s.slice? source = some piece) : s.Within source := by
  obtain ⟨hstart, hstop, hle⟩ :=
    Span.slice?_isSome_iff.mp (Option.isSome_iff_exists.mpr ⟨piece, h⟩)
  exact ⟨hle, hstop.le, hstart, hstop⟩

/-- The token that a piece of a text makes. -/
def Token.ofPiece (p : Kind × String) : Token := ⟨p.1, p.2.utf8ByteSize⟩

namespace Pieces

/-- Pieces laid end to end. -/
def text (pieces : List (Kind × String)) : String := String.join (pieces.map (·.2))

def tokens (pieces : List (Kind × String)) : List Token := pieces.map Token.ofPiece

@[simp] theorem text_nil : text [] = "" := String.join_nil

@[simp] theorem text_cons (p : Kind × String) (ps : List (Kind × String)) :
    text (p :: ps) = p.2 ++ text ps := String.join_cons

@[simp] theorem text_append (ps qs : List (Kind × String)) :
    text (ps ++ qs) = text ps ++ text qs := by
  rw [text, List.map_append, String.join_append]
  rfl

theorem tokens_cons (p : Kind × String) (ps : List (Kind × String)) :
    tokens (p :: ps) = Token.ofPiece p :: tokens ps := rfl

theorem tokens_append (ps qs : List (Kind × String)) :
    tokens (ps ++ qs) = tokens ps ++ tokens qs := List.map_append

/-- Pieces are told by the tokens that they make and by their texts. -/
theorem eq_of_tokens_eq {ps qs : List (Kind × String)} (h : tokens ps = tokens qs)
    (htexts : ∀ i (hi : i < ps.length) (hi' : i < qs.length), ps[i].2 = qs[i].2) : ps = qs := by
  have hlength : ps.length = qs.length := by
    simpa [tokens] using congrArg List.length h
  refine List.ext_getElem hlength fun i hi hi' => Prod.ext ?_ (htexts i hi hi')
  have hkinds := congrArg (fun ts => ts[i]?.map (·.kind)) h
  simpa [tokens, Token.ofPiece, hi, hi'] using hkinds

/-- The tokens are as long as the text. -/
@[simp] theorem extent_tokens (ps : List (Kind × String)) :
    extent (tokens ps) = (text ps).utf8ByteSize := by
  induction ps with
  | nil => rfl
  | cons p ps ih =>
    rw [text_cons, String.utf8ByteSize_append, ← ih]
    rfl

theorem isBoundary_text (before after : List (Kind × String)) :
    IsBoundary (text (before ++ after)) (extent (tokens before)) :=
  ⟨text before, text after, text_append before after, (extent_tokens before).symm⟩

/-- The span of the tokens between others cuts out their pieces. -/
theorem slice?_text (before inside after : List (Kind × String)) :
    Span.slice? ⟨extent (tokens before), extent (tokens before) + extent (tokens inside)⟩
      (text (before ++ inside ++ after)) = some (text inside) := by
  rw [text_append, text_append, extent_tokens, extent_tokens]
  exact Span.slice?_append _ _ _

/-- Every token stands where its piece is. -/
theorem map_slice?_spread (before pieces : List (Kind × String)) :
    (Token.spread (extent (tokens before)) (tokens pieces)).map
        (fun p => p.2.slice? (text (before ++ pieces))) = pieces.map fun p => some p.2 := by
  induction pieces generalizing before with
  | nil => rfl
  | cons p ps ih =>
    have hfirst := slice?_text before [p] ps
    have hothers := ih (before ++ [p])
    have hlength : extent (tokens [p]) = (Token.ofPiece p).length := rfl
    rw [List.append_assoc, List.singleton_append, hlength] at hfirst
    rw [tokens_append, extent_append, List.append_assoc, List.singleton_append, hlength] at hothers
    rw [tokens_cons, Token.spread, List.map_cons, List.map_cons, hfirst, hothers]
    simp

/-- Every token of pieces ends between two characters of the text. -/
theorem isBoundary_of_mem_spread {pieces : List (Kind × String)} {p : Kind × Span}
    (h : p ∈ Token.spread 0 (tokens pieces)) : IsBoundary (text pieces) p.2.stop := by
  have hslices := map_slice?_spread [] pieces
  have hmem := List.mem_map_of_mem (f := fun p : Kind × Span => p.2.slice? (text pieces)) h
  rw [show extent (tokens []) = 0 from rfl, List.nil_append] at hslices
  rw [hslices] at hmem
  obtain ⟨piece, -, hpiece⟩ := List.mem_map.mp hmem
  exact (Span.within_of_slice?_eq_some hpiece.symm).stop

/-- Tokens that end between the characters of a text, the last one at its end, cut it into
pieces. -/
theorem exists_of_forall_isBoundary {before after : String} {ts : List Token}
    (h : ∀ p ∈ Token.spread before.utf8ByteSize ts, IsBoundary (before ++ after) p.2.stop)
    (hextent : extent ts = after.utf8ByteSize) :
    ∃ pieces, text pieces = after ∧ tokens pieces = ts := by
  induction ts generalizing before after with
  | nil =>
    obtain rfl : after = "" := String.utf8ByteSize_eq_zero_iff.mp hextent.symm
    exact ⟨[], text_nil, rfl⟩
  | cons t ts ih =>
    rw [Token.spread, List.forall_mem_cons] at h
    obtain ⟨⟨front, back, hsplit, hfront⟩, hrest⟩ := h
    change front.utf8ByteSize = before.utf8ByteSize + t.length at hfront
    obtain ⟨piece, rfl, rfl⟩ := exists_eq_append_of_le hsplit (by
      rw [hfront]
      exact Nat.le_add_right _ _)
    have hlength : piece.utf8ByteSize = t.length := by
      rw [String.utf8ByteSize_append] at hfront
      exact Nat.add_left_cancel hfront
    rw [← hfront, ← String.append_assoc] at hrest
    have hback : extent ts = back.utf8ByteSize := by
      rw [extent_cons, String.utf8ByteSize_append, hlength] at hextent
      exact Nat.add_left_cancel hextent
    obtain ⟨pieces, rfl, rfl⟩ := ih hrest hback
    exact ⟨(t.kind, piece) :: pieces, text_cons _ _, by simp [tokens_cons, Token.ofPiece, hlength]⟩

end Pieces

end TemplateTree
