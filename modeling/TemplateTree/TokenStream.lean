import TemplateTree.Span
import TemplateTree.Token

/-!
# Token streams

A token stream is a template text together with the tokens that tile it. A
list of tokens is accepted for a text if each kind is one that a tokenizer
produces, each token ends between two characters of the text, and the last one
ends where the text ends. Otherwise the first token that offends is reported.

All tokens are kept, but a parse only looks at the significant ones, which
are those that are not blank. They are numbered from zero.
-/

namespace TemplateTree

/-- Places of the significant tokens in a list of tokens. -/
def significantPlaces (tokens : Array Token) : Array Nat :=
  ((tokens.toList.zipIdx.filter fun p => !p.1.isTrivia).map (·.2)).toArray

structure TokenStream where
  text : String
  tokens : Array Token
  significant : Array Nat
  significant_eq : significant = significantPlaces tokens

namespace TokenStream

/-- Why a list of tokens does not fit a text. -/
inductive Fault where
  | notTerminal (index : Nat) (kind : Kind)
  | insideCharacter (index stop : Nat)
  | lengthMismatch (covered length : Nat)
  | offsetOverflow
  deriving DecidableEq, Repr

namespace Fault

/-- The short name of a fault. An overflow has none, since it stops the program. -/
def label? : Fault → Option String
  | notTerminal .. => some "NotATerminal"
  | insideCharacter .. => some "NotACharBoundary"
  | lengthMismatch .. => some "LengthMismatch"
  | offsetOverflow => none

def message : Fault → String
  | notTerminal index kind =>
    "token " ++ toString index ++ " has kind `" ++ kind.name
      ++ "`, which a tokenizer cannot produce"
  | insideCharacter index stop =>
    "token " ++ toString index ++ " ends at " ++ toString stop
      ++ ", which is not a char boundary"
  | lengthMismatch covered length =>
    "tokens cover " ++ toString covered ++ " bytes but the text is " ++ toString length
      ++ " bytes long"
  | offsetOverflow => "attempt to add with overflow"

/-- The short name followed by the named parts of a fault. -/
def details : Fault → String
  | notTerminal index kind =>
    "NotATerminal \x7b index: " ++ toString index ++ ", kind: " ++ kind.name ++ " \x7d"
  | insideCharacter index stop =>
    "NotACharBoundary \x7b index: " ++ toString index ++ ", end: " ++ toString stop ++ " \x7d"
  | lengthMismatch covered length =>
    "LengthMismatch \x7b covered: " ++ toString covered ++ ", len: " ++ toString length ++ " \x7d"
  | offsetOverflow => "attempt to add with overflow"

end Fault

/-- Walks along the tokens, of which the first has number `index` and starts at
`offset`, up to the first that does not fit the text. -/
def check (text : String) (index offset : Nat) : List Token → Except Fault Unit
  | [] =>
    if offset = text.utf8ByteSize then .ok ()
    else .error (.lengthMismatch offset text.utf8ByteSize)
  | t :: rest =>
    if !t.kind.isTerminal then .error (.notTerminal index t.kind)
    else
      match advance? offset t.length with
      | none => .error .offsetOverflow
      | some stop =>
        if text.utf8ByteSize < stop then .error (.lengthMismatch stop text.utf8ByteSize)
        else if IsBoundary text stop then check text (index + 1) stop rest
        else .error (.insideCharacter index stop)

/-- The stream of these tokens over a text, if they tile it. -/
def ofTokens (text : String) (tokens : List Token) : Except Fault TokenStream :=
  match check text 0 0 tokens with
  | .ok () => .ok ⟨text, tokens.toArray, significantPlaces tokens.toArray, rfl⟩
  | .error fault => .error fault

/-- The stream of tokens given by their own texts, laid end to end. -/
def ofPieces (pieces : List (Kind × String)) : Except Fault TokenStream :=
  ofTokens (String.join (pieces.map (·.2))) (pieces.map fun p => ⟨p.1, p.2.utf8ByteSize⟩)

/-- Kind of a significant token, or the end of the input after the last one. -/
def kindAt (s : TokenStream) (n : Nat) : Kind :=
  match s.significant[n]? with
  | none => .endOfInput
  | some place => (s.tokens[place]?.map (·.kind)).getD .endOfInput

/-- Number of significant tokens. -/
def size (s : TokenStream) : Nat := s.significant.size

/-- Kinds of the significant tokens, in order. -/
def kinds (s : TokenStream) : List Kind :=
  (s.tokens.toList.map (·.kind)).filter fun k => !k.isTrivia

theorem kinds_eq_map_zipIdx (s : TokenStream) :
    s.kinds = (s.tokens.toList.zipIdx.filter fun p => !p.1.isTrivia).map (·.1.kind) := by
  have h : s.tokens.toList = s.tokens.toList.zipIdx.map (·.1) := by simp
  rw [kinds]
  conv => lhs; rw [h]
  rw [List.map_map, List.filter_map]
  rfl

theorem kindAt_eq_getD (s : TokenStream) (n : Nat) : s.kindAt n = s.kinds.getD n .endOfInput := by
  rw [kinds_eq_map_zipIdx, kindAt, s.significant_eq, significantPlaces,
    List.getD_eq_getElem?_getD, List.getElem?_map, List.getElem?_toArray, List.getElem?_map]
  cases h : (s.tokens.toList.zipIdx.filter fun p => !p.1.isTrivia)[n]? with
  | none => simp
  | some p =>
    have hp := (List.mem_filter.mp (List.mem_of_getElem? h)).1
    have ht := List.mem_zipIdx_iff_getElem?.mp hp
    simp [← Array.getElem?_toList, ht]

theorem size_eq_length_kinds (s : TokenStream) : s.size = s.kinds.length := by
  rw [kinds_eq_map_zipIdx, size, s.significant_eq, significantPlaces]
  simp

end TokenStream

end TemplateTree
