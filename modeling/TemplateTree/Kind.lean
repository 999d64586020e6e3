/-!
# Kinds of tokens and nodes

A template mixes plain content with expressions between double braces. Its
tokens and the nodes of its tree share one type of labels: the first kinds
are those that a tokenizer produces, a node that wraps a single token carries
the kind of that token, and the kinds after the end of the input label
composite nodes only. The order of the constructors is the order of the kinds.
-/

namespace TemplateTree

inductive Kind where
  | content | comment
  | openValue | openRaw | openBlock | openInverse | openEnd | openPartial | close
  | ident | separator | equals | string | integer | boolean
  | blank | invalid | endOfInput
  | template | statements | blockTag | inverseTag | endTag | mustache | partialTag | elseTag
  | expression | params | param | hash | hashPair | path | error | placeholder
  deriving DecidableEq, Repr, Inhabited

namespace Kind

/-- All kinds, in order. -/
def all : List Kind :=
  [content, comment,
    openValue, openRaw, openBlock, openInverse, openEnd, openPartial, close,
    ident, separator, equals, string, integer, boolean,
    blank, invalid, endOfInput,
    template, statements, blockTag, inverseTag, endTag, mustache, partialTag, elseTag,
    expression, params, param, hash, hashPair, path, error, placeholder]

/-- Place of a kind in the order, from zero. -/
def index (k : Kind) : Nat := k.ctorIdx

/-- How many kinds there are. -/
def count : Nat := 34

instance : LE Kind := ⟨fun a b => a.index ≤ b.index⟩

instance (a b : Kind) : Decidable (a ≤ b) := inferInstanceAs (Decidable (a.index ≤ b.index))

/-- Arranges kinds in order, repetitions kept. -/
def sort (kinds : List Kind) : List Kind := kinds.mergeSort fun a b => decide (a ≤ b)

/-- A tokenizer may produce the kinds before the end of the input. -/
def isTerminal (k : Kind) : Bool := decide (k.index < endOfInput.index)

/-- Blank tokens are kept in the tree, but no rule of the grammar sees them. -/
def isTrivia (k : Kind) : Bool := decide (k = blank)

/-- The written name of a kind. -/
def name : Kind → String
  | content => "CONTENT"
  | comment => "COMMENT"
  | openValue => "OPEN"
  | openRaw => "OPEN_UNESCAPED"
  | openBlock => "OPEN_BLOCK"
  | openInverse => "OPEN_INVERSE"
  | openEnd => "OPEN_ENDBLOCK"
  | openPartial => "OPEN_PARTIAL"
  | close => "CLOSE"
  | ident => "ID"
  | separator => "SEP"
  | equals => "EQUALS"
  | string => "STRING"
  | integer => "INTEGER"
  | boolean => "BOOLEAN"
  | blank => "WHITESPACE"
  | invalid => "INVALID"
  | endOfInput => "EOF"
  | template => "TEMPLATE"
  | statements => "STATEMENTS"
  | blockTag => "BLOCK_STACHE"
  | inverseTag => "INVERSE_STACHE"
  | endTag => "CLOSEBLOCK_STACHE"
  | mustache => "MUSTACHE"
  | partialTag => "PARTIAL_STACHE"
  | elseTag => "SIMPLE_INVERSE"
  | expression => "IN_MUSTACHE"
  | params => "PARAMS"
  | param => "PARAM"
  | hash => "HASH_SEGMENTS"
  | hashPair => "HASH_SEGMENT"
  | path => "PATH_SEGMENTS"
  | error => "ERROR"
  | placeholder => "TOMBSTONE"

/-- The kind with a given written name. -/
def ofName? (s : String) : Option Kind := all.find? fun k => decide (k.name = s)

/-- What a message calls a kind. -/
def describe : Kind → String
  | content => "content"
  | comment => "a comment"
  | openValue => "`\x7b\x7b`"
  | openRaw => "`\x7b\x7b\x7b`"
  | openBlock => "`\x7b\x7b#`"
  | openInverse => "`\x7b\x7b^`"
  | openEnd => "`\x7b\x7b/`"
  | openPartial => "`\x7b\x7b>`"
  | close => "`\x7d\x7d`"
  | ident => "an ID"
  | separator => "a path separator"
  | equals => "`=`"
  | string => "a string"
  | integer => "an integer"
  | boolean => "a boolean"
  | blank => "whitespace"
  | invalid => "an invalid token"
  | endOfInput => "end of input"
  | template => "a template"
  | statements => "a statement"
  | blockTag => "a block"
  | inverseTag => "an inverse block"
  | endTag => "a close block"
  | mustache => "a mustache"
  | partialTag => "a partial"
  | elseTag => "`\x7b\x7belse\x7d\x7d`"
  | expression => "a mustache expression"
  | params | param => "a parameter"
  | hash | hashPair => "a hash"
  | path => "a path"
  | error => "an error"
  | placeholder => "nothing"

/-- The index of a kind is its place in the list of all kinds. -/
theorem getElem?_all_index (k : Kind) : all[k.index]? = some k := by cases k <;> rfl

theorem mem_all (k : Kind) : k ∈ all := List.mem_of_getElem? k.getElem?_all_index

/-- The indices of all kinds are the numbers below their count, in order. -/
theorem map_index_all : all.map index = List.range count := rfl

theorem index_lt_count (k : Kind) : k.index < count :=
  (List.getElem?_eq_some_iff.mp k.getElem?_all_index).1

theorem index_injective {a b : Kind} (h : a.index = b.index) : a = b := by
  have ha := a.getElem?_all_index
  rw [h, b.getElem?_all_index] at ha
  exact (Option.some.inj ha).symm

/-- Reading a written name gives back its kind. -/
theorem ofName?_name (k : Kind) : ofName? k.name = some k := by cases k <;> decide

end Kind

end TemplateTree
