import Linewise.Yaml.Source

/-!
# Tokens

The tokens of a document: marks of documents, starts and ends of collections, separators, the
properties of nodes and scalars. The nesting that indentation expresses has tokens of its own, so
that whoever reads the tokens need not look at columns.
-/

namespace Linewise.Yaml

/-- How a scalar is written. -/
inductive Style where
  | plain
  | single
  | double
  | literal
  | folded
  deriving DecidableEq, Repr

namespace Token

inductive Kind where
  | streamEnd
  | version (major minor : Nat)
  | tagDirective (handle stem : Bytes)
  | documentStart
  | documentEnd
  | blockSequenceStart
  | blockMappingStart
  | blockEnd
  | flowSequenceStart
  | flowSequenceEnd
  | flowMappingStart
  | flowMappingEnd
  | blockEntry
  | flowEntry
  | key
  | value
  | alias (name : Bytes)
  | anchor (name : Bytes)
  | tag (handle suffix : Bytes)
  | scalar (text : Bytes) (style : Style)
  deriving DecidableEq, Repr

end Token

/-- A token and the number of the line that it starts on. -/
structure Token where
  kind : Token.Kind
  line : Nat
  deriving DecidableEq, Repr

end Linewise.Yaml
