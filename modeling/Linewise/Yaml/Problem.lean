import Linewise.Bytes

/-!
# Unreadable documents

The reasons for which a YAML document cannot be read at all, as opposed to one that can be read and
holds values of the wrong types.
-/

namespace Linewise.Yaml

/-- What is wrong with a document. -/
inductive Problem where
  | encoding
  | controlCharacter
  | noToken
  | notAllowedHere
  | colonExpected
  | tabIndentation
  | unclosedQuote
  | documentMarkInQuote
  | escape
  | blockHeader
  | anchorName
  | unknownAnchor
  | tag
  | directive
  | documentStartExpected
  | nodeExpected
  | entryExpected
  | keyExpected
  | tooDeep
  | selfReference
  | excessiveAliases
  | mergeSource
  | scalarTag
  | base64
  | mapKey
  deriving DecidableEq, Repr

def Problem.text : Problem → String
  | encoding => "the text is not valid in its encoding"
  | controlCharacter => "control characters are not allowed"
  | noToken => "found character that cannot start any token"
  | notAllowedHere => "found an indicator that is not allowed in this context"
  | colonExpected => "could not find expected ':'"
  | tabIndentation => "found a tab character that violates indentation"
  | unclosedQuote => "found unexpected end of stream in a quoted scalar"
  | documentMarkInQuote => "found unexpected document indicator in a quoted scalar"
  | escape => "found unknown escape sequence"
  | blockHeader => "did not find a valid block scalar header"
  | anchorName => "did not find expected alphabetic or numeric character"
  | unknownAnchor => "unknown anchor referenced"
  | tag => "did not find a valid tag"
  | directive => "found an invalid directive"
  | documentStartExpected => "did not find expected document start"
  | nodeExpected => "did not find expected node content"
  | entryExpected => "did not find expected separator or end of a collection"
  | keyExpected => "did not find expected key"
  | tooDeep => "exceeded the greatest depth"
  | selfReference => "anchor value contains itself"
  | excessiveAliases => "document contains excessive aliasing"
  | mergeSource => "map merge requires map or sequence of maps as the value"
  | scalarTag => "cannot decode a scalar as its tag asks"
  | base64 => "!!binary value contains invalid base64 data"
  | mapKey => "invalid map key"

def Problem.message (p : Problem) : Bytes := utf8 "yaml: " ++ utf8 p.text

end Linewise.Yaml
