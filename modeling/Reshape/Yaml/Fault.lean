/-!
# Faults of YAML text
-/

namespace Reshape.Yaml

inductive Fault where
  | forbiddenCharacter
  | unexpectedCharacter
  | missingColon
  | entryNotAllowed
  | keyNotAllowed
  | valueNotAllowed
  | malformedDirective
  | malformedAnchor
  | malformedTag
  | malformedEscape
  | malformedBlockScalar
  | malformedFlowScalar
  | tabIndentation
  | colonInFlow
  | missingNode
  | missingEntry
  | missingKey
  | missingSeparator
  | missingDocumentStart
  | repeatedDirective
  | unknownVersion
  | undefinedHandle
  | unknownAnchor
  | severalDocuments
  | tooDeep
  | tooManyAliases
  | repeatedKey
  | unfitScalar
  | integerOutOfRange
  deriving DecidableEq

def Fault.message : Fault → String
  | forbiddenCharacter => "control characters are not allowed"
  | unexpectedCharacter => "a character that cannot start any token"
  | missingColon => "no colon after a key"
  | entryNotAllowed => "block sequence entries are not allowed here"
  | keyNotAllowed => "mapping keys are not allowed here"
  | valueNotAllowed => "mapping values are not allowed here"
  | malformedDirective => "malformed directive"
  | malformedAnchor => "malformed anchor or alias"
  | malformedTag => "malformed tag"
  | malformedEscape => "malformed escape sequence"
  | malformedBlockScalar => "malformed header of a block scalar"
  | malformedFlowScalar => "a quoted scalar without an end"
  | tabIndentation => "a tab where indentation is expected"
  | colonInFlow => "an unexpected colon in a flow collection"
  | missingNode => "no node content"
  | missingEntry => "no entry in a block sequence"
  | missingKey => "no key in a block mapping"
  | missingSeparator => "no separator or end of a flow collection"
  | missingDocumentStart => "no document start"
  | repeatedDirective => "a repeated directive"
  | unknownVersion => "an incompatible version"
  | undefinedHandle => "an undefined tag handle"
  | unknownAnchor => "an unknown anchor"
  | severalDocuments => "more than one document"
  | tooDeep => "collections nested too deep"
  | tooManyAliases => "too many repetitions by aliases"
  | repeatedKey => "a repeated key in a mapping"
  | unfitScalar => "a scalar that does not fit its tag"
  | integerOutOfRange => "an integer out of range"

end Reshape.Yaml
