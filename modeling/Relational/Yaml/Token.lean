/-!
# Tokens of YAML

The marks, tokens and problems of a reader of YAML. Lines and columns are counted from zero.
-/

namespace Relational.Yaml

/-- A place in a text. -/
structure Mark where
  index : Nat := 0
  line : Nat := 0
  column : Nat := 0
deriving Repr, DecidableEq

/-- The kinds of tokens. -/
inductive TokenKind where
  | streamStart
  | streamEnd
  | versionDirective (major minor : Nat)
  | tagDirective (handle start : String)
  | documentStart
  | documentEnd
  | blockSequenceStart
  | blockMappingStart
  | blockEnd
  | flowSequenceStart
  | flowSequenceEnd
  | flowMappingStart
  | flowMappingEnd
  | blockEntry
  | flowEntry
  | key
  | value
  | alias_ (anchor : String)
  | anchor (name : String)
  | tag (handle suffix : String)
  | scalar (text : String) (isPlain : Bool)
deriving Repr, DecidableEq

/-- A token between two marks. -/
structure Token where
  kind : TokenKind
  start : Mark
  stop : Mark
deriving Repr, DecidableEq

/-- What can be wrong with a text. -/
inductive Problem where
  | controlCharacter
  | missingColon
  | flowTooDeep
  | misplacedEntry
  | misplacedKey
  | misplacedValue
  | noToken
  | missingDirectiveName
  | nonAlphabeticDirective
  | unknownDirective
  | missingLineBreak
  | longVersion
  | missingVersion
  | missingPoint
  | missingBlank
  | missingAnchorName
  | missingTagBang
  | missingTagAngle
  | missingTagEnd
  | missingTagAddress
  | badTagEscape
  | zeroIndentation
  | tabIndentation
  | tabInPlain
  | documentInQuotes
  | endInQuotes
  | unknownEscape
  | missingHexDigit
  | badCharacterCode
  | missingDocumentStart
  | duplicateVersion
  | incompatibleVersion
  | duplicateTagDirective
  | undefinedTagHandle
  | missingNode
  | missingDash
  | missingKey
  | missingCommaOrBracket
  | missingCommaOrBrace
  | unknownAnchor (name : String)
  | cyclicAnchor (name : String)
  | mergeOfNonMapping
  | undecodable (found text wanted : String)
deriving Repr, DecidableEq

def Problem.text : Problem → String
  | controlCharacter => "control characters are not allowed"
  | missingColon => "could not find expected ':'"
  | flowTooDeep => "exceeded max depth of 10000"
  | misplacedEntry => "block sequence entries are not allowed in this context"
  | misplacedKey => "mapping keys are not allowed in this context"
  | misplacedValue => "mapping values are not allowed in this context"
  | noToken => "found character that cannot start any token"
  | missingDirectiveName => "could not find expected directive name"
  | nonAlphabeticDirective => "found unexpected non-alphabetical character"
  | unknownDirective => "found unknown directive name"
  | missingLineBreak => "did not find expected comment or line break"
  | longVersion => "found extremely long version number"
  | missingVersion => "did not find expected version number"
  | missingPoint => "did not find expected digit or '.' character"
  | missingBlank => "did not find expected whitespace"
  | missingAnchorName => "did not find expected alphabetic or numeric character"
  | missingTagBang => "did not find expected '!'"
  | missingTagAngle => "did not find the expected '>'"
  | missingTagEnd => "did not find expected whitespace or line break"
  | missingTagAddress => "did not find expected tag URI"
  | badTagEscape => "did not find URI escaped octet"
  | zeroIndentation => "found an indentation indicator equal to 0"
  | tabIndentation => "found a tab character where an indentation space is expected"
  | tabInPlain => "found a tab character that violates indentation"
  | documentInQuotes => "found unexpected document indicator"
  | endInQuotes => "found unexpected end of stream"
  | unknownEscape => "found unknown escape character"
  | missingHexDigit => "did not find expected hexdecimal number"
  | badCharacterCode => "found invalid Unicode character escape code"
  | missingDocumentStart => "did not find expected <document start>"
  | duplicateVersion => "found duplicate %YAML directive"
  | incompatibleVersion => "found incompatible YAML document"
  | duplicateTagDirective => "found duplicate %TAG directive"
  | undefinedTagHandle => "found undefined tag handle"
  | missingNode => "did not find expected node content"
  | missingDash => "did not find expected '-' indicator"
  | missingKey => "did not find expected key"
  | missingCommaOrBracket => "did not find expected ',' or ']'"
  | missingCommaOrBrace => "did not find expected ',' or '\x7d'"
  | unknownAnchor name => "unknown anchor '" ++ name ++ "' referenced"
  | cyclicAnchor name => "anchor '" ++ name ++ "' value contains itself"
  | mergeOfNonMapping => "map merge requires map or sequence of maps as the value"
  | undecodable found text wanted =>
    "cannot decode " ++ found ++ " \x60" ++ text ++ "\x60 as a " ++ wanted

/-- A problem with the line that is reported for it, none when it is zero. -/
structure SyntaxError where
  problem : Problem
  line : Nat := 0
deriving Repr, DecidableEq

namespace SyntaxError

def text (e : SyntaxError) : String :=
  "yaml: " ++ (if e.line = 0 then "" else "line " ++ toString e.line ++ ": ") ++ e.problem.text

/-- A problem found while splitting the text into tokens. It is reported with its line counted from
one, except on the first line. -/
def lexical (problem : Problem) (mark : Mark) : SyntaxError :=
  ⟨problem, if mark.line = 0 then 0 else mark.line + 1⟩

/-- A problem found in the order of tokens. It is reported with its line counted from zero, except
on the first line. -/
def structural (problem : Problem) (mark : Mark) : SyntaxError :=
  ⟨problem, mark.line⟩

end SyntaxError

end Relational.Yaml
