import Directive.Span
import Directive.Text.Blank

/-!
# Tokens

The tokens of a directive: its mark, names, punctuation and raw parameter values, each with its
text and its place in the source.
-/

namespace Directive

/-- The kinds of tokens. -/
inductive TokenKind where
  | mark
  | familyName
  | separator
  | functionName
  | paramOpen
  | paramClose
  | paramName
  | paramEquals
  | paramValue
  | paramSeparator
  | endOfInput
  | invalid
deriving DecidableEq, Repr

namespace TokenKind

/-- How a token of this kind is spoken of in messages. -/
def describe : TokenKind → String
  | .mark => "directive prefix `.p/`"
  | .familyName => "family name"
  | .separator => "`.`"
  | .functionName => "function name"
  | .paramOpen => "`\x7b`"
  | .paramClose => "`\x7d`"
  | .paramName => "parameter name"
  | .paramEquals => "`=`"
  | .paramValue => "parameter value"
  | .paramSeparator => "`,`"
  | .endOfInput => "end of input"
  | .invalid => "invalid input"

/-- The name of the kind in listings. -/
def name : TokenKind → String
  | .mark => "prefix"
  | .familyName => "family_name"
  | .separator => "separator"
  | .functionName => "function_name"
  | .paramOpen => "param_open"
  | .paramClose => "param_close"
  | .paramName => "param_name"
  | .paramEquals => "param_equals"
  | .paramValue => "param_value"
  | .paramSeparator => "param_separator"
  | .endOfInput => "end_of_input"
  | .invalid => "invalid"

end TokenKind

/-- A token with its text and its place in the source. -/
structure Token where
  kind : TokenKind
  text : String
  span : Span
deriving DecidableEq, Repr

namespace Token

/-- The token whose characters begin at an offset. -/
def ofChars (kind : TokenKind) (start : Nat) (cs : List Char) : Token :=
  ⟨kind, String.ofList cs, Span.ofSize start (Text.size cs)⟩

/-- The empty token that ends a stream. -/
def ending (offset : Nat) : Token :=
  ofChars .endOfInput offset []

end Token

end Directive
