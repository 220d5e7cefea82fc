import Directive.Span

/-!
# Diagnostics

A diagnostic is the one account of a failure that a user sees: a message, a code, labelled spans of
the text, and sometimes help.  Codes are grouped by the phase that reports them.
-/

namespace Directive

/-! ### Codes -/

/-- The phase a failure belongs to. -/
inductive Phase where
  | lexical
  | structural
  | schema
  | value
deriving DecidableEq, Repr

/-- What a phase's failures are called. -/
def Phase.name : Phase → String
  | .lexical => "lexical error"
  | .structural => "structural error"
  | .schema => "schema error"
  | .value => "value error"

/-- What went wrong, as far as a code tells. -/
inductive Code where
  | unterminatedQuote
  | unexpectedCharacter
  | nestingTooDeep
  | unclosedList
  | unexpectedToken
  | incompleteInput
  | unknownFamily
  | unknownFunction
  | missingParameter
  | unknownParameter
  | typeMismatch
  | valueNotAllowed
  | valueRejected
deriving DecidableEq, Repr

namespace Code

/-- All codes. -/
def all : List Code :=
  [.unterminatedQuote, .unexpectedCharacter, .nestingTooDeep, .unclosedList, .unexpectedToken,
    .incompleteInput, .unknownFamily, .unknownFunction, .missingParameter, .unknownParameter,
    .typeMismatch, .valueNotAllowed, .valueRejected]

/-- The code as it is printed. -/
def id : Code → String
  | .unterminatedQuote => "E001"
  | .unexpectedCharacter => "E002"
  | .nestingTooDeep => "E003"
  | .unclosedList => "E004"
  | .unexpectedToken => "E100"
  | .incompleteInput => "E101"
  | .unknownFamily => "E200"
  | .unknownFunction => "E201"
  | .missingParameter => "E202"
  | .unknownParameter => "E203"
  | .typeMismatch => "E300"
  | .valueNotAllowed => "E301"
  | .valueRejected => "E302"

/-- A short description of the code. -/
def description : Code → String
  | .unterminatedQuote => "unterminated quoted string"
  | .unexpectedCharacter => "unexpected character"
  | .nestingTooDeep => "list nesting too deep"
  | .unclosedList => "unclosed list bracket"
  | .unexpectedToken => "unexpected token"
  | .incompleteInput => "incomplete input"
  | .unknownFamily => "unknown family"
  | .unknownFunction => "unknown function"
  | .missingParameter => "missing required parameter"
  | .unknownParameter => "unknown parameter"
  | .typeMismatch => "type mismatch"
  | .valueNotAllowed => "value not allowed"
  | .valueRejected => "value rejected by validator"

/-- The phase that reports the code. -/
def phase : Code → Phase
  | .unterminatedQuote | .unexpectedCharacter | .nestingTooDeep | .unclosedList => .lexical
  | .unexpectedToken | .incompleteInput => .structural
  | .unknownFamily | .unknownFunction | .missingParameter | .unknownParameter => .schema
  | .typeMismatch | .valueNotAllowed | .valueRejected => .value

end Code

/-! ### Labels -/

/-- What a label marks: the place of the failure, or something that explains it. -/
inductive LabelStyle where
  | primary
  | secondary
deriving DecidableEq, Repr

/-- A span of the text with a remark. -/
structure Label where
  style : LabelStyle
  span : Span
  text : String
deriving DecidableEq, Repr

/-! ### Diagnostics -/

/-- One failure, as it is told to a user. -/
structure Diagnostic where
  message : String
  code : Option Code
  labels : List Label
  help : Option String
deriving DecidableEq, Repr

namespace Diagnostic

/-- A diagnostic with one primary label. -/
def ofPrimary (code : Code) (message : String) (span : Span) (text : String)
    (help : Option String) : Diagnostic :=
  ⟨message, some code, [⟨.primary, span, text⟩], help⟩

/-- The phase of the code; a failure without a code counts as structural. -/
def phase (d : Diagnostic) : Phase :=
  match d.code with
  | some code => code.phase
  | none => .structural

/-- The span of the first primary label. -/
def primarySpan? (d : Diagnostic) : Option Span :=
  (d.labels.find? fun l => l.style == .primary).map Label.span

/-- The diagnostic on one line: its code, if there is one, and its message. -/
def headline (d : Diagnostic) : String :=
  match d.code with
  | some code => "error[" ++ code.id ++ "]: " ++ d.message
  | none => "error: " ++ d.message

end Diagnostic

end Directive
