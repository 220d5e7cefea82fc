import Directive.Diagnostic.Basic

/-!
# Faults of scanning

What keeps a text from being cut into tokens, with the diagnostic for each fault.
-/

namespace Directive

/-- What the scanner was looking for when it met a character that does not fit. -/
inductive Expectation where
  | mark
  | family
  | separator
  | function
  | blockOrEnd
  | nameOrClose
  | name
  | equals
  | value
  | ending
deriving DecidableEq, Repr

namespace Expectation

/-- The message for a character that does not fit. -/
def message : Expectation → String
  | .mark => "expected directive prefix `.p/`"
  | .family => "expected family name"
  | .separator => "expected `.` after family name"
  | .function => "expected function name"
  | .blockOrEnd => "expected `\x7b` or end of input"
  | .nameOrClose => "expected parameter name or closing brace"
  | .name => "expected parameter name"
  | .equals => "expected `=` after parameter name"
  | .value => "expected parameter value"
  | .ending => "expected end of input after closing brace"

/-- The help for a character that does not fit. -/
def help : Expectation → Option String
  | .mark => some "directives start with `.p/`, e.g. `.p/reflect.trace`"
  | .family => some "family names use lowercase letters and underscores"
  | .separator => some "write the function as `family.function`"
  | .function => some "function names use lowercase letters and underscores"
  | .blockOrEnd => none
  | .nameOrClose => some "parameter names use lowercase letters and underscores"
  | .name => some "remove the trailing `,` or add another `name=value`"
  | .equals => some "write parameters as `name=value`"
  | .value => some "quote the value to pass an empty string: `name=\"\"`"
  | .ending => some "a directive ends at its closing `\x7d`"

end Expectation

/-- Why scanning stopped. -/
inductive ScanFault where
  /-- The character under `span` is not what was expected. -/
  | unexpected (expected : Expectation) (span : Span)
  /-- The quote at the start of `span`, which goes to the end of the text, has no match. -/
  | openQuote (quote : Char) (span : Span)
  /-- The bracket under `span` opens a list too many. -/
  | nestingTooDeep (span : Span)
  /-- The text ends at `ending` although the bracket at `opened` is still open. -/
  | openList (opened ending : Nat)
deriving DecidableEq, Repr

namespace ScanFault

/-- The code of a fault. -/
def code : ScanFault → Code
  | .unexpected _ _ => .unexpectedCharacter
  | .openQuote _ _ => .unterminatedQuote
  | .nestingTooDeep _ => .nestingTooDeep
  | .openList _ _ => .unclosedList

/-- The account of a fault. -/
def diagnostic (f : ScanFault) : Diagnostic :=
  match f with
  | .unexpected expected span =>
    .ofPrimary f.code expected.message span f.code.description expected.help
  | .openQuote quote span =>
    let help := if quote = '"' then "add closing `\"`" else "add closing `'`"
    .ofPrimary f.code "unterminated quoted string" span f.code.description (some help)
  | .nestingTooDeep span =>
    .ofPrimary f.code "list nesting too deep" span f.code.description
      (some "lists may nest at most 8 levels")
  | .openList opened ending =>
    ⟨"unclosed list bracket", some f.code,
      [⟨.primary, Span.point ending, f.code.description⟩,
        ⟨.secondary, Span.ofSize opened 1, "list opened here"⟩],
      some "add closing `]`"⟩

/-- The earliest byte that a label of the fault marks. -/
def earliest : ScanFault → Nat
  | .unexpected _ span => span.start
  | .openQuote _ span => span.start
  | .nestingTooDeep span => span.start
  | .openList opened ending => min opened ending

end ScanFault

end Directive
