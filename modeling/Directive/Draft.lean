import Directive.Outline
import Directive.Vocabulary.Violation

/-!
# Drafts

A draft is what a text says as a directive before anyone has checked it: the command with the
outline it came from.  A directive is read in four stages, its tokens, its outline, its command, and
the check of the command against a registry.  `parseSyntax` stops before the check; `Registry.parse`
does all.  The first stage that fails gives the fault, and a fault becomes a report on the text.
-/

namespace Directive

/-- Why a text is not a directive of the vocabulary. -/
inductive Fault where
  | lexical (fault : ScanFault)
  | structural (fault : GrammarFault)
  | contractual (violation : Violation) (outline : Outline)

namespace Fault

/-- Where in a directive a violation stands. -/
def place (outline : Outline) : Violation → Span
  | .unknownFamily _ _ => outline.family.span
  | .unknownFunction _ _ _ => outline.function.span
  | .missingParameter _ _ => outline.headSpan
  | .unknownParameter _ parameter _ => outline.nameSpan parameter
  | .typeMismatch parameter _ _ => outline.valueSpan parameter
  | .valueNotAllowed parameter _ _ => outline.valueSpan parameter
  | .valueRejected parameter _ _ => outline.valueSpan parameter

/-- The account of a fault. -/
def diagnostic : Fault → Diagnostic
  | .lexical fault => fault.diagnostic
  | .structural fault => fault.diagnostic
  | .contractual violation outline =>
    .ofPrimary violation.code violation.message (place outline violation) violation.remark
      violation.help

end Fault

/-- A directive that has been read but not checked. -/
structure Draft where
  command : Command
  outline : Outline
  /-- The number of bytes the directive spans. -/
  consumed : Nat

/-- Reads the directive that a text is, or begins with, without a check. -/
def Draft.ofChars (extent : Extent) (cs : List Char) : Except Fault Draft :=
  match (Scan.ofChars extent cs).stream? with
  | .error fault => .error (.lexical fault)
  | .ok (tokens, consumed) =>
    match Outline.ofTokens tokens with
    | .error fault => .error (.structural fault)
    | .ok outline =>
      .ok ⟨outline.command (String.ofList (Text.takeBytes consumed cs)), outline, consumed⟩

/-- Reads and checks the directive that a text is, or begins with. -/
def Registry.draft (r : Registry) (extent : Extent) (cs : List Char) : Except Fault Draft :=
  match Draft.ofChars extent cs with
  | .error fault => .error fault
  | .ok draft =>
    match r.violation? draft.command with
    | some violation => .error (.contractual violation draft.outline)
    | none => .ok draft

/-- Reads a text that is one directive, and checks it against a registry.  Blanks may follow it. -/
def Registry.parse (r : Registry) (text : String) : Except Report Command :=
  match r.draft .whole text.toList with
  | .ok draft => .ok draft.command
  | .error fault => .error ⟨fault.diagnostic, text⟩

/-- Reads a text that is one directive, without a check. -/
def parseSyntax (text : String) : Except Report Command :=
  match Draft.ofChars .whole text.toList with
  | .ok draft => .ok draft.command
  | .error fault => .error ⟨fault.diagnostic, text⟩

end Directive
