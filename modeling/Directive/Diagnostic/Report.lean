import Directive.Diagnostic.Basic
import Directive.Text.Blank

/-!
# Reports

A report is a diagnostic together with the text it is about, so that it can be shown with the line
in question and a caret under the place.
-/

namespace Directive

/-- A diagnostic and the text it is about. -/
structure Report where
  diagnostic : Diagnostic
  source : String
deriving DecidableEq, Repr

namespace Report

/-- The byte at which the failure was noticed: the start of the primary label, within the text. -/
def position (r : Report) : Nat :=
  match r.diagnostic.primarySpan? with
  | some span => min span.start (Text.size r.source.toList)
  | none => 0

/-- The part of the position's line that stands before it. -/
def lineBefore (r : Report) : List Char :=
  ((Text.takeBytes r.position r.source.toList).reverse.takeWhile (· != '\n')).reverse

/-- The part of the position's line that stands at the position and after it. -/
def lineAfter (r : Report) : List Char :=
  (Text.dropBytes r.position r.source.toList).takeWhile (· != '\n')

/-- The message, the line of the text that contains the position, and a caret under it. -/
def pointer (r : Report) : String :=
  r.diagnostic.message ++ "\n" ++ String.ofList (r.lineBefore ++ r.lineAfter) ++ "\n" ++
    String.ofList (List.replicate r.lineBefore.length ' ') ++ "^"

end Report

end Directive
