import Directive.Token.Scanner

/-!
# Outlines

An outline is the structure of a directive before its values are read: the names and raw values
with their places.  `Outline.ofTokens` checks a token stream against the grammar

    directive := mark family separator function [ block ] end
    block     := open [ param ( comma param )* ] close
    param     := name equals value

by a walk through its stages, each of which knows what has been read so far and which kind of
token may come next.  `Outline.command` gives the values; a parameter that is given twice keeps
its first place and its last value.
-/

namespace Directive

/-- A name or raw value with its place. -/
structure Piece where
  text : String
  span : Span
deriving DecidableEq, Repr

/-- One `name=value` pair. -/
structure RawParam where
  name : Piece
  value : Piece
deriving DecidableEq, Repr

/-- The structure of a directive. -/
structure Outline where
  family : Piece
  function : Piece
  params : List RawParam
  /-- The place of the end token. -/
  ending : Span
deriving DecidableEq, Repr

/-- Why a token stream is not a directive. -/
inductive GrammarFault where
  /-- The stream ends, at `span`, where `expected` should stand. -/
  | incomplete (expected : String) (span : Span)
  /-- A token of the given kind stands where `expected` should. -/
  | unexpected (expected : String) (found : TokenKind) (span : Span)
deriving DecidableEq, Repr

namespace GrammarFault

/-- The fault of meeting a token where something else is expected. -/
def ofToken (expected : String) (t : Token) : GrammarFault :=
  if t.kind = .endOfInput then .incomplete expected t.span else .unexpected expected t.kind t.span

/-- The account of a fault. -/
def diagnostic : GrammarFault → Diagnostic
  | .incomplete expected span =>
    .ofPrimary .incompleteInput ("expected " ++ expected ++ ", found end of input") span
      "directive ends here" (some "the directive is incomplete")
  | .unexpected expected found span =>
    .ofPrimary .unexpectedToken ("expected " ++ expected ++ ", found " ++ found.describe) span
      "unexpected token" (some "check syntax and token positioning")

end GrammarFault

/-! ### Stages -/

/-- How far a token stream has been read, with what it contained. -/
inductive Stage where
  | mark
  | family
  | separator (family : Piece)
  | function (family : Piece)
  | blockOrEnd (family function : Piece)
  /-- After the opening brace. -/
  | nameOrClose (family function : Piece)
  /-- Before a parameter that has to follow; `params` are those read, the latest first. -/
  | name (family function : Piece) (params : List RawParam)
  | equals (family function : Piece) (params : List RawParam) (name : Piece)
  | value (family function : Piece) (params : List RawParam) (name : Piece)
  | commaOrClose (family function : Piece) (params : List RawParam)
  /-- After the closing brace. -/
  | ending (family function : Piece) (params : List RawParam)
  | done (outline : Outline)
deriving DecidableEq, Repr

namespace Stage

/-- What has to come next, in the words of messages. -/
def expected : Stage → String
  | .mark => "directive prefix `.p/`"
  | .family => "family name"
  | .separator _ => "`.` after family name"
  | .function _ => "function name"
  | .blockOrEnd _ _ => "`\x7b` or end of input"
  | .nameOrClose _ _ => "parameter name"
  | .name _ _ _ => "parameter name"
  | .equals _ _ _ _ => "`=` after parameter name"
  | .value _ _ _ _ => "parameter value"
  | .commaOrClose _ _ _ => "`,` or `\x7d`"
  | .ending _ _ _ => "end of input"
  | .done _ => "nothing"

/-- The stage after a token, if the token fits. -/
def next? (stage : Stage) (t : Token) : Option Stage :=
  let piece : Piece := ⟨t.text, t.span⟩
  match stage, t.kind with
  | .mark, .mark => some .family
  | .family, .familyName => some (.separator piece)
  | .separator f, .separator => some (.function f)
  | .function f, .functionName => some (.blockOrEnd f piece)
  | .blockOrEnd f g, .paramOpen => some (.nameOrClose f g)
  | .blockOrEnd f g, .endOfInput => some (.done ⟨f, g, [], t.span⟩)
  | .nameOrClose f g, .paramClose => some (.ending f g [])
  | .nameOrClose f g, .paramName => some (.equals f g [] piece)
  | .name f g ps, .paramName => some (.equals f g ps piece)
  | .equals f g ps n, .paramEquals => some (.value f g ps n)
  | .value f g ps n, .paramValue => some (.commaOrClose f g (⟨n, piece⟩ :: ps))
  | .commaOrClose f g ps, .paramSeparator => some (.name f g ps)
  | .commaOrClose f g ps, .paramClose => some (.ending f g ps)
  | .ending f g ps, .endOfInput => some (.done ⟨f, g, ps.reverse, t.span⟩)
  | _, _ => none

/-- Reads tokens from a stage on; `last` is where the tokens before end. -/
def run (last : Nat) : Stage → List Token → Except GrammarFault Outline
  | .done outline, _ => .ok outline
  | stage, [] => .error (.incomplete stage.expected (Span.point last))
  | stage, t :: ts =>
    match stage.next? t with
    | some stage => run t.span.stop stage ts
    | none => .error (.ofToken stage.expected t)

end Stage

namespace Outline

/-- The outline of a token stream. -/
def ofTokens (tokens : List Token) : Except GrammarFault Outline :=
  Stage.run 0 .mark tokens

/-! ### Values and places -/

/-- The parameters with their values. -/
def parameters (o : Outline) : OrderedMap Value :=
  .ofList (o.params.map fun p => (p.name.text, Value.coerce p.value.text))

/-- The command, read from the given text. -/
def command (o : Outline) (source : String) : Command :=
  ⟨o.family.text, o.function.text, o.parameters, source⟩

/-- The last pair with the given name. -/
def lastParam? (o : Outline) (name : String) : Option RawParam :=
  o.params.reverse.find? fun p => p.name.text == name

/-- Where a parameter's name stands last. -/
def nameSpan (o : Outline) (name : String) : Span :=
  match o.lastParam? name with
  | some p => p.name.span
  | none => o.ending

/-- Where a parameter's effective value stands. -/
def valueSpan (o : Outline) (name : String) : Span :=
  match o.lastParam? name with
  | some p => p.value.span
  | none => o.ending

/-- Where `family.function` stands. -/
def headSpan (o : Outline) : Span :=
  o.family.span.union o.function.span

end Outline

end Directive
