import Directive.Toml.Scalar
import Directive.Toml.Tree

/-!
# TOML documents

A document is a sequence of lines: headers, and pairs of a key and a value that go into the table
of the last header.  `read?` gives the entries of the root table in the order of their keys, or
nothing if the document is malformed or defines something twice.

Values nest, so they are read with a bound on the number of steps; a step that does not read a
character is followed by one that does, so twice the length of the text is enough.
-/

namespace Directive.Toml

/-- The deepest nesting of arrays and inline tables. -/
def maxNesting : Nat := 80

/-- The parts of a key before the last, and the last. -/
def splitLast? (parts : List String) : Option (List String × String) :=
  parts.getLast?.map (parts.dropLast, ·)

mutual

/-- Reads a value in which arrays and inline tables may nest `depth` deep. -/
def value? : (steps depth : Nat) → List Char → Option (Value × List Char)
  | 0, _, _ => none
  | steps + 1, depth, cs =>
    match cs with
    | [] => none
    | c :: rest =>
      if c = '[' then
        if depth = 0 then none
        else do
          let (items, rest) ← items? steps (depth - 1) rest
          return (.array items, rest)
      else if c = '{' then
        if depth = 0 then none
        else do
          let (entries, rest) ← pairs? steps (depth - 1) [] rest
          return (.table (entryValues entries), rest)
      else if c = '"' || c = '\'' then do
        let (s, rest) ← string? cs
        return (.string (String.ofList s), rest)
      else scalar? cs

/-- Reads the items of an array up to its closing bracket. -/
def items? : (steps depth : Nat) → List Char → Option (List Value × List Char)
  | 0, _, _ => none
  | steps + 1, depth, cs => do
    match ← skipLines? false cs with
    | ']' :: rest => return ([], rest)
    | cs =>
      let (v, rest) ← value? steps depth cs
      match ← skipLines? false rest with
      | ',' :: rest =>
        let (vs, rest) ← items? steps depth rest
        return (v :: vs, rest)
      | ']' :: rest => return ([v], rest)
      | _ => none

/-- Reads the pairs of an inline table up to its closing brace.  Unlike the pair of a line, one here
may go over several lines. -/
def pairs? : (steps depth : Nat) → Entries → List Char → Option (Entries × List Char)
  | 0, _, _, _ => none
  | steps + 1, depth, entries, cs => do
    match ← skipLines? false cs with
    | '}' :: rest => return (entries, rest)
    | cs =>
      let (parts, rest) ← key? cs
      let (path, last) ← splitLast? parts
      let rest ← after? '=' (← skipLines? false rest)
      let (v, rest) ← value? steps depth (← skipLines? false rest)
      let entries ← entries.addValue? path last v
      match ← skipLines? false rest with
      | ',' :: rest => pairs? steps depth entries rest
      | '}' :: rest => return (entries, rest)
      | _ => none

end

/-- Reads a key, an equals sign and a value. -/
def pair? (cs : List Char) : Option (List String × Value × List Char) := do
  let (parts, rest) ← key? cs
  let rest := skipSpace (← after? '=' rest)
  let (v, rest) ← value? (2 * rest.length + 2) maxNesting rest
  return (parts, v, rest)

/-- Reads lines into the table with the header `header`; there are at most `lines`. -/
def lines? : (lines : Nat) → (header : List String) → Entries → List Char → Option Entries
  | 0, _, _, _ => none
  | lines + 1, header, root, cs => do
    match skipSpace cs with
    | [] => return root
    | '[' :: '[' :: rest =>
      let (parts, rest) ← key? rest
      let (path, last) ← splitLast? parts
      let root ← root.appendTable? path last
      lines? lines parts root (← endLine? (← after? ']' (← after? ']' rest)))
    | '[' :: rest =>
      let (parts, rest) ← key? rest
      let (path, last) ← splitLast? parts
      let root ← root.openTable? path last
      lines? lines parts root (← endLine? (← after? ']' rest))
    | c :: rest =>
      if c = '#' || c = '\n' || c = '\r' then lines? lines header root (← endLine? (c :: rest))
      else
        let (parts, v, rest) ← pair? (c :: rest)
        let (path, last) ← splitLast? parts
        let root ← Entries.edit false (fun _ table => table.addValue? path last v) header .header
          root
        lines? lines header root (← endLine? rest)

/-- The text without the byte order mark it may begin with. -/
def skipByteOrderMark : List Char → List Char
  | '\ufeff' :: cs => cs
  | cs => cs

/-- Reads a document. -/
def read? (text : String) : Option (List (String × Value)) :=
  let cs := skipByteOrderMark text.toList
  entryValues <$> lines? (cs.length + 1) [] [] cs

end Directive.Toml
