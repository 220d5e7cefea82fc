import Directive.Draft

/-!
# Directives in free text

Every place where the mark `.p/` stands begins a candidate, which goes no further than the next
mark.  A candidate that begins with a directive of the vocabulary gives its command, and the search
goes on behind the directive; from any other candidate it goes on behind the candidate.  So no part
of a text is scanned twice.
-/

namespace Directive

/-- The characters before the first mark. -/
def untilMark : List Char → List Char
  | [] => []
  | c :: cs => if (afterMark? (c :: cs)).isSome then [] else c :: untilMark cs

/-- The candidate that begins with a text, which is its mark and all up to the next one. -/
def candidate? (cs : List Char) : Option (List Char) :=
  (afterMark? cs).map fun rest => mark.toList ++ untilMark rest

namespace Registry

/-- The commands in a text whose first `skip` characters are passed over. -/
def extractFrom (r : Registry) : (skip : Nat) → List Char → List Command
  | _, [] => []
  | skip + 1, _ :: cs => r.extractFrom skip cs
  | 0, c :: cs =>
    match candidate? (c :: cs) with
    | none => r.extractFrom 0 cs
    | some candidate =>
      match r.draft .leading candidate with
      | .ok draft => draft.command :: r.extractFrom (draft.command.source.length - 1) cs
      | .error _ => r.extractFrom (candidate.length - 1) cs

/-- The commands of the directives in a text, from left to right. -/
def extract (r : Registry) (text : String) : List Command :=
  r.extractFrom 0 text.toList

/-- The first commands in a text, as many as the limit allows. -/
def extractAtMost (r : Registry) (limit : Option Nat) (text : String) : List Command :=
  match limit with
  | some n => (r.extract text).take n
  | none => r.extract text

end Registry

end Directive
