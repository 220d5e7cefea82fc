import Directive.Main
import Directive.Proofs.Grammar
import Directive.Session
import Directive.Proofs.Scanner
import Directive.Proofs.Lockstep
import Directive.Proofs.Remainder
import Directive.Proofs.Acceptance
import Directive.Proofs.Viability
import Directive.Proofs.Number.Rounding
import Directive.Proofs.Number.Written
import Directive.Proofs.Elements
import Directive.Proofs.Printing
import Directive.Proofs.Coercion
import Directive.Proofs.Canonical
import Directive.Proofs.Inversion
import Directive.Proofs.Rigidity
import Directive.Proofs.Signs
import Directive.Proofs.RoundTrip
import Directive.Proofs.Draft
import Directive.Proofs.Candidates
import Directive.Proofs.Leading
import Directive.Proofs.Placement
import Directive.Proofs.Faults
import Directive.Proofs.Building
import Directive.Proofs.Validation
import Directive.Proofs.Histories
import Directive.Proofs.Entries
import Directive.Proofs.Layering
import Directive.Proofs.Marks
import Directive.Proofs.Reprinting
import Directive.Proofs.ValueStates
import Directive.Proofs.Nesting
import Directive.Proofs.Invocation
import Directive.Proofs.Tiling
import Directive.Proofs.Streams
import Directive.Proofs.Outline
import Directive.Proofs.Places
import Directive.Proofs.Lossless
import Directive.Proofs.Agreement
import Directive.Proofs.Rendering
import Directive.Proofs.Relayering
