import Directive.Vocabulary.Basic

/-!
# The built-in vocabulary

The families and functions that are known without a definition file.
-/

namespace Directive.Vocabulary

/-! ### Short forms -/

/-- A truth value with a default. -/
def flag (default : Bool) : ParamRule :=
  { tag := .boolean, default := some (.boolean default) }

/-- One of several strings, with a default. -/
def choice (default : String) (allowed : List String) : ParamRule :=
  { tag := .string, default := some (.string default), allowed := some (allowed.map .string) }

/-- A number with a default, given in tenths. -/
def tenths (default : Nat) : ParamRule :=
  { tag := .float, default := some (.float (.ofRatio false default 10)) }

/-- A function with its description, parameters, required parameters and handler. -/
def define (family name description : String) (parameters : List (String × ParamRule))
    (required : List String) (handler : Option (String × String)) : Contract :=
  { family, name, description, parameters := .ofList parameters, required
    handler := handler.map fun h => ⟨h.1, h.2, .empty⟩ }

/-! ### Families -/

/-- The built-in families. -/
def builtinFamilies : List Family :=
  [ ⟨"reflect", "Trace reasoning, attribution and other cognitive processes"⟩,
    ⟨"collapse", "Detect, prevent and recover from recursive collapse"⟩,
    ⟨"fork", "Create parallel branches for alternative analysis"⟩,
    ⟨"shell", "Isolate and lock execution environments"⟩,
    ⟨"anchor", "Pin identity and context references"⟩,
    ⟨"meta", "Operate on the analysis process itself"⟩,
    ⟨"ghostcircuit", "Identify latent activation patterns"⟩,
    ⟨"gradient", "Track drift across a trajectory"⟩,
    ⟨"disentangle", "Separate entangled features"⟩,
    ⟨"plan", "Structure multi-step intentions"⟩,
    ⟨"validate", "Check outputs against expectations"⟩,
    ⟨"loopback", "Feed results back into the input"⟩,
    ⟨"unite", "Merge branches back together"⟩,
    ⟨"self", "Inspect self-reference"⟩,
    ⟨"emit", "Emit signals and markers"⟩,
    ⟨"trace", "Record execution paths"⟩,
    ⟨"qk", "Inspect query-key alignment"⟩,
    ⟨"shift", "Move focus between contexts"⟩,
    ⟨"memory", "Inspect retention and decay"⟩ ]

/-! ### Functions -/

/-- The functions of the family `reflect`. -/
def reflectContracts : List Contract :=
  let module := "transformerOS.modules.reflect_module"
  [ define "reflect" "trace" "Maps the causal flow of computation through token space"
      [ ("target",
          { choice "reasoning"
              ["reasoning", "attribution", "attention", "memory", "uncertainty", "identity",
                "causal_bridge", "meta-node-cascade", "classifier-pressure", "attribution_path",
                "temporal_vector_sync", "symbolic", "syntax"] with
            validator := some .string, description := some "Target aspect to trace" }),
        ("depth",
          { tag := .stringOrInt, default := some (.integer 3), validator := some .recursionDepth,
            description := some "Recursion depth (integer or `complete`)" }),
        ("detailed", flag true),
        ("visualize", flag false) ]
      ["target"] (some (module, "ReflectOperation.trace")),
    define "reflect" "attribution" "Maps source-to-token causal relationships"
      [ ("sources",
          { choice "all"
              ["all", "primary", "secondary", "contested", "policy", "user", "memory",
                "custom"] with
            validator := some .stringOrList, description := some "Which sources to include" }),
        ("confidence", flag true),
        ("visualize", flag false) ]
      [] (some (module, "ReflectOperation.attribution")),
    define "reflect" "boundary" "Maps epistemic boundaries of model knowledge"
      [ ("distinct", flag true),
        ("overlap", choice "minimal" ["minimal", "moderate", "maximal"]),
        ("visualize", flag false) ]
      [] (some (module, "ReflectOperation.boundary")),
    define "reflect" "uncertainty" "Quantifies and maps uncertainty across token space"
      [ ("quantify", flag true),
        ("distribution", choice "show" ["show", "hide"]),
        ("visualize", flag false) ]
      [] (some (module, "ReflectOperation.uncertainty")),
    define "reflect" "meta" "Reflects on the reflection process itself"
      [ ("level", { tag := .integer, default := some (.integer 3) }),
        ("target",
          choice "reasoning"
            ["reasoning", "attribution", "cognition", "self", "language", "co-emergence"]) ]
      ["level"] none,
    define "reflect" "agent" "Examines agent identity and simulation boundaries"
      [ ("identity", choice "stable" ["stable", "fluid"]),
        ("simulation", choice "explicit" ["explicit", "implicit"]),
        ("visualize", flag false) ]
      [] (some (module, "ReflectOperation.agent")) ]

/-- The functions of the family `collapse`. -/
def collapseContracts : List Contract :=
  let module := "transformerOS.modules.collapse_module"
  [ define "collapse" "detect" "Identifies potential recursion collapse points"
      [ ("threshold",
          { tenths 7 with
            validator := some .unitInterval,
            description := some "Sensitivity threshold for collapse detection" }),
        ("alert", flag true),
        ("trigger",
          choice "recursive_depth"
            ["recursive_depth", "confidence_drop", "contradiction", "oscillation",
              "attribution_void", "loopback_failure", "fork-desync", "inverse_attribution",
              "qk_collapse_vector", "instruction_overlap", "entangled_projection",
              "echo-vector-desync", "recursive-inconsistency", "semantic-vector-mismatch",
              "dual-overlap-failure", "memory_decay", "self_reference"]) ]
      [] (some (module, "CollapseOperation.detect")),
    define "collapse" "prevent" "Establishes safeguards against recursive collapse"
      [ ("trigger",
          choice "recursive_depth"
            ["recursive_depth", "confidence_drop", "contradiction", "oscillation",
              "self_reference"]),
        ("threshold",
          { tag := .integer, default := some (.integer 5),
            validator := some .positiveNumber }) ]
      ["trigger"] (some (module, "CollapseOperation.prevent")),
    define "collapse" "recover" "Recovers from a recursive collapse event"
      [ ("from",
          { tag := .string,
            allowed := some
              (["loop", "contradiction", "dissipation", "fork_explosion"].map .string) }),
        ("method", choice "gradual" ["gradual", "immediate", "checkpoint"]) ]
      ["from"] (some (module, "CollapseOperation.recover")),
    define "collapse" "trace" "Records a detailed collapse trajectory"
      [ ("detail", choice "standard" ["minimal", "standard", "comprehensive"]),
        ("format", choice "symbolic" ["symbolic", "numeric", "visual"]) ]
      [] (some (module, "CollapseOperation.trace")),
    define "collapse" "mirror" "Creates a reflective mirror of collapse patterns"
      [ ("surface", choice "explicit" ["explicit", "implicit"]),
        ("depth", choice "limit" ["limit", "unlimited"]) ]
      [] (some (module, "CollapseOperation.mirror")) ]

/-- The functions of the family `ghostcircuit`. -/
def ghostcircuitContracts : List Contract :=
  let module := "transformerOS.modules.ghostcircuits_module"
  [ define "ghostcircuit" "identify" "Identifies ghost circuits and symbolic residue"
      [ ("sensitivity", tenths 7),
        ("threshold", tenths 2),
        ("trace_type", choice "full" ["full", "attention", "symbolic", "null"]),
        ("visualize", flag false) ]
      [] (some (module, "GhostCircuitOperation.identify")),
    define "ghostcircuit" "extract" "Extracts specific symbolic residue patterns"
      [ ("pattern", choice "all" ["all", "attention", "symbolic", "token", "circuit"]),
        ("intensity", choice "medium" ["low", "medium", "high"]),
        ("visualize", flag false) ]
      ["pattern"] (some (module, "GhostCircuitOperation.extract")),
    define "ghostcircuit" "trace" "Traces ghost activation pathways through model layers"
      [ ("depth", choice "all" ["surface", "middle", "deep", "all"]),
        ("threshold", tenths 2),
        ("visualize", flag false) ]
      [] (some (module, "GhostCircuitOperation.trace")) ]

/-- The functions of the family `fork`. -/
def forkContracts : List Contract :=
  let module := "transformerOS.modules.fork_module"
  [ define "fork" "context" "Creates contextual forks for alternative analysis"
      [ ("branches", { tag := .list }),
        ("assess", flag true),
        ("visualize", flag false) ]
      ["branches"] (some (module, "ForkOperation.context")),
    define "fork" "attribution" "Forks attribution pathways for comparison"
      [ ("sources",
          { tag := .any, default := some (.string "all"), validator := some .stringOrList }),
        ("visualize", flag false) ]
      [] (some (module, "ForkOperation.attribution")) ]

/-- The built-in vocabulary. -/
def builtin : Vocabulary :=
  ⟨builtinFamilies,
    reflectContracts ++ collapseContracts ++ ghostcircuitContracts ++ forkContracts⟩

end Directive.Vocabulary
