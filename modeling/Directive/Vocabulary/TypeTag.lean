import Directive.Value.Basic

/-!
# Types and checks of parameters

A parameter has a declared type, named by a `TypeTag`, and may have a further check, a `Validator`.
Both are closed sets of predicates on values.  Definitions name them by words; some types have two.
-/

namespace Directive

/-! ### Predicates on values -/

namespace Value

/-- Whether the value is a string. -/
def isString : Value → Bool
  | .string _ => true
  | _ => false

/-- Whether the value is an integer. -/
def isInteger : Value → Bool
  | .integer _ => true
  | _ => false

/-- Whether the value is a truth value. -/
def isBoolean : Value → Bool
  | .boolean _ => true
  | _ => false

/-- Whether the value is a list. -/
def isList : Value → Bool
  | .list _ => true
  | _ => false

/-- Whether the value is null. -/
def isNull : Value → Bool
  | .null => true
  | _ => false

/-- Whether the value is a number; integers are numbers. -/
def isNumber (v : Value) : Bool :=
  v.number?.isSome

/-- Whether the value is a number between zero and one, both included. -/
def isInUnitInterval (v : Value) : Bool :=
  v.number?.any fun x => Binary64.zero.le x && x.le (.ofInt 1)

/-- Whether the value is a number greater than zero. -/
def isPositive (v : Value) : Bool :=
  v.number?.any fun x => Binary64.zero.lt x

/-- Whether the value is a positive integer or the string `complete`. -/
def isRecursionDepth : Value → Bool
  | .integer i => 0 < i
  | v => v.isComplete

end Value

/-! ### Types -/

/-- The declared type of a parameter. -/
inductive TypeTag where
  | string
  | integer
  | float
  | boolean
  | list
  | stringOrInt
  | any
  | null
  | probabilityThreshold
  | recursionDepth
deriving DecidableEq, Repr

namespace TypeTag

/-- The canonical name of a type. -/
def name : TypeTag → String
  | .string => "string"
  | .integer => "integer"
  | .float => "float"
  | .boolean => "boolean"
  | .list => "list"
  | .stringOrInt => "string_or_int"
  | .any => "any"
  | .null => "null"
  | .probabilityThreshold => "probability_threshold"
  | .recursionDepth => "recursion_depth"

/-- The type with this name or alias. -/
def ofName? : String → Option TypeTag
  | "string" | "str" => some .string
  | "integer" | "int" => some .integer
  | "float" | "number" => some .float
  | "boolean" | "bool" => some .boolean
  | "list" | "sequence" => some .list
  | "string_or_int" => some .stringOrInt
  | "any" => some .any
  | "null" => some .null
  | "probability_threshold" => some .probabilityThreshold
  | "recursion_depth" => some .recursionDepth
  | _ => none

/-- Whether a value has the type. -/
def accepts : TypeTag → Value → Bool
  | .string, v => v.isString
  | .integer, v => v.isInteger
  | .float, v => v.isNumber
  | .boolean, v => v.isBoolean
  | .list, v => v.isList
  | .stringOrInt, v => v.isString || v.isInteger
  | .any, _ => true
  | .null, v => v.isNull
  | .probabilityThreshold, v => v.isInUnitInterval
  | .recursionDepth, v => v.isRecursionDepth

end TypeTag

/-! ### Checks -/

/-- A check beyond the type that a parameter may have. -/
inductive Validator where
  | recursionDepth
  | unitInterval
  | positiveNumber
  | string
  | stringOrList
deriving DecidableEq, Repr

namespace Validator

/-- The name of a check in definitions. -/
def name : Validator → String
  | .recursionDepth => "recursion_depth"
  | .unitInterval => "unit_interval"
  | .positiveNumber => "positive_number"
  | .string => "string"
  | .stringOrList => "string_or_list"

/-- The check with this name. -/
def ofName? : String → Option Validator
  | "recursion_depth" => some .recursionDepth
  | "unit_interval" => some .unitInterval
  | "positive_number" => some .positiveNumber
  | "string" => some .string
  | "string_or_list" => some .stringOrList
  | _ => none

/-- What the check asks for, in the words of messages. -/
def expectation : Validator → String
  | .recursionDepth => "a positive integer or `complete`"
  | .unitInterval => "a number between 0 and 1"
  | .positiveNumber => "a number greater than 0"
  | .string => "a string"
  | .stringOrList => "a string or a list"

/-- Whether a value passes the check. -/
def accepts : Validator → Value → Bool
  | .recursionDepth, v => v.isRecursionDepth
  | .unitInterval, v => v.isInUnitInterval
  | .positiveNumber, v => v.isPositive
  | .string, v => v.isString
  | .stringOrList, v => v.isString || v.isList

end Validator

end Directive
