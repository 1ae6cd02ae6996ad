import FormulaEditor.Settings

/-!
# Options for generated expressions
-/

namespace FormulaEditor

/-- How expressions are written. -/
structure ExprOptions where
  /-- The function of base and exponent. -/
  powerFunction : String := "mypow"
  /-- The function of a postfix exclamation mark. -/
  factorialFunction : String := "factorial"
  /-- The function of a logarithm's base and argument. -/
  logBaseFunction : String := "log_base"
  /-- Whether integers get a fractional part. -/
  promotesIntegers : Bool := true
  /-- What the names of accumulators begin with. -/
  accumulatorPrefix : String := "sum"
  /-- The largest number an accumulator gets; the next one starts again at zero. -/
  counterWrap : Nat := 100000
deriving DecidableEq, Repr, Inhabited

namespace ExprOptions

/-- The options to start from. -/
def standard : ExprOptions := {}

/-- Exponents by the plain power function. -/
def builtinPow : ExprOptions := { powerFunction := "pow" }

/-- Integers as they are. -/
def literal : ExprOptions := { promotesIntegers := false }

/-- The options with one setting changed. -/
def set? (o : ExprOptions) (name : String) (value : Setting) : Option ExprOptions :=
  match name with
  | "power_function" => value.text?.map fun v => { o with powerFunction := v }
  | "factorial_function" => value.text?.map fun v => { o with factorialFunction := v }
  | "log_base_function" => value.text?.map fun v => { o with logBaseFunction := v }
  | "promote_integers" => value.flag?.map fun v => { o with promotesIntegers := v }
  | "accumulator_prefix" => value.text?.map fun v => { o with accumulatorPrefix := v }
  | "counter_wrap" => value.count?.map fun v => { o with counterWrap := v }
  | _ => some o

/-- The standard options with the given settings. -/
def ofSettings? (settings : List (String × Setting)) : Option ExprOptions :=
  settings.foldlM (fun o (name, value) => o.set? name value) standard

/-- Options that go by a name. -/
def named? : String → Option ExprOptions
  | "builtin_pow" => some builtinPow
  | "literal" => some literal
  | _ => none

end ExprOptions

end FormulaEditor
