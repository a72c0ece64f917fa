import GuardedExpr.Text.Quoted

/-!
Everything that can go wrong, by cause, with the wording in one place. Faults are kept apart from the
errors of the expression language: no command reports them, they end it.
-/

namespace GuardedExpr

/-- A place in a source text: line and column count from one, in code points. -/
structure Position where
  line : Nat
  column : Int
  deriving DecidableEq

inductive ObjectRefusal where
  | globalNamespace
  | documentNode
  | classOfClasses
  | classOfObjects
  deriving DecidableEq

inductive FunctionRefusal where
  | classOfClasses
  | reflective
  deriving DecidableEq

/-- Failures outside the expression language. -/
inductive Fault where
  /-- A numeral is too long to be converted. -/
  | tooManyDigits (count : Nat)
  /-- A key consists of digits, but not of decimal ones. -/
  | undecidedDigits (key : Text)
  /-- A step back where only steps forward are possible. -/
  | negativeStep (count : Int)
  /-- A value that contains itself has no JSON text. -/
  | circular
  /-- A text has a code point that the output cannot write. -/
  | unencodable
  /-- A mapping key has no JSON text. -/
  | unwritableKey
  /-- A value that cannot be a mapping key was used as one. -/
  | unhashable
  /-- A function refuses the number or the kind of its arguments. -/
  | badArguments
  /-- A numeral or key is not understood by a conversion. -/
  | badConversion
  /-- An item was taken from where there is none. -/
  | outOfRange
  /-- What was looked for is not there. -/
  | absent
  /-- An argument is of the right kind, but of no use. -/
  | unfitArgument
  /-- A method was called that is known by name only. -/
  | undescribed
  /-- A list would grow beyond every memory. -/
  | outOfMemory
  /-- An index is beyond every list. -/
  | indexOverflow
  /-- A tree has something else where an expression belongs. -/
  | notAnExpression
  /-- A tree has an expression of the wrong kind in one of its places. -/
  | misplacedExpression
  /-- A registered container is missing. -/
  | unregistered
  /-- A record was asked for an attribute that it does not have. -/
  | missingAttribute
  /-- The classification of a value never ends. -/
  | endless
  /-- A slot was used that the evaluator does not have. -/
  | missingSlot
  /-- A bound on nested evaluations or productions was met. -/
  | exhausted
  deriving DecidableEq

inductive Error where
  | unexpectedCharacter (found : CodePoint) (position : Position)
  | invalidExponent (position : Position)
  | invalidEscape (position : Position)
  | unexpectedToken (expected : Text) (position : Position)
  /-- The left side of an assignment names no place. -/
  | invalidTarget
  | disallowedName
  | disallowedObject (reason : ObjectRefusal)
  | disallowedFunction (reason : FunctionRefusal)
  | unsettableProperty (key container : Text)
  | unsettableIndex (key : Text)
  | notCallable (description : Text)
  /-- A host function failed. -/
  | host (message : Text)
  | fault (cause : Fault)
  deriving DecidableEq

namespace ObjectRefusal

def message : ObjectRefusal → Text
  | .globalNamespace => Text.of "Referencing window in Angular expressions is disallowed!"
  | .documentNode => Text.of "Referencing DOM nodes in Angular expressions is disallowed!"
  | .classOfClasses => Text.of "Referencing Function in Angular expressions is disallowed!"
  | .classOfObjects => Text.of "Referencing Object in Angular expressions is disallowed!"

end ObjectRefusal

namespace FunctionRefusal

def message : FunctionRefusal → Text
  | .classOfClasses => Text.of "Referencing Function in Angular expressions is disallowed!"
  | .reflective => Text.of "Referencing call, apply, or bind in Angular expressions is disallowed!"

end FunctionRefusal

namespace Fault

/-- The text of the faults that a command quotes; the others end it without one. -/
def message : Fault → Text
  | .tooManyDigits count =>
    Text.of "Exceeds the limit (4300 digits) for integer string conversion: value has " ++
      Numeral.decimal count ++ Text.of " digits; use sys.set_int_max_str_digits() to increase the limit"
  | _ => []

end Fault

namespace Error

def message : Error → Text
  | .unexpectedCharacter found _ => Text.of "Unexpected next character: " ++ [found]
  | .invalidExponent _ => Text.of "Invalid exponent"
  | .invalidEscape _ => Text.of "Invalid unicode escape"
  | .unexpectedToken expected _ => Text.of "Unexpected. Expecting: " ++ expected
  | .invalidTarget => Text.of "Trying to assign a value to a non l-value"
  | .disallowedName => Text.of "Attempting to access a disallowed field in Angular expressions!"
  | .disallowedObject reason => reason.message
  | .disallowedFunction reason => reason.message
  | .unsettableProperty key container =>
    Text.of "Cannot set property " ++ key ++ Text.of " of " ++ container
  | .unsettableIndex key => Text.of "Cannot set index " ++ key ++ Text.of " of an array"
  | .notCallable description => description ++ Text.of " is not a function"
  | .host message => message
  | .fault cause => cause.message

def position? : Error → Option Position
  | .unexpectedCharacter _ position => some position
  | .invalidExponent position => some position
  | .invalidEscape position => some position
  | .unexpectedToken _ position => some position
  | _ => none

/-- Whether a command reports the error and goes on: errors of the expression language are reported,
failures of host functions and faults are not. -/
def isReported : Error → Bool
  | .host _ => false
  | .fault _ => false
  | _ => true

end Error

end GuardedExpr
