import GuardedExpr.Code.Basic
import GuardedExpr.Text.Numeral

/-!
Listings of code in a notation like that of a small scripting language: one line for each statement, behind
a header and the declaration of the slots. Text is escaped down to letters, digits and spaces, so nothing
that stands in a literal can look like code or break a line.
-/

namespace GuardedExpr

def CodePoint.isPlain (c : CodePoint) : Bool :=
  c = ' ' || c.isLetter || c.isDigit

def CodePoint.escaped (c : CodePoint) : Text :=
  if c.isPlain then [c]
  else if c.val > 0xFFFF then Text.of "\\U" ++ Numeral.hexadecimal 8 c.val
  else Text.of "\\u" ++ Numeral.hexadecimal 4 c.val

def Text.escaped (t : Text) : Text :=
  Text.of "'" ++ t.flatMap CodePoint.escaped ++ Text.of "'"

def slotName (index : Nat) : Text :=
  Text.of "v" ++ Numeral.decimal index

def Selector.listing (container : Text) : Selector → Text
  | .name field => container ++ Text.of "." ++ field
  | .slot index => container ++ Text.of "[" ++ slotName index ++ Text.of "]"

def hasListing (container name : Text) : Text :=
  Text.of "has(" ++ container ++ Text.of ", " ++ name.escaped ++ Text.of ")"

namespace Code

mutual

def listing : Code → Text
  | .locals => Text.of "l"
  | .scope => Text.of "s"
  | .parameter => Text.of "v"
  | .slot index => slotName index
  | .owner name => Text.of "(l if " ++ hasListing (Text.of "l") name ++ Text.of " else s)"
  | .literal _ shown => shown
  | .array items => Text.of "[" ++ Text.join (Text.of ", ") (listings items) ++ Text.of "]"
  | .object keys values =>
    Text.of "\x7b" ++ Text.join (Text.of ", ") (pairListings keys values) ++ Text.of "\x7d"
  | .member container selector => selector.listing container.listing
  | .guarded code => Text.of "ensure_safe_object(" ++ code.listing ++ Text.of ")"
  | .call callee arguments =>
    slotName callee ++ Text.of " and ensure_safe_object(" ++ slotName callee ++ Text.of "(" ++
      Text.join (Text.of ", ") (listings arguments) ++ Text.of "))"
  | .store _ container selector value =>
    selector.listing container.listing ++ Text.of " = " ++ value.listing

def listings : List Code → List Text
  | [] => []
  | code :: codes => code.listing :: listings codes

def pairListings : List (Value × Text) → List Code → List Text
  | key :: keys, value :: values =>
    (key.2 ++ Text.of ": " ++ value.listing) :: pairListings keys values
  | _, _ => []

end

end Code

def Question.listing : Question → Text
  | .has container name => hasListing container.listing name
  | .holds code => code.listing

def Condition.listing (condition : Condition) : Text :=
  if condition.denied then Text.of "not (" ++ condition.question.listing ++ Text.of ")"
  else condition.question.listing

def Action.listing : Action → Text
  | .assign slot code => slotName slot ++ Text.of " = " ++ code.listing
  | .create container selector => selector.listing container.listing ++ Text.of " = \x7b\x7d"

def Statement.listing : Statement → Text
  | .perform action => action.listing
  | .guardedBy conditions action =>
    Text.of "if " ++ Text.join (Text.of " and ") (conditions.map Condition.listing) ++ Text.of ": " ++
      action.listing
  | .checkObject code => Text.of "ensure_safe_object(" ++ code.listing ++ Text.of ")"
  | .checkName slot => Text.of "ensure_safe_member_name(" ++ slotName slot ++ Text.of ")"
  | .checkFunction slot => Text.of "ensure_safe_function(" ++ slotName slot ++ Text.of ")"
  | .result code => Text.of "return " ++ code.listing

def declaration : Nat → List Text
  | 0 => []
  | slots =>
    [Text.of "    " ++ Text.join (Text.of " = ") ((List.range slots).map slotName) ++ Text.of " = None"]

def Routine.lines (parameters : String) (routine : Routine) : List Text :=
  (Text.of "def fn(" ++ Text.of parameters ++ Text.of "):") :: declaration routine.slots ++
    routine.statements.map fun statement => Text.of "    " ++ statement.listing

def Routine.listing (parameters : String) (routine : Routine) : Text :=
  Text.join (Text.of "\n") (routine.lines parameters)

end GuardedExpr
