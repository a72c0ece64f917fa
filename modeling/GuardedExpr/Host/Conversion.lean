import GuardedExpr.Error
import GuardedExpr.Heap.Display
import GuardedExpr.Heap.Key
import GuardedExpr.Text.Radix

/-!
Conversions between values: what becomes a whole number or a text, and which values stand for the entries of
a mapping.
-/

namespace GuardedExpr.Conversion

def integral? (v : Value) : Option Int :=
  match v.plain with
  | .int n => some n
  | .bool b => some (if b then 1 else 0)
  | _ => none

def truncated? : Double → Option Int
  | .finite negative rank =>
    let (numerator, denominator) := Double.ratio rank
    let magnitude : Int := (numerator / denominator : Nat)
    some (if negative then -magnitude else magnitude)
  | _ => none

def spelled (base : Nat) (t : Text) : Except Error Value :=
  match Numeral.whole? base t with
  | some n => .ok (.int n)
  | none => .error (.fault .badConversion)

def whole (v : Value) : Except Error Value :=
  match v.plain with
  | .text t => spelled 10 t
  | .float x => match truncated? x with
    | some n => .ok (.int n)
    | none => .error (.fault (if x.isNaN then .badConversion else .indexOverflow))
  | _ => match integral? v with
    | some n => .ok (.int n)
    | none => .error (.fault .badArguments)

/-- The whole number that a value becomes when its base is given: zero or 2 to 36, and only a text has a
base. -/
def wholeInBase (v base : Value) : Except Error Value :=
  match integral? base with
  | none => .error (.fault .badArguments)
  | some n =>
    if n ≠ 0 && (n < 2 || 36 < n) then .error (.fault .badConversion)
    else match v.plain with
      | .text t => spelled n.toNat t
      | _ => .error (.fault .badArguments)

/-- The text that a value becomes. Where a whole number in it has too many digits, it becomes none. -/
def text (h : Heap) (v : Value) : Except Error Value :=
  match h.overlong? v with
  | some count => .error (.fault (.tooManyDigits count))
  | none => .ok (.text (h.asText v))

def pairsInto (h : Heap) : List Value → Entries → Except Error Entries
  | [], entries => .ok entries
  | pair :: pairs, entries => match h.yielded? pair with
    | some [key, value] => match h.key? key with
      | some hashed => pairsInto h pairs (entries.set hashed key value)
      | none => .error (.fault .unhashable)
    | some _ => .error (.fault .badConversion)
    | none => .error (.fault .badArguments)

def entries (h : Heap) (v : Value) : Except Error Entries :=
  match h.entries? v, h.yielded? v with
  | some found, _ => .ok found
  | none, some pairs => pairsInto h pairs []
  | none, none => .error (.fault .badArguments)

end GuardedExpr.Conversion
