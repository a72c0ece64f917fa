import GuardedExpr.Heap.Equality
import GuardedExpr.Heap.Member
import GuardedExpr.Host.Conversion
import GuardedExpr.Text.Digit
import GuardedExpr.Text.Search

/-!
Methods of the built-in classes: what they make of a receiver and of arguments, and how they fail. A few that lead to
values of other kinds, to the numbering of bytes or beyond the letters of ASCII are known by name only.
-/

namespace GuardedExpr

structure Argument where
  value : Value
  /-- The items that it yields, if it yields any. -/
  yields : Option (List Value)
  isTuple : Bool
  /-- Which items of the receiver are equal to it. -/
  equals : List (Option Bool)

def Heap.argument (h : Heap) (items : List Value) (v : Value) : Argument where
  value := v
  yields := h.yielded? v
  isTuple := match v with
    | .ref r => match h.cell r with
      | .tuple _ => true
      | _ => false
    | _ => false
  equals := items.map fun item => h.equal? item v

namespace Argument

def text (argument : Argument) : Except Fault Text :=
  match argument.value.plain with
  | .text t => .ok t
  | _ => .error .badArguments

def whole (argument : Argument) : Except Fault Int :=
  match Conversion.integral? argument.value with
  | some n => .ok n
  | none => .error .badArguments

def count (argument : Argument) : Except Fault Int := do
  let n ← argument.whole
  if n < -Heap.listLimit || Heap.listLimit ≤ n then .error .indexOverflow else return n

/-- How often something is done at most: as often as possible if the number is below zero. -/
def limit (most : Nat) : List Argument → Except Fault Nat
  | [] => .ok most
  | [argument] => do
    let n ← argument.count
    return if n < 0 then most else min n.toNat most
  | _ => .error .badArguments

def small (argument : Argument) : Except Fault Int := do
  let n ← argument.whole
  if n < -Int.pow 2 31 || Int.pow 2 31 ≤ n then .error .indexOverflow else return n

/-- An end of a range. Positions below zero count from the end of what it is a range of. -/
def bound (length : Nat) (argument : Argument) : Except Fault Nat := do
  let n ← argument.whole
  return (if n < 0 then n + length else n).toNat

def isNull (argument : Argument) : Bool :=
  argument.value = .null

def range (length : Nat) : List Argument → Except Fault (Nat × Nat)
  | [] => .ok (0, length)
  | [first] => do return (← if first.isNull then pure 0 else first.bound length, length)
  | [first, last] => do
    return (← if first.isNull then pure 0 else first.bound length,
      ← if last.isNull then pure length else (min length ·) <$> last.bound length)
  | _ => .error .badArguments

def place? (argument : Argument) (first last : Nat) : Except Fault (Option Nat) :=
  match ((argument.equals.take last).drop first).findIdx? (· != some false) with
  | none => .ok none
  | some place => match argument.equals[first + place]? with
    | some (some true) => .ok (some (first + place))
    | _ => .error .endless

def occurrences (argument : Argument) : Except Fault Nat :=
  if argument.equals.contains none then .error .endless
  else .ok (argument.equals.count (some true))

end Argument

inductive Answer where
  | scalar (scalar : Scalar)
  | truth (b : Bool)
  | list (scalars : List Scalar)
  | tuple (scalars : List Scalar)

abbrev Answer.whole (n : Int) : Answer := .scalar (.int n)

abbrev Answer.text (t : Text) : Answer := .scalar (.text t)

namespace TextMethod

def plainly (answer : Text → Answer) (t : Text) : List Argument → Except Fault Answer
  | [] => .ok (answer t)
  | _ => .error .badArguments

def lettered (answer : Text → Answer) (t : Text) : List Argument → Except Fault Answer
  | [] => if t.isAscii then .ok (answer t) else .error .undescribed
  | _ => .error .badArguments

def consists (kind : CodePoint → Bool) (t : Text) : Answer :=
  .truth (!t.isEmpty && t.all kind)

def hasCase (this other : CodePoint → Bool) (t : Text) : Answer :=
  .truth (t.any this && !t.any other)

def capitalized : Text → Text
  | [] => []
  | c :: rest => c.asciiUpper :: Text.lower rest

def isIdentifier : Text → Bool
  | [] => false
  | c :: rest => !c.isDigit && (c :: rest).all fun c => c.isLetter || c.isDigit || c = CodePoint.ofChar '_'

def swapped (c : CodePoint) : CodePoint :=
  if c.within 'a' 'z' then c.asciiUpper else c.asciiLower

def search (find : Text → Text → Option Nat) (answer : Option Nat → Except Fault Answer) (t : Text) :
    List Argument → Except Fault Answer
  | part :: ends => do
    let part ← part.text
    let (first, last) ← Argument.range t.length ends
    answer <| if last < first then none else (find part ((t.take last).drop first)).map (· + first)
  | [] => .error .badArguments

def orMinusOne (place : Option Nat) : Except Fault Answer :=
  .ok (.whole (place.elim (-1) fun place => place))

def orAbsent (place : Option Nat) : Except Fault Answer :=
  match place with
  | some place => .ok (.whole place)
  | none => .error .absent

def counts (t : Text) : List Argument → Except Fault Answer
  | part :: ends => do
    let part ← part.text
    let (first, last) ← Argument.range t.length ends
    let within := (t.take last).drop first
    return .whole <| if last < first then 0
      else if part.isEmpty then within.length + 1
      else (Text.cut part within.length within).length - 1
  | [] => .error .badArguments

def passes (test : Text → Bool) : List Value → Except Fault Bool
  | [] => .ok false
  | v :: rest => match v.plain with
    | .text t => if test t then .ok true else passes test rest
    | _ => .error .badArguments

/-- Whether a range begins, or ends, with a text or with one of a tuple of texts. -/
def touches (test : Text → Text → Bool) (t : Text) : List Argument → Except Fault Answer
  | affix :: ends => do
    let (first, last) ← Argument.range t.length ends
    let within := (t.take last).drop first
    return .truth <| ← passes (fun part => first ≤ last && test part within) <|
      if affix.isTuple then affix.yields.getD [] else [affix.value]
  | [] => .error .badArguments

def strips (strip : (CodePoint → Bool) → Text → Text) (t : Text) : List Argument → Except Fault Answer
  | [] => .ok (.text (strip CodePoint.isBlank t))
  | [kinds] =>
    if kinds.isNull then .ok (.text (strip CodePoint.isBlank t))
    else do
      let kinds ← kinds.text
      return .text (strip kinds.contains t)
  | _ => .error .badArguments

def pieces (texts : List Text) : Answer :=
  .list (texts.map Scalar.text)

def splits (backwards : Bool) (t : Text) : List Argument → Except Fault Answer
  | [] => .ok (pieces (if backwards then Text.fromEnd (Text.words t.length) t else Text.words t.length t))
  | separator :: most => do
    let count ← Argument.limit t.length most
    if separator.isNull then
      return pieces (if backwards then Text.fromEnd (Text.words count) t else Text.words count t)
    else
      let separator ← separator.text
      if separator.isEmpty then .error .unfitArgument
      else return pieces <|
        if backwards then Text.fromEnd (Text.cut separator.reverse count) t else Text.cut separator count t

def splitsLines (t : Text) : List Argument → Except Fault Answer
  | [] => .ok (pieces (Text.cutLines false [] t))
  | [keep] => do return pieces (Text.cutLines ((← keep.small) != 0) [] t)
  | _ => .error .badArguments

def expandsTabs (t : Text) : List Argument → Except Fault Answer
  | [] => .ok (.text (Text.expanded 8 0 t))
  | [width] => do return .text (Text.expanded (← width.small).toNat 0 t)
  | _ => .error .badArguments

/-- Parts a text in three, with nothing but the text itself at one end where the separator is not there. -/
def parts (find : Text → Text → Option Nat) (whole : Text → List Text) (t : Text) :
    List Argument → Except Fault Answer
  | [separator] => do
    let separator ← separator.text
    if separator.isEmpty then .error .unfitArgument
    else return .tuple <| List.map Scalar.text <| match find separator t with
      | some place => Text.partedAt separator t place
      | none => whole t
  | _ => .error .badArguments

def joins (t : Text) : List Argument → Except Fault Answer
  | [items] => match items.yields with
    | none => .error .badArguments
    | some items => do
      let texts ← items.mapM fun item => match item.plain with
        | .text t => .ok t
        | _ => .error .badArguments
      return .text (Text.join t texts)
  | _ => .error .badArguments

def replaces (t : Text) : List Argument → Except Fault Answer
  | part :: other :: most => do
    let part ← part.text
    let other ← other.text
    return .text (Text.replace part other (← Argument.limit (t.length + 1) most) t)
  | _ => .error .badArguments

def removes (test : Text → Text → Bool) (remainder : Nat → Text → Text) (t : Text) :
    List Argument → Except Fault Answer
  | [part] => do
    let part ← part.text
    return .text (if test part t then remainder part.length t else t)
  | _ => .error .badArguments

/-- The width of a text to be filled up, which no memory may be too small for. -/
def width (argument : Argument) : Except Fault Nat := do
  let n ← argument.count
  if Heap.memoryLimit ≤ n then .error .outOfMemory else return n.toNat

/-- Fills up to a width; how much of what is missing goes to the front is told from it and from the width. -/
def fills (front : Nat → Nat → Nat) (t : Text) : List Argument → Except Fault Answer
  | target :: fill => do
    let target ← width target
    let fill ← match fill with
      | [] => pure (CodePoint.ofChar ' ')
      | [fill] => do match ← fill.text with
        | [c] => pure c
        | _ => .error .badArguments
      | _ => .error .badArguments
    let missing := target - t.length
    return .text (Text.padded fill (front missing target) (missing - front missing target) t)
  | [] => .error .badArguments

def fillsZeros (t : Text) : List Argument → Except Fault Answer
  | [target] => do
    let target ← width target
    let zeros := List.replicate (target - t.length) (CodePoint.ofChar '0')
    return .text <| match t with
      | c :: rest => if c = '+' || c = '-' then c :: zeros ++ rest else zeros ++ t
      | [] => zeros
  | _ => .error .badArguments

def table : Table Text (Text → List Argument → Except Fault Answer) :=
  [("upper", lettered fun t => .text t.upper),
    ("lower", lettered fun t => .text t.lower),
    ("casefold", lettered fun t => .text t.lower),
    ("capitalize", lettered fun t => .text (capitalized t)),
    ("swapcase", lettered fun t => .text (t.map swapped)),
    ("title", lettered fun t => .text (Text.titled false t)),
    ("istitle", lettered fun t => .truth (t.any CodePoint.isLetter && Text.titled false t = t)),
    ("isidentifier", lettered fun t => .truth (isIdentifier t)),
    ("islower", lettered (hasCase (CodePoint.within 'a' 'z') (CodePoint.within 'A' 'Z'))),
    ("isupper", lettered (hasCase (CodePoint.within 'A' 'Z') (CodePoint.within 'a' 'z'))),
    ("isalpha", lettered (consists CodePoint.isLetter)),
    ("isalnum", lettered (consists fun c => c.isLetter || c.isDigit)),
    ("isnumeric", lettered (consists CodePoint.isDigit)),
    ("isascii", plainly fun t => .truth t.isAscii),
    ("isdigit", plainly (consists CodePoint.isFigure)),
    ("isdecimal", plainly (consists fun c => c.decimal?.isSome)),
    ("isspace", plainly (consists CodePoint.isBlank)),
    ("isprintable", plainly fun t => .truth (t.all CodePoint.isPrintable)),
    ("find", search Text.first? orMinusOne),
    ("rfind", search Text.last? orMinusOne),
    ("index", search Text.first? orAbsent),
    ("rindex", search Text.last? orAbsent),
    ("count", counts),
    ("startswith", touches Text.startsWith),
    ("endswith", touches Text.endsWith),
    ("strip", strips fun kind t => Text.stripEnd kind (Text.stripStart kind t)),
    ("lstrip", strips Text.stripStart),
    ("rstrip", strips Text.stripEnd),
    ("split", splits false),
    ("rsplit", splits true),
    ("splitlines", splitsLines),
    ("expandtabs", expandsTabs),
    ("partition", parts Text.first? fun t => [t, [], []]),
    ("rpartition", parts Text.last? fun t => [[], [], t]),
    ("join", joins),
    ("replace", replaces),
    ("removeprefix", removes Text.startsWith fun length t => t.drop length),
    ("removesuffix", removes Text.endsWith fun length t => t.take (t.length - length)),
    ("ljust", fills fun _ _ => 0),
    ("rjust", fills fun missing _ => missing),
    ("center", fills fun missing target => missing / 2 + missing % 2 * (target % 2)),
    ("zfill", fillsZeros)].map fun entry => (Text.of entry.1, entry.2)

end TextMethod

namespace NumberMethod

def plainly {α : Type} (answer : α → Except Fault Answer) (number : α) : List Argument → Except Fault Answer
  | [] => answer number
  | _ => .error .badArguments

def bits (n : Nat) : Nat × Nat :=
  ((Nat.toDigits 2 n).length, (Nat.toDigits 2 n).count '1')

def fraction (numerator : Int) (denominator : Nat) : Answer :=
  .tuple [.int numerator, .int denominator]

def ofWhole : Table Text (Int → List Argument → Except Fault Answer) :=
  [("conjugate", plainly fun n => .ok (.whole n)),
    ("as_integer_ratio", plainly fun n => .ok (fraction n 1)),
    ("bit_length", plainly fun n => .ok (.whole (if n = 0 then 0 else (bits n.natAbs).1))),
    ("bit_count", plainly fun n => .ok (.whole (bits n.natAbs).2))].map fun entry => (Text.of entry.1, entry.2)

def ratio : Double → Except Fault Answer
  | .nan _ => .error .unfitArgument
  | .infinite _ => .error .indexOverflow
  | .finite negative rank =>
    let (numerator, denominator) := Double.ratio rank
    let common := Nat.gcd numerator denominator
    let magnitude : Int := (numerator / common : Nat)
    .ok (fraction (if negative then -magnitude else magnitude) (denominator / common))

/-- The mantissa in hexadecimal digits and the exponent of two; what is below all powers of two has the smallest. -/
def hexadecimal : Double → Text
  | .nan _ => Text.of "nan"
  | .infinite negative => Text.of (if negative then "-inf" else "inf")
  | .finite negative rank =>
    let sign := Text.of (if negative then "-" else "")
    if rank.val = 0 then sign ++ Text.of "0x0.0p+0"
    else
      let lead := if rank.val < Double.binade then "0x0." else "0x1."
      let exponent : Int := if rank.val < Double.binade then -1022 else (rank.val / Double.binade : Nat) - 1023
      sign ++ Text.of lead ++ Numeral.hexadecimal 13 (rank.val % Double.binade) ++
        Text.of (if exponent < 0 then "p" else "p+") ++ Numeral.signed exponent

def ofFloat : Table Text (Double → List Argument → Except Fault Answer) :=
  [("conjugate", plainly fun x => .ok (.scalar (.float x))),
    ("is_integer", plainly fun x => .ok (.truth x.toInt?.isSome)),
    ("hex", plainly fun x => .ok (.text (hexadecimal x))),
    ("as_integer_ratio", plainly ratio)].map fun entry => (Text.of entry.1, entry.2)

end NumberMethod

/-- What a method of a number or a text answers. One that is known by name only answers nothing. -/
def Scalar.call (scalar : Scalar) (name : Text) (arguments : List Argument) : Except Fault Answer :=
  match scalar with
  | .int n => ((Table.lookup name NumberMethod.ofWhole).map (· n arguments)).getD (.error .undescribed)
  | .float x => ((Table.lookup name NumberMethod.ofFloat).map (· x arguments)).getD (.error .undescribed)
  | .text t => ((Table.lookup name TextMethod.table).map (· t arguments)).getD (.error .undescribed)

/-- What a method makes of the items of a list: other items, with a value or with a list of its own. -/
structure Turn where
  items : List Value
  answer : Value ⊕ List Value

namespace ListMethod

def quietly (items : List Value) : Except Fault Turn :=
  .ok ⟨items, .inl .null⟩

def answering (items : List Value) (n : Int) : Except Fault Turn :=
  .ok ⟨items, .inl (.int n)⟩

def appends (items : List Value) : List Argument → Except Fault Turn
  | [item] => quietly (items ++ [item.value])
  | _ => .error .badArguments

def appendsAll (items : List Value) : List Argument → Except Fault Turn
  | [others] => match others.yields with
    | some others => quietly (items ++ others)
    | none => .error .badArguments
  | _ => .error .badArguments

def inserts (items : List Value) : List Argument → Except Fault Turn
  | [place, item] => do
    let n ← place.count
    quietly (items.insertIdx (min items.length (if n < 0 then n + items.length else n).toNat) item.value)
  | _ => .error .badArguments

/-- Takes out the item at a position; positions below zero count from the end. -/
def takes (items : List Value) (position : Int) : Except Fault Turn :=
  let index := if position < 0 then position + items.length else position
  match if index < 0 then none else items[index.toNat]? with
  | some item => .ok ⟨items.eraseIdx index.toNat, .inl item⟩
  | none => .error .outOfRange

def pops (items : List Value) : List Argument → Except Fault Turn
  | [] => takes items (-1)
  | [position] => do takes items (← position.count)
  | _ => .error .badArguments

def removes (items : List Value) : List Argument → Except Fault Turn
  | [item] => do match ← item.place? 0 items.length with
    | some place => quietly (items.eraseIdx place)
    | none => .error .absent
  | _ => .error .badArguments

def clears (_ : List Value) : List Argument → Except Fault Turn
  | [] => quietly []
  | _ => .error .badArguments

def reverses (items : List Value) : List Argument → Except Fault Turn
  | [] => quietly items.reverse
  | _ => .error .badArguments

def copies (items : List Value) : List Argument → Except Fault Turn
  | [] => .ok ⟨items, .inr items⟩
  | _ => .error .badArguments

def counts (items : List Value) : List Argument → Except Fault Turn
  | [item] => do answering items (← item.occurrences)
  | _ => .error .badArguments

def finds (items : List Value) : List Argument → Except Fault Turn
  | item :: ends => do
    if ends.any Argument.isNull then .error .badArguments
    let (first, last) ← Argument.range items.length ends
    match ← item.place? first last with
    | some place => answering items place
    | none => .error .absent
  | [] => .error .badArguments

def isText (v : Value) : Bool :=
  match v.plain with
  | .text _ => true
  | _ => false

/-- A number as a quotient, which is below, among or above the finite ones. -/
def magnitude? (v : Value) : Option (Int × Int × Nat) :=
  match v.plain with
  | .float (.nan _) => none
  | .float (.infinite negative) => some (if negative then -1 else 1, 0, 1)
  | .float (.finite negative rank) =>
    let (numerator, denominator) := Double.ratio rank
    some (0, if negative then -numerator else numerator, denominator)
  | plain => (Conversion.integral? plain).map fun n => (0, n, 1)

def inOrder (v w : Value) : Bool :=
  match v.plain, w.plain with
  | .text t, .text u => t.isUpTo u
  | _, _ => match magnitude? v, magnitude? w with
    | some (range, n, d), some (other, m, e) => range < other || (range = other && n * e ≤ m * d)
    | _, _ => false

def sorts (items : List Value) : List Argument → Except Fault Turn
  | [] =>
    if items.length < 2 then quietly items
    else if items.all (fun item => (magnitude? item).isSome) || items.all isText then
      quietly (items.mergeSort inOrder)
    else .error .undescribed
  | _ => .error .badArguments

def table : Table Text (List Value → List Argument → Except Fault Turn) :=
  [("append", appends), ("clear", clears), ("copy", copies), ("count", counts), ("extend", appendsAll),
    ("index", finds), ("insert", inserts), ("pop", pops), ("remove", removes), ("reverse", reverses),
    ("sort", sorts)].map fun entry => (Text.of entry.1, entry.2)

/-- The methods that tuples have too. They leave the items alone. -/
def tupleTable : Table Text (List Value → List Argument → Except Fault Turn) :=
  [("count", counts), ("index", finds)].map fun entry => (Text.of entry.1, entry.2)

end ListMethod

end GuardedExpr
