import GuardedExpr.Text.Blank
import GuardedExpr.Text.Digit

/-!
Whole numbers that a text spells in a base between 2 and 36. A numeral may have blanks around it, a sign,
a mark that announces its base, and single underscores between its digits. Digits of all scripts count,
and letters of either case follow them.
-/

namespace GuardedExpr

namespace CodePoint

def plainDigit (c : CodePoint) : CodePoint :=
  match c.decimal? with
  | some value => ofNat (48 + value)
  | none => c

/-- The value of a digit in the largest base: the ASCII digits, then the letters of either case. -/
def radixValue? (c : CodePoint) : Option Nat :=
  if c.isDigit then some (c.val - 48)
  else if c.within 'a' 'z' then some (c.val - 87)
  else if c.within 'A' 'Z' then some (c.val - 55)
  else none

def padsNumeral (c : CodePoint) : Bool :=
  c.isBlank && !(0x1C ≤ c.val && c.val ≤ 0x1F)

end CodePoint

namespace Numeral

def unpadded (t : Text) : Text :=
  ((t.dropWhile CodePoint.padsNumeral).reverse.dropWhile CodePoint.padsNumeral).reverse

def ungrouped? : Text → Option Text
  | [] => none
  | [c] => if c = '_' then none else some [c]
  | c :: d :: rest =>
    if c = '_' then none
    else if d = '_' then (ungrouped? rest).map (c :: ·)
    else (ungrouped? (d :: rest)).map (c :: ·)

def inBase? (base : Nat) (digits : Text) : Option Nat :=
  digits.foldl (fun n c => do
    let value ← c.radixValue?
    if value < base then return base * (← n) + value else none) (some 0)

/-- Digits of these bases stand for whole bits, so that numerals of every length are converted. -/
def bitBases : List Nat := [2, 4, 8, 16, 32]

def magnitude? (base : Nat) (t : Text) : Option Nat := do
  let digits ← ungrouped? t
  if digitLimit < digits.length && !bitBases.contains base then none else inBase? base digits

def markedBase? (c : CodePoint) : Option Nat :=
  if c = 'x' || c = 'X' then some 16
  else if c = 'o' || c = 'O' then some 8
  else if c = 'b' || c = 'B' then some 2
  else none

def announced? : Text → Option Nat
  | zero :: mark :: _ => if zero = '0' then markedBase? mark else none
  | _ => none

def unmarked (base : Nat) (t : Text) : Text :=
  if announced? t = some base then
    match t.drop 2 with
    | c :: rest => if c = '_' then rest else c :: rest
    | [] => []
  else t

/-- The number that a numeral without a sign spells. The base zero leaves the base to the numeral, which
is decimal unless it announces another one; zeros in front are then kept for zero alone. -/
def unsigned? (base : Nat) (t : Text) : Option Nat :=
  if base = 0 then
    match announced? t with
    | some announced => magnitude? announced (unmarked announced t)
    | none => do
      let found ← magnitude? 10 t
      if t.headD '1' = '0' && found ≠ 0 then none else return found
  else magnitude? base (unmarked base t)

def whole? (base : Nat) (t : Text) : Option Int :=
  match (unpadded t).map CodePoint.plainDigit with
  | [] => none
  | c :: rest => do
    let found ← unsigned? base (if c = '-' || c = '+' then rest else c :: rest)
    return if c = '-' then -(found : Int) else found

end Numeral

end GuardedExpr
