import GuardedExpr.Text.Numeral

/-!
Digits of all scripts. A decimal digit stands in a row of ten that starts at its zero and has a value; a
sign such as a superscript or circled figure is a digit too, but no part of a positional numeral.
-/

namespace GuardedExpr

namespace Digit

def zeros : List Nat := [
  0x30, 0x660, 0x6f0, 0x7c0, 0x966, 0x9e6, 0xa66, 0xae6, 0xb66, 0xbe6, 0xc66, 0xce6, 0xd66, 0xde6, 0xe50,
   0xed0, 0xf20, 0x1040, 0x1090, 0x17e0, 0x1810, 0x1946, 0x19d0, 0x1a80, 0x1a90, 0x1b50, 0x1bb0, 0x1c40,
   0x1c50, 0xa620, 0xa8d0, 0xa900, 0xa9d0, 0xa9f0, 0xaa50, 0xabf0, 0xff10, 0x104a0, 0x10d30, 0x11066,
   0x110f0, 0x11136, 0x111d0, 0x112f0, 0x11450, 0x114d0, 0x11650, 0x116c0, 0x11730, 0x118e0, 0x11950,
   0x11c50, 0x11d50, 0x11da0, 0x16a60, 0x16ac0, 0x16b50, 0x1d7ce, 0x1d7d8, 0x1d7e2, 0x1d7ec, 0x1d7f6,
   0x1e140, 0x1e2f0, 0x1e950, 0x1fbf0]

/-- First and last code points of the runs of digits that have no place value. -/
def figures : List (Nat × Nat) := [
  (0xb2, 0xb3), (0xb9, 0xb9), (0x1369, 0x1371), (0x19da, 0x19da), (0x2070, 0x2070), (0x2074, 0x2079),
   (0x2080, 0x2089), (0x2460, 0x2468), (0x2474, 0x247c), (0x2488, 0x2490), (0x24ea, 0x24ea),
   (0x24f5, 0x24fd), (0x24ff, 0x24ff), (0x2776, 0x277e), (0x2780, 0x2788), (0x278a, 0x2792),
   (0x10a40, 0x10a43), (0x10e60, 0x10e68), (0x11052, 0x1105a), (0x1f100, 0x1f10a)]

end Digit

def CodePoint.decimal? (c : CodePoint) : Option Nat :=
  (Digit.zeros.find? fun first => first ≤ c.val && c.val < first + 10).map fun first => c.val - first

def CodePoint.isFigure (c : CodePoint) : Bool :=
  c.decimal?.isSome || Digit.figures.any fun run => run.1 ≤ c.val && c.val ≤ run.2

namespace Numeral

def ofDecimals? (t : Text) : Option Nat :=
  t.foldl (fun n c => do return 10 * (← n) + (← c.decimal?)) (some 0)

end Numeral

end GuardedExpr
