import GuardedExpr.Text.Numeral
import GuardedExpr.Text.Printable

/-!
Quoted text, as it appears in messages, listings and trees: between single quotes, or between double
quotes when it holds single quotes only, with every character outside the printable ones escaped.
-/

namespace GuardedExpr.Text

def chosenQuote (t : Text) : CodePoint :=
  if t.contains (CodePoint.ofChar '\x27') && !t.contains (CodePoint.ofChar '"') then
    CodePoint.ofChar '"'
  else
    CodePoint.ofChar '\x27'

/-- The shortest of the three numbered escapes that fits: two, four or eight hexadecimal digits. -/
def numberedEscape (c : CodePoint) : Text :=
  if c.val < 0x100 then Text.of "\\x" ++ Numeral.hexadecimal 2 c.val
  else if c.val < 0x10000 then Text.of "\\u" ++ Numeral.hexadecimal 4 c.val
  else Text.of "\\U" ++ Numeral.hexadecimal 8 c.val

def quotedPoint (quote c : CodePoint) : Text :=
  if c = quote || c = '\\' then [CodePoint.ofChar '\\', c]
  else if c = '\n' then Text.of "\\n"
  else if c = '\r' then Text.of "\\r"
  else if c = '\t' then Text.of "\\t"
  else if c.isPrintable then [c]
  else numberedEscape c

def quoted (t : Text) : Text :=
  let quote := chosenQuote t
  quote :: t.flatMap (quotedPoint quote) ++ [quote]

end GuardedExpr.Text
