import GuardedExpr.Error
import GuardedExpr.Text.Blank

/-!
What the command line and the prompt share: settings that are switched on or off, and output.
-/

namespace GuardedExpr

structure Settings where
  /-- Whether input behind an expression is an error. -/
  strict : Bool
  /-- Whether failures announce a trace. -/
  tracing : Bool
  deriving DecidableEq

namespace Settings

def offWords : List Text :=
  ["", "0", "false", "no", "off"].map Text.of

def isOn (setting : Option Text) : Bool :=
  !offWords.contains (Text.trim (setting.getD [])).lower

def ofTexts (strict tracing : Option Text) : Settings :=
  ⟨isOn strict, isOn tracing⟩

end Settings

/-- Which code points the standard output can write. -/
structure Output where
  encodes : CodePoint → Bool
  ascii : ∀ c : CodePoint, c.val < 0x80 → encodes c

/-- Surrogates are no characters, and in UTF-8 there is nothing to write them with. -/
def Output.utf8 : Output where
  encodes c := !c.isSurrogate
  ascii c small := by
    simp only [CodePoint.isSurrogate, Bool.not_eq_true', Bool.and_eq_false_iff, decide_eq_false_iff_not]
    omega

/-- A text that the output can write; it refuses any other as a whole. -/
def Output.accept (output : Output) (text : Text) : Except Error Text :=
  if text.all output.encodes then .ok text else .error (.fault .unencodable)

inductive Effect where
  | out (t : Text)
  | err (t : Text)
  | clearScreen
  deriving DecidableEq

namespace Effect

def outLine (t : Text) : Effect := .out (t ++ Text.of "\n")

def errLine (t : Text) : Effect := .err (t ++ Text.of "\n")

def trace : Effect := .err (Text.of "\nPython traceback:\n")

/-- The report of an error. Its place is given where asked for and known. -/
def report (settings : Settings) (placed : Bool) (failure : Error) : List Effect :=
  let place := match failure.position? with
    | some position =>
      if placed then
        [errLine (Text.of "  at line " ++ Numeral.decimal position.line ++ Text.of ", col " ++
          Numeral.signed position.column)]
      else []
    | none => []
  [errLine (Text.of "Error: " ++ failure.message)] ++ place ++
    (if settings.tracing then [trace] else [])

end Effect

end GuardedExpr
