import GuardedExpr.Double.Shortest

/-!
JSON documents, with whole numbers of any size and with the three numbers that are not finite. Written,
they have a blank behind each comma and colon, and escapes only where JSON demands them.
-/

namespace GuardedExpr

inductive Json where
  | null
  | bool (b : Bool)
  | int (n : Int)
  | float (x : Double)
  | string (t : Text)
  | array (items : List Json)
  | object (members : List (Text × Json))

instance : Inhabited Json := ⟨.null⟩

namespace Json

def escapedPoint (c : CodePoint) : Text :=
  if c = '"' then Text.of "\\\""
  else if c = '\\' then Text.of "\\\\"
  else if c = '\n' then Text.of "\\n"
  else if c = '\r' then Text.of "\\r"
  else if c = '\t' then Text.of "\\t"
  else if c.val = 0x0C then Text.of "\\f"
  else if c.val = 0x08 then Text.of "\\b"
  else if c.val < 0x20 then Text.of "\\u" ++ Numeral.hexadecimal 4 c.val
  else [c]

def stringText (t : Text) : Text :=
  Text.of "\"" ++ t.flatMap escapedPoint ++ Text.of "\""

def floatText : Double → Text
  | .nan _ => Text.of "NaN"
  | .infinite false => Text.of "Infinity"
  | .infinite true => Text.of "-Infinity"
  | x => x.text

mutual

def render : Json → Text
  | .null => Text.of "null"
  | .bool true => Text.of "true"
  | .bool false => Text.of "false"
  | .int n => Numeral.signed n
  | .float x => floatText x
  | .string t => stringText t
  | .array items => Text.of "[" ++ Text.join (Text.of ", ") (renderItems items) ++ Text.of "]"
  | .object members =>
    Text.of "\x7b" ++ Text.join (Text.of ", ") (renderMembers members) ++ Text.of "\x7d"

def renderItems : List Json → List Text
  | [] => []
  | item :: items => item.render :: renderItems items

def renderMembers : List (Text × Json) → List Text
  | [] => []
  | (name, value) :: members =>
    (stringText name ++ Text.of ": " ++ value.render) :: renderMembers members

end

end Json

end GuardedExpr
