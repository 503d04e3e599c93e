import TabularParsing.Decimal.Style
import TabularParsing.Json.Value
import TabularParsing.Text.Quoted

/-!
# Writing JSON

One item or field a line, indented by two for each level.
-/
namespace TabularParsing.Json

/-- Numbers in documents: whole numbers show `.0`, powers of ten are used below `1e-5` and from
`1e16` on and show their sign. -/
def numberStyle : Decimal.Style := ⟨.toEven, fun e => -5 ≤ e && e < 16, true, true⟩

/-- A double as a number; what is not finite is null. -/
def ofFloat (x : Float) : Json :=
  if x.isFinite then .number (numberStyle.render x).toList else .null

def ofText (s : String) : Json := .string (some s)

/-- A character as it stands between quotes. -/
def escape (c : Char) : List Char :=
  match c with
  | '"' => ['\\', '"']
  | '\\' => ['\\', '\\']
  | '\x08' => ['\\', 'b']
  | '\x0c' => ['\\', 'f']
  | '\n' => ['\\', 'n']
  | '\r' => ['\\', 'r']
  | '\t' => ['\\', 't']
  | c =>
    if c.toNat < 0x20 then
      ['\\', 'u', '0', '0'] ++ Text.hexDigits (c.toNat / 16) ++ Text.hexDigits (c.toNat % 16)
    else [c]

def quote (s : String) : List Char := '"' :: s.toList.flatMap escape ++ ['"']

/-- A new line at a level of nesting. -/
def freshLine (level : Nat) : List Char := '\n' :: List.replicate (2 * level) ' '

mutual

def printAt (level : Nat) : Json → List Char
  | null => "null".toList
  | bool true => "true".toList
  | bool false => "false".toList
  | number literal => literal
  | string s => quote (s.getD "")
  | array [] => "[]".toList
  | array (item :: items) =>
    '[' :: freshLine (level + 1) ++ printAt (level + 1) item ++ printItems (level + 1) items ++
      freshLine level ++ [']']
  | object [] => "\x7b\x7d".toList
  | object (field :: fields) =>
    '\x7b' :: freshLine (level + 1) ++ printField (level + 1) field ++
      printFields (level + 1) fields ++ freshLine level ++ ['\x7d']

/-- The items after the first. -/
def printItems (level : Nat) : List Json → List Char
  | [] => []
  | item :: items => ',' :: freshLine level ++ printAt level item ++ printItems level items

def printField (level : Nat) : Option String × Json → List Char
  | (key, value) => quote (key.getD "") ++ [':', ' '] ++ printAt level value

/-- The fields after the first. -/
def printFields (level : Nat) : List (Option String × Json) → List Char
  | [] => []
  | field :: fields => ',' :: freshLine level ++ printField level field ++ printFields level fields

end

def print (j : Json) : String := String.ofList (j.printAt 0)

end TabularParsing.Json
