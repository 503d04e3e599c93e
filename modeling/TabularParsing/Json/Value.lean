/-!
# JSON values

Objects keep their fields in the order of the text, repeated keys included. A number is kept as it
is spelled; what value it has is for its reader to decide. A string whose escapes name an unpaired
surrogate has no text.
-/
namespace TabularParsing

inductive Json where
  | null
  | bool (b : Bool)
  | number (literal : List Char)
  | string (text : Option String)
  | array (items : List Json)
  | object (fields : List (Option String × Json))

namespace Json

/-- The text of a string value. -/
def text? : Json → Option String
  | string s => s
  | _ => none

def items? : Json → Option (List Json)
  | array items => some items
  | _ => none

/-- The fields of an object whose keys all have a text. -/
def fields? : Json → Option (List (String × Json))
  | object fields => fields.mapM fun f => f.1.map fun k => (k, f.2)
  | _ => none

end Json

end TabularParsing
