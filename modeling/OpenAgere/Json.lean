import OpenAgere.Text

/-! # JSON values

The values of `serde_json`.  A number is kept as its text, and an object has its entries in the order in which they
are iterated. -/

namespace OpenAgere

inductive Json where
  | null
  | bool (value : Bool)
  | number (text : Str)
  | string (text : Str)
  | array (items : List Json)
  | object (entries : List (Str × Json))

namespace Json

def get (key : Str) : Json → Option Json
  | .object entries => entries.lookup key
  | _ => none

def asStr : Json → Option Str
  | .string text => some text
  | _ => none

def asArray : Json → Option (List Json)
  | .array items => some items
  | _ => none

/-- `insert` into an object. -/
def insert (key : Str) (value : Json) : Json → Json
  | .object entries => .object (entries.filter (fun entry => entry.1 ≠ key) ++ [(key, value)])
  | json => json

/-- The value with the entry changed, through `get_mut`. -/
def modify (key : Str) (f : Json → Json) : Json → Json
  | .object entries => .object (entries.map fun entry => if entry.1 = key then (entry.1, f entry.2) else entry)
  | json => json

def retain (keep : Json → Bool) : Json → Json
  | .array items => .array (items.filter keep)
  | json => json

end Json

end OpenAgere
