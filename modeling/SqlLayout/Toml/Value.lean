/-! Values of TOML, the format of the configuration file. Numbers with a point and points in time are
kept as text: no option asks for their value. -/

namespace SqlLayout.Toml
set_option autoImplicit false

inductive Value where
  | string (s : String)
  | integer (n : Int)
  | float (text : String)
  | boolean (b : Bool)
  /-- A point in time, a date or a time of day, in its normal form. -/
  | moment (text : String)
  | array (items : List Value)
  | table (fields : List (String × Value))

namespace Value

def string? : Value → Option String
  | .string s => some s
  | _ => none

def integer? : Value → Option Int
  | .integer n => some n
  | _ => none

def boolean? : Value → Option Bool
  | .boolean b => some b
  | _ => none

def array? : Value → Option (List Value)
  | .array items => some items
  | _ => none

def text? : Value → Option String
  | .string s => some s
  | .moment s => some s
  | _ => none

end Value
end SqlLayout.Toml
