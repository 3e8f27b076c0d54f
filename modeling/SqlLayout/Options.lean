import SqlLayout.Dialect

/-! Options: how a text is laid out. -/

namespace SqlLayout
set_option autoImplicit false

/-- Where the comma stands when a list of columns is split over lines: before a column or behind
one. -/
inductive CommaStyle where
  | left | right
deriving DecidableEq, Repr

structure Options where
  /-- How many spaces are put before every line that is not empty. -/
  distance : Nat := 0
  commaStyle : CommaStyle := .left
  /-- Print keywords, functions and types in lower case. -/
  lowerCased : Bool := false
  colorized : Bool := false
  dialects : List Registry := []
deriving DecidableEq, Repr

def Options.dialect (o : Options) : Dialect := Dialect.ofRegistries o.dialects

end SqlLayout
