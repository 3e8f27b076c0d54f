/-! Facts about words that no dialect changes: the types of several words, and the values that are
not printed in plain upper case. -/

namespace SqlLayout.Vocabulary
set_option autoImplicit false

def compoundTypes : List (List String) := [
  ["TIMESTAMP", "WITHOUT", "TIME", "ZONE"],
  ["TIMESTAMP", "WITH", "TIME", "ZONE"],
  ["TIME", "WITHOUT", "TIME", "ZONE"],
  ["TIME", "WITH", "TIME", "ZONE"],
  ["DOUBLE", "PRECISION"],
  ["CHARACTER", "VARYING"],
  ["BIT", "VARYING"]]

/-- The spelling of a reserved value that is not plain upper case. -/
def canonicalReserved? (word : String) : Option String :=
  if word = "NAN" then some "NaN"
  else if word = "INFINITY" then some "Infinity"
  else if word = "-INFINITY" then some "-Infinity"
  else none

end SqlLayout.Vocabulary
