/-! Registries: named bundles of vocabulary that a dialect is made of. -/

namespace SqlLayout
set_option autoImplicit false

/-- A named bundle of vocabulary. Words match in any case; a function keeps the spelling that it
has here. -/
structure Registry where
  name : String := ""
  operators : List String := []
  types : List String := []
  functions : List String := []
  reservedValues : List String := []
  literalPrefixes : List String := []
deriving DecidableEq, Repr

end SqlLayout
