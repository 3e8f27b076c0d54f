import SqlLayout.Options

/-! The mode of a run: how files are formatted, and what is done with the results. -/

namespace SqlLayout
set_option autoImplicit false

structure Mode where
  options : Options := {}
  /-- Report what would change, and fail if anything would. -/
  check : Bool := false
  diff : Bool := false
  list : Bool := false
  /-- Patterns of names to pass over in directories. -/
  exclude : List String := []
  verbose : Bool := false
  quiet : Bool := false
deriving DecidableEq, Repr

def Mode.writesFiles (m : Mode) : Bool := !m.check && !m.diff && !m.list

end SqlLayout
