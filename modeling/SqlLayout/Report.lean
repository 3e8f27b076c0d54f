import SqlLayout.Failure
import SqlLayout.Path

/-! The report of a run: what became of each file. -/

namespace SqlLayout
set_option autoImplicit false

/-- What became of a file. Without writing, a file counts as changed when it would change. -/
inductive FileStatus where
  | unchanged | changed
  | failed (error : Failure)
deriving DecidableEq, Repr

namespace FileStatus

def isUnchanged : FileStatus → Bool
  | .unchanged => true
  | _ => false

def isChanged : FileStatus → Bool
  | .changed => true
  | _ => false

def isFailed : FileStatus → Bool
  | .failed _ => true
  | _ => false

def error? : FileStatus → Option Failure
  | .failed e => some e
  | _ => none

end FileStatus

structure FileResult where
  path : Path
  status : FileStatus
deriving DecidableEq, Repr

structure Report where
  results : List FileResult := []
deriving DecidableEq, Repr

namespace Report

def add (r : Report) (result : FileResult) : Report := ⟨r.results ++ [result]⟩

def total (r : Report) : Nat := r.results.length

def unchanged (r : Report) : Nat := r.results.countP (·.status.isUnchanged)

def changed (r : Report) : Nat := r.results.countP (·.status.isChanged)

def errors (r : Report) : Nat := r.results.countP (·.status.isFailed)

def hasErrors (r : Report) : Bool := 0 < r.errors

def hasChanges (r : Report) : Bool := 0 < r.changed

def changedPaths (r : Report) : List Path :=
  (r.results.filter (·.status.isChanged)).map (·.path)

def summary (r : Report) : String :=
  let part (n : Nat) (what : String) := if n = 0 then [] else [Nat.repr n ++ what]
  ", ".intercalate ([Nat.repr r.total ++ " file(s) processed"] ++ part r.changed " reformatted" ++
    part r.unchanged " unchanged" ++ part r.errors " error(s)")

def errorLines (r : Report) : List String :=
  r.results.filterMap fun result => result.status.error?.map fun e =>
    "error: " ++ result.path.spelling ++ ": " ++ e.message

end Report
end SqlLayout
