import SqlLayout.Disk
import SqlLayout.Glob

/-! Discovery of files: the SQL files among the inputs and below the directories among them. In a
directory, hidden names and excluded names are passed over with all that is below them; what is
named as an input is never excluded. -/

namespace SqlLayout.Discovery
set_option autoImplicit false

def isSkipped (exclude : List String) (name : String) : Bool :=
  name.toList.head? = some '.' || exclude.any (Glob.isMatch · name)

mutual

def walk (exclude : List String) (dir : Path) : List (String × FileTree) → List Path
  | [] => []
  | (name, t) :: rest =>
    (if isSkipped exclude name then [] else visit exclude (dir.join name) name t) ++
      walk exclude dir rest

def visit (exclude : List String) (path : Path) (name : String) : FileTree → List Path
  | .file _ => if Path.isSqlName name then [path] else []
  | .dir entries => walk exclude path entries

end

/-- Insert a path into a list in order. A path that is there, in whatever spelling, stays. -/
def insert (p : Path) : List Path → List Path
  | [] => [p]
  | q :: qs =>
    match p.compare q with
    | .lt => p :: q :: qs
    | .eq => q :: qs
    | .gt => q :: insert p qs

def ofInput (disk : Disk) (exclude : List String) (input : Path) : List Path :=
  match disk.find? input with
  | some (.file _) => if input.fileName?.any Path.isSqlName then [input] else []
  | some (.dir entries) => walk exclude input entries
  | none => []

/-- The SQL files that a list of inputs stands for, in order and each once. -/
def sqlFiles (disk : Disk) (exclude : List String) (inputs : List Path) : List Path :=
  (inputs.flatMap (ofInput disk exclude)).foldl (fun found p => insert p found) []

end SqlLayout.Discovery
