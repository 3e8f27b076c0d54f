/-! A tree of files and directories. A place in it is given by the names that lead there from the
top. -/

namespace SqlLayout
set_option autoImplicit false

inductive FileTree where
  | file (bytes : ByteArray)
  | dir (entries : List (String × FileTree))

namespace FileTree

def empty : FileTree := .dir []

def isDir : FileTree → Bool
  | .file _ => false
  | .dir _ => true

def at? : List String → FileTree → Option FileTree
  | [], t => some t
  | _ :: _, .file _ => none
  | n :: ns, .dir entries => (entries.lookup n).bind (at? ns)

def setEntry (name : String) (t : FileTree) : List (String × FileTree) → List (String × FileTree)
  | [] => [(name, t)]
  | (n, u) :: rest => if n = name then (n, t) :: rest else (n, u) :: setEntry name t rest

/-- Put something at a place. Directories on the way are made when they are missing. -/
def put : FileTree → List String → FileTree → FileTree
  | _, [], new => new
  | .file _, n :: ns, new => .dir [(n, put empty ns new)]
  | .dir entries, n :: ns, new =>
    .dir (setEntry n (put ((entries.lookup n).getD empty) ns new) entries)

def makeDir (t : FileTree) (place : List String) : FileTree :=
  if (t.at? place).isSome then t else t.put place empty

mutual

def files (place : List String) : FileTree → List (List String × ByteArray)
  | .file bytes => [(place, bytes)]
  | .dir entries => filesOf place entries

def filesOf (place : List String) : List (String × FileTree) → List (List String × ByteArray)
  | [] => []
  | (n, t) :: rest => files (place ++ [n]) t ++ filesOf place rest

end

end FileTree
end SqlLayout
