import SqlLayout.Disk
import SqlLayout.Failure
import SqlLayout.Mode
import SqlLayout.Text.Utf8
import SqlLayout.Toml.Document

/-! The configuration file: where it is looked for, and what it may say. The nearest file wins: for
each input the directories are searched from the inside outward. -/

namespace SqlLayout.Config
set_option autoImplicit false

def fileName : String := "sqlfmt.toml"

def knownKeys : List String :=
  ["distance", "comma_style", "lower_cased", "colorized", "dialects", "registry", "exclude"]

/-- The directory where the search for an input starts: the input itself when it is a directory, else
the directory that its spelling names, or the current one. -/
def startDir (disk : Disk) (input : Path) : List Component :=
  if (disk.find? input).any FileTree.isDir then input.components
  else match input.components.reverse with
    | [] | [_] | .root :: _ => [.current]
    | _ :: up => up.reverse

/-- The directories that are searched, in order, each once. -/
def searchDirs (disk : Disk) (inputs : List Path) : List (List Component) :=
  (inputs.flatMap fun input => Path.ancestors (startDir disk input)).foldl
    (fun dirs dir => if dirs.contains dir then dirs else dirs ++ [dir]) []

def find? (disk : Disk) (inputs : List Path) : Option (List String) :=
  (searchDirs disk inputs).findSome? fun dir => disk.locate? (dir ++ [.name fileName])

def invalid {α : Type} (key expected : String) : Except Failure α :=
  .error (.config (.invalidValue key expected))

def strings (key : String) (v : Toml.Value) : Except Failure (List String) :=
  match v.array?.bind fun items => items.mapM Toml.Value.string? with
  | some ss => .ok ss
  | none => invalid key "an array of strings"

def boolean (key : String) (v : Toml.Value) : Except Failure Bool :=
  match v.boolean? with
  | some b => .ok b
  | none => invalid key "a boolean"

def isEmptyValue : Toml.Value → Bool
  | .array items => items.isEmpty
  | .table fields => fields.isEmpty
  | _ => false

def commaStyleName? : String → Option CommaStyle
  | "left" => some .left
  | "right" => some .right
  | _ => none

/-- A comma style by its name; the name may also be the one key of a table, with nothing in it. -/
def commaStyle? : Toml.Value → Option CommaStyle
  | .string s => commaStyleName? s
  | .table [(key, v)] => if isEmptyValue v then commaStyleName? key else none
  | _ => none

def texts? (v : Toml.Value) : Option (List String) :=
  v.array?.bind fun items => items.mapM Toml.Value.text?

def setField (r : Registry) (field : String × Toml.Value) : Option Registry :=
  match field with
  | ("name", v) => v.text?.map fun s => { r with name := s }
  | ("operators", v) => (texts? v).map fun ss => { r with operators := ss }
  | ("types", v) => (texts? v).map fun ss => { r with types := ss }
  | ("functions", v) => (texts? v).map fun ss => { r with functions := ss }
  | ("reserved_values", v) => (texts? v).map fun ss => { r with reservedValues := ss }
  | ("literal_prefixes", v) => (texts? v).map fun ss => { r with literalPrefixes := ss }
  | _ => none

def registryFields : List String :=
  ["name", "operators", "types", "functions", "reserved_values", "literal_prefixes"]

/-- A registry from a table of its fields, or from a list of them in order. -/
def registry? : Toml.Value → Option Registry
  | .table fields => fields.foldlM setField {}
  | .array items =>
    if registryFields.length < items.length then none
    else (registryFields.zip items).foldlM setField {}
  | _ => none

def registries (v : Toml.Value) : Except Failure (List Registry) :=
  match v.array?.bind fun items => items.mapM registry? with
  | some rs => .ok rs
  | none => .error (.config .invalidRegistry)

def namedRegistry (name : String) : Except Failure Registry :=
  match Registry.ofName? name with
  | some r => .ok r
  | none => .error (.config (.unknownDialect name))

def withKey (fields : List (String × Toml.Value)) (key : String)
    (use : Toml.Value → Mode → Except Failure Mode) (m : Mode) : Except Failure Mode :=
  match fields.lookup key with
  | some v => use v m
  | none => .ok m

def ofFields (fields : List (String × Toml.Value)) : Except Failure Mode := do
  match ((fields.map (·.1)).filter (!knownKeys.contains ·)).mergeSort (· ≤ ·) with
  | key :: _ => .error (.config (.unknownOption key))
  | [] =>
    let m : Mode := {}
    let m ← withKey fields "distance" (fun v m =>
      match v.integer? with
      | some (.ofNat n) => .ok { m with options.distance := n }
      | _ => invalid "distance" "a non-negative integer") m
    let m ← withKey fields "comma_style" (fun v m =>
      match commaStyle? v with
      | some style => .ok { m with options.commaStyle := style }
      | none => invalid "comma_style" "\"left\" or \"right\"") m
    let m ← withKey fields "lower_cased" (fun v m => do
      return { m with options.lowerCased := ← boolean "lower_cased" v }) m
    let m ← withKey fields "colorized" (fun v m => do
      return { m with options.colorized := ← boolean "colorized" v }) m
    let m ← withKey fields "dialects" (fun v m => do
      let rs ← (← strings "dialects" v).mapM namedRegistry
      return { m with options.dialects := rs }) m
    let m ← withKey fields "registry" (fun v m => do
      return { m with options.dialects := m.options.dialects ++ (← registries v) }) m
    withKey fields "exclude" (fun v m => do
      return { m with exclude := ← strings "exclude" v }) m

def ofFile (file : FileTree) : Except Failure Mode :=
  match file with
  | .dir _ => .error (.io "Is a directory")
  | .file bytes =>
    match Text.decode bytes with
    | .error _ => .error (.io "stream did not contain valid UTF-8")
    | .ok text =>
      match Toml.parse? text with
      | none => .error (.toml "not a TOML document")
      | some fields => ofFields fields

/-- The mode for a list of inputs: that of the given file, or of the file that is found for the
inputs, or else the plain one. -/
def load (disk : Disk) (inputs : List Path) (given : Option Path) : Except Failure Mode :=
  match given with
  | some path =>
    match disk.find? path with
    | some file => ofFile file
    | none => .error (.config (.fileNotFound path.spelling))
  | none =>
    match (find? disk inputs).bind fun place => disk.at? place with
    | some file => ofFile file
    | none => .ok {}

end SqlLayout.Config
