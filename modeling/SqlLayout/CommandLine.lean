import SqlLayout.Batch
import SqlLayout.Config

/-! The command line: its arguments, and what a command does to a disk and prints. -/

namespace SqlLayout.CommandLine
set_option autoImplicit false

structure Request where
  inputs : List String := []
  check : Bool := false
  diff : Bool := false
  list : Bool := false
  distance : Option Nat := none
  commaStyle : Option CommaStyle := none
  lower : Bool := false
  color : Bool := false
  dialects : List String := []
  exclude : List String := []
  verbose : Bool := false
  quiet : Bool := false
  threads : Option Nat := none
  singleProcess : Bool := false
  config : Option String := none
deriving DecidableEq, Repr

inductive Stop where
  | usageError
  | help
  | version
deriving DecidableEq, Repr

inductive Switch where
  | check | diff | list | lower | color | verbose | quiet | singleProcess | help | version
deriving DecidableEq, Repr

inductive Setting where
  | distance | commaStyle | dialect | exclude | threads | config
deriving DecidableEq, Repr

inductive Flag where
  | switch (s : Switch)
  | setting (s : Setting)
deriving DecidableEq, Repr

def longFlags : List (String × Flag) := [
  ("check", .switch .check), ("diff", .switch .diff), ("list", .switch .list),
  ("distance", .setting .distance), ("comma-style", .setting .commaStyle),
  ("lower", .switch .lower), ("color", .switch .color), ("dialect", .setting .dialect),
  ("exclude", .setting .exclude), ("verbose", .switch .verbose), ("quiet", .switch .quiet),
  ("threads", .setting .threads), ("single-process", .switch .singleProcess),
  ("config", .setting .config), ("help", .switch .help), ("version", .switch .version)]

def shortFlags : List (Char × Flag) := [
  ('l', .switch .list), ('d', .setting .dialect), ('v', .switch .verbose),
  ('q', .switch .quiet), ('t', .setting .threads), ('h', .switch .help),
  ('V', .switch .version)]

/-- A number that fits in 64 bits; a plus sign may stand before it. -/
def number? (text : String) : Option Nat :=
  let digits := match text.toList with
    | '+' :: ds => ds
    | ds => ds
  if digits.isEmpty || !digits.all Char.isDigit then none
  else
    let n := digits.foldl (fun n c => n * 10 + (c.toNat - '0'.toNat)) 0
    if n ≤ 18446744073709551615 then some n else none

def turnOn (isOn : Bool) (r : Request) : Except Stop Request :=
  if isOn then .error .usageError else .ok r

def applySwitch (r : Request) : Switch → Except Stop Request
  | .check => turnOn r.check { r with check := true }
  | .diff => turnOn r.diff { r with diff := true }
  | .list => turnOn r.list { r with list := true }
  | .lower => turnOn r.lower { r with lower := true }
  | .color => turnOn r.color { r with color := true }
  | .verbose => turnOn r.verbose { r with verbose := true }
  | .quiet => turnOn r.quiet { r with quiet := true }
  | .singleProcess => turnOn r.singleProcess { r with singleProcess := true }
  | .help => .error .help
  | .version => .error .version

def setOnce {α : Type} (old new : Option α) (use : α → Request) : Except Stop Request :=
  match old, new with
  | none, some a => .ok (use a)
  | _, _ => .error .usageError

def nonEmpty? (text : String) : Option String := if text = "" then none else some text

def applySetting (r : Request) (value : String) : Setting → Except Stop Request
  | .distance => setOnce r.distance (number? value) fun n => { r with distance := some n }
  | .commaStyle =>
    setOnce r.commaStyle (Config.commaStyleName? value) fun s => { r with commaStyle := some s }
  | .threads => setOnce r.threads (number? value) fun n => { r with threads := some n }
  | .config => setOnce r.config (nonEmpty? value) fun p => { r with config := some p }
  | .dialect => .ok { r with dialects := r.dialects ++ [value] }
  | .exclude => .ok { r with exclude := r.exclude ++ [value] }

def addInput (r : Request) (text : String) : Except Stop Request :=
  if text = "" then .error .usageError else .ok { r with inputs := r.inputs ++ [text] }

/-- Read a cluster of short options. Gives the option that still waits for its value. -/
def applyCluster (r : Request) : List Char → Except Stop (Request × Option Setting)
  | [] => .ok (r, none)
  | c :: cs =>
    match shortFlags.lookup c with
    | none => .error .usageError
    | some (.switch s) => do applyCluster (← applySwitch r s) cs
    | some (.setting s) =>
      match cs with
      | [] => .ok (r, some s)
      | '=' :: value => do return (← applySetting r (String.ofList value) s, none)
      | value => do return (← applySetting r (String.ofList value) s, none)

def applyLong (r : Request) (text : List Char) : Except Stop (Request × Option Setting) :=
  let (name, value) := text.span (· ≠ '=')
  match longFlags.lookup (String.ofList name), value with
  | some (.switch s), [] => do return (← applySwitch r s, none)
  | some (.setting s), [] => .ok (r, some s)
  | some (.setting s), _ :: value => do return (← applySetting r (String.ofList value) s, none)
  | _, _ => .error .usageError

/-- Read the arguments. `waiting` is the option whose value comes next; a value does not begin with
a dash, unless it is nothing else. -/
def parseFrom (r : Request) (waiting : Option Setting) : List String → Except Stop Request
  | [] => if waiting.isSome then .error .usageError else .ok r
  | arg :: args =>
    match arg.toList, waiting with
    | ['-', '-'], none => args.foldlM addInput r
    | '-' :: '-' :: text, none => do
      let (r, waiting) ← applyLong r text
      parseFrom r waiting args
    | '-' :: c :: cs, none => do
      let (r, waiting) ← applyCluster r (c :: cs)
      parseFrom r waiting args
    | '-' :: _ :: _, some _ => .error .usageError
    | _, some s => do parseFrom (← applySetting r arg s) none args
    | _, none => do parseFrom (← addInput r arg) none args

def parse (args : List String) : Except Stop Request := do
  let r ← parseFrom {} none args
  if r.inputs.isEmpty then .error .usageError else .ok r

inductive Fatal where
  | configuration (e : Failure)
  | plain (e : Failure)
deriving DecidableEq, Repr

def Fatal.message : Fatal → String
  | .configuration e => "Error: loading configuration: " ++ e.message
  | .plain e => "Error: " ++ e.message

/-- The mode of a command: the configuration, with the arguments on top of it. -/
def mode (disk : Disk) (r : Request) : Except Fatal Mode := do
  let m ← (Config.load disk (r.inputs.map Path.mk) (r.config.map Path.mk)).mapError .configuration
  let named ← (r.dialects.mapM Config.namedRegistry).mapError .plain
  return {
    options := {
      distance := r.distance.getD m.options.distance
      commaStyle := r.commaStyle.getD m.options.commaStyle
      lowerCased := m.options.lowerCased || r.lower
      colorized := m.options.colorized || r.color
      dialects := m.options.dialects ++ named }
    exclude := if r.exclude.isEmpty then m.exclude else r.exclude
    check := r.check
    diff := r.diff
    list := r.list
    verbose := r.verbose
    quiet := r.quiet }

structure Outcome where
  code : Nat
  stdout : String := ""
  stderr : String := ""
  disk : Disk

def unlines (ls : List String) : String := String.join (ls.map (· ++ "\n"))

/-- The code that a run ends with: two when something failed, else one when a check finds files that
would change. -/
def exitCode (m : Mode) (report : Report) : Nat :=
  if report.hasErrors then 2 else if m.check && report.hasChanges then 1 else 0

def verboseLines (m : Mode) (report : Report) : List String :=
  let verb := if m.writesFiles then "reformatted " else "would reformat "
  if m.verbose then report.changedPaths.map (verb ++ ·.spelling) else []

def formatFiles (m : Mode) (disk : Disk) (inputs : List Path) : Outcome :=
  let run := runBatch m disk inputs
  let told := if m.quiet then [] else verboseLines m run.report ++ [run.report.summary]
  { code := exitCode m run.report
    stdout := if m.list then unlines (run.report.changedPaths.map (·.spelling)) else ""
    stderr := run.diffs ++ unlines (told ++ run.report.errorLines)
    disk := run.disk }

def formatInput (m : Mode) (disk : Disk) (input : ByteArray) : Outcome :=
  match formatDocument m.options input with
  | .ok text => { code := 0, stdout := text, disk }
  | .error e => { code := 2, stderr := unlines [(Fatal.plain e).message], disk }

def readsInput (r : Request) : Bool := r.inputs = ["-"]

def execute (disk : Disk) (input : ByteArray) (r : Request) : Outcome :=
  match mode disk r with
  | .error e => { code := 2, stderr := unlines [e.message], disk }
  | .ok m =>
    if readsInput r then formatInput m disk input
    else formatFiles m disk (r.inputs.map Path.mk)

def versionText : String := "sqlfmt 0.1.0\n"

def usageText : String := "Usage: sqlfmt [OPTIONS] <FILES>...\n"

def helpText : String := unlines [
  "A clause-group SQL pretty-printer: reindents SQL without changing its content",
  "",
  "Usage: sqlfmt [OPTIONS] <FILES>...",
  "",
  "Arguments:",
  "  <FILES>...  Files or directories to format. Use \"-\" to read from stdin",
  "",
  "Options:",
  "      --check                      Check formatting without writing changes",
  "      --diff                       Show formatting diff",
  "  -l, --list                       Print the paths of files that would be reformatted",
  "      --distance <DISTANCE>        Left-pad every formatted line by this many spaces",
  "      --comma-style <COMMA_STYLE>  Where commas go in column lists: left, right",
  "      --lower                      Emit keywords, types and functions in lower case",
  "      --color                      Colorize the output by kind of token",
  "  -d, --dialect <DIALECTS>         Extra vocabulary: postgresql, postgis",
  "      --exclude <EXCLUDE>          Glob patterns to exclude",
  "  -v, --verbose                    Verbose output",
  "  -q, --quiet                      Quiet output (errors only)",
  "  -t, --threads <THREADS>          Number of threads (0 = all cores)",
  "      --single-process             Disable multi-threaded processing",
  "      --config <CONFIG>            Path to a sqlfmt.toml config file",
  "  -h, --help                       Print help",
  "  -V, --version                    Print version"]

end SqlLayout.CommandLine
