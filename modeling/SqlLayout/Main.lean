import SqlLayout.CommandLine

/-! The program. It takes a picture of the part of the disk that a command is about, carries the
command out on the picture, and writes back the files that have changed. -/

open SqlLayout

namespace SqlLayout.Program
set_option autoImplicit false

partial def readAll (stream : IO.FS.Stream) (read : ByteArray) : IO ByteArray := do
  let block ← stream.read 65536
  if block.isEmpty then return read else readAll stream (read ++ block)

def spellPlace (place : List String) : String := "/" ++ "/".intercalate place

/-- A file with its bytes if they can matter, or a directory with all that is below it. -/
partial def picture (name path : String) : IO (Option FileTree) := do
  let info ← try some <$> (← IO.FS.realPath path).metadata catch _ => pure none
  match info with
  | none => return none
  | some info =>
    if info.type == IO.FS.FileType.dir then
      let mut entries := []
      for entry in ← (← IO.FS.realPath path).readDir do
        if let some t ← picture entry.fileName (path ++ "/" ++ entry.fileName) then
          entries := (entry.fileName, t) :: entries
      return some (.dir entries)
    else if Path.isSqlName name || name = Config.fileName then
      return some (.file (← IO.FS.readBinFile path))
    else return some (.file ByteArray.empty)

def dirExists (place : List String) : IO Bool := do
  try return ← (← IO.FS.realPath (spellPlace place)).isDir catch _ => return false

/-- Take the directories on the way to a path into the picture, and what the path leads to. -/
def takeIn (deep : Bool) (disk : Disk) (cs : List Component) : IO Disk := do
  let mut root := disk.root
  let mut backwards := disk.cwd.reverse
  let mut last := ""
  for c in cs do
    if ← dirExists backwards.reverse then root := root.makeDir backwards.reverse
    match c with
    | .root => backwards := []
    | .current => pure ()
    | .parent => backwards := backwards.tail
    | .name n =>
      backwards := n :: backwards
      last := n
  let place := backwards.reverse
  if !deep && (← dirExists place) then return { disk with root := root.makeDir place }
  match ← picture last (spellPlace place) with
  | some t => return { disk with root := root.put place t }
  | none => return { disk with root }

/-- The picture that a request needs: the configuration files that may count, and the inputs. -/
def diskFor (r : CommandLine.Request) : IO Disk := do
  let here := (Path.mk (toString (← IO.currentDir))).components.filterMap fun
    | .name n => some n
    | _ => none
  let mut disk : Disk := { root := FileTree.empty.makeDir here, cwd := here }
  let inputs := r.inputs.map Path.mk
  if !CommandLine.readsInput r then
    for p in inputs do disk ← takeIn true disk p.components
  match r.config with
  | some text =>
    let p := Path.mk text
    disk ← takeIn false disk p.components
    if let some place := disk.resolve? p then
      if !disk.isDirAt place then
        disk := { disk with root := disk.root.put place (.file (← IO.FS.readBinFile text)) }
  | none =>
    for dir in Config.searchDirs disk inputs do
      disk ← takeIn false disk (dir ++ [.name Config.fileName])
  return disk

def writeBack (old new : Disk) : IO Unit := do
  for (place, bytes) in new.root.files [] do
    match old.at? place with
    | some (.file before) =>
      if before.data ≠ bytes.data then IO.FS.writeBinFile (spellPlace place) bytes
    | _ => pure ()

end SqlLayout.Program

open SqlLayout.Program in
def main (args : List String) : IO UInt32 := do
  match CommandLine.parse args with
  | .error .version => IO.print CommandLine.versionText; return 0
  | .error .help => IO.print CommandLine.helpText; return 0
  | .error .usageError => IO.eprint CommandLine.usageText; return 2
  | .ok r =>
    let input ← if CommandLine.readsInput r then readAll (← IO.getStdin) ByteArray.empty
      else pure ByteArray.empty
    let disk ← diskFor r
    let outcome := CommandLine.execute disk input r
    writeBack disk outcome.disk
    IO.print outcome.stdout
    IO.eprint outcome.stderr
    return UInt32.ofNat outcome.code
