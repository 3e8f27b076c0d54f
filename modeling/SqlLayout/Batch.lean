import SqlLayout.Discovery
import SqlLayout.Format
import SqlLayout.LineDiff
import SqlLayout.Mode
import SqlLayout.Report

/-! A run over files. What becomes of a file depends on its bytes and on the mode alone; a file is
read once, and written at most once. -/

namespace SqlLayout
set_option autoImplicit false

namespace Batch

/-- What becomes of a file: its status, and its new text when that differs. -/
structure Verdict where
  status : FileStatus
  formatted : Option String := none
deriving DecidableEq, Repr

def judge (o : Options) (bytes : ByteArray) : Verdict :=
  match formatDocument o bytes with
  | .error e => { status := .failed e }
  | .ok text =>
    if bytes.data = text.toUTF8.data then { status := .unchanged }
    else { status := .changed, formatted := some text }

structure Run where
  disk : Disk
  report : Report := {}
  diffs : String := ""

def diffText (p : Path) (bytes : ByteArray) (formatted : String) : String :=
  match Text.decode bytes with
  | .ok source => LineDiff.unified p.spelling source formatted
  | .error _ => ""

def treat (m : Mode) (run : Run) (p : Path) : Run :=
  match run.disk.read? p with
  | none => { run with report := run.report.add ⟨p, .failed (.io "No such file or directory")⟩ }
  | some bytes =>
    let verdict := judge m.options bytes
    let report := run.report.add ⟨p, verdict.status⟩
    match verdict.formatted with
    | none => { run with report }
    | some text =>
      if m.writesFiles then { run with disk := run.disk.write p text.toUTF8, report }
      else if m.diff then { run with report, diffs := run.diffs ++ diffText p bytes text }
      else { run with report }

end Batch

def runBatch (m : Mode) (disk : Disk) (inputs : List Path) : Batch.Run :=
  (Discovery.sqlFiles disk m.exclude inputs).foldl (Batch.treat m) { disk }

end SqlLayout
