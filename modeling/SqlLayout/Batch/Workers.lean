import SqlLayout.Batch

/-! A run in which every file has a worker of its own. A worker takes two steps: it reads its file, and
it writes the new text when there is one to write. Between the two, other workers may take theirs. -/

namespace SqlLayout.Batch
set_option autoImplicit false

inductive Progress where
  | waiting
  /-- The file has been read, and its new text is still to be written. -/
  | holding (text : String)
  | finished (status : FileStatus)
deriving DecidableEq, Repr

def readFile (m : Mode) (disk : Disk) (p : Path) : Progress :=
  match disk.read? p with
  | none => .finished (.failed (.io "No such file or directory"))
  | some bytes =>
    let verdict := judge m.options bytes
    match verdict.formatted with
    | some text => if m.writesFiles then .holding text else .finished verdict.status
    | none => .finished verdict.status

structure Worker where
  path : Path
  progress : Progress := .waiting
deriving DecidableEq, Repr

namespace Worker

def act (m : Mode) (disk : Disk) (w : Worker) : Disk × Worker :=
  match w.progress with
  | .waiting => (disk, { w with progress := readFile m disk w.path })
  | .holding text => (disk.write w.path text.toUTF8, { w with progress := .finished .changed })
  | .finished _ => (disk, w)

def result? (w : Worker) : Option FileResult :=
  match w.progress with
  | .finished status => some ⟨w.path, status⟩
  | _ => none

end Worker

structure Crew where
  disk : Disk
  workers : List Worker

namespace Crew

def hire (disk : Disk) (files : List Path) : Crew := ⟨disk, files.map fun p => { path := p }⟩

def step (m : Mode) (c : Crew) (i : Nat) : Crew :=
  match c.workers[i]? with
  | none => c
  | some w => ⟨(w.act m c.disk).1, c.workers.set i (w.act m c.disk).2⟩

def run (m : Mode) (c : Crew) (schedule : List Nat) : Crew := schedule.foldl (step m) c

def isDone (c : Crew) : Bool := c.workers.all (·.result?.isSome)

/-- The results so far, in the order of the files. -/
def results (c : Crew) : List FileResult := c.workers.filterMap Worker.result?

end Crew
end SqlLayout.Batch
