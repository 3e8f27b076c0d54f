import Mathlib.Data.List.Basic
import SqlLayout.Batch.Workers
import SqlLayout.Proofs.Batching

/-! Runs whose workers take their steps in any order. One of the orders is that of a run in turn. All
orders end alike exactly when the files of a run that are one and the same file, spelled in several
ways, are left as they are. In particular, over different files every run does what it reports. -/

namespace SqlLayout.Batch
set_option autoImplicit false

section Judge
variable {m : Mode} {bytes : ByteArray}

theorem judge_cases (o : Options) (bytes : ByteArray) :
    (∃ text, judge o bytes = { status := .changed, formatted := some text } ∧
      text.toUTF8 ≠ bytes) ∨
    ∃ status, judge o bytes = { status } ∧ status ≠ .changed := by
  cases hformat : formatDocument o bytes with
  | error e => exact Or.inr ⟨_, judge_error hformat, by simp⟩
  | ok text =>
    by_cases hsame : text.toUTF8 = bytes
    · exact Or.inr ⟨_, judge_same hformat hsame, by simp⟩
    · exact Or.inl ⟨text, judge_other hformat hsame, hsame⟩

theorem writesFiles_of_left_ne (h : left m bytes ≠ bytes) : m.writesFiles = true := by
  by_contra hwrites
  apply h
  unfold left
  split <;> simp [hwrites]

theorem left_ne_iff (hwrites : m.writesFiles = true) :
    left m bytes ≠ bytes ↔ (judge m.options bytes).status = .changed := by
  unfold left
  rcases judge_cases m.options bytes with ⟨text, hjudge, hother⟩ | ⟨status, hjudge, hstatus⟩
  · rw [hjudge]
    simpa only [hwrites, if_true, iff_true] using hother
  · simp [hjudge, hstatus]

end Judge

section Read
variable {m : Mode} {disk : Disk} {p : Path}

/-- A worker that has read its file is done with it, and leaves it as it is, or it holds what a run
leaves in the file. -/
theorem readFile_cases (m : Mode) (disk : Disk) (p : Path) :
    (readFile m disk p = .finished (result m disk p).status ∧
      ∀ bytes, disk.read? p = some bytes → left m bytes = bytes) ∨
    ∃ bytes text, disk.read? p = some bytes ∧ readFile m disk p = .holding text ∧
      text.toUTF8 = left m bytes ∧ left m bytes ≠ bytes ∧ (result m disk p).status = .changed := by
  unfold readFile result
  cases hread : disk.read? p with
  | none => exact Or.inl ⟨rfl, by simp⟩
  | some bytes =>
    rcases judge_cases m.options bytes with ⟨text, hjudge, hother⟩ | ⟨status, hjudge, -⟩
    · by_cases hwrites : m.writesFiles = true
      · have hleft : left m bytes = text.toUTF8 := by simp [left, hjudge, hwrites]
        exact Or.inr ⟨bytes, text, rfl, by simp [hjudge, hwrites], hleft.symm, hleft ▸ hother,
          by simp [hjudge]⟩
      · exact Or.inl (by simp [left, hjudge, hwrites])
    · exact Or.inl (by simp [left, hjudge])

theorem readFile_congr {disk' : Disk} (h : disk'.read? p = disk.read? p) :
    readFile m disk' p = readFile m disk p := by
  rw [readFile, h, readFile]

theorem treat_eq (m : Mode) (run : Run) (p : Path) :
    (treat m run p).report = run.report.add (result m run.disk p) ∧
      (treat m run p).disk =
        match readFile m run.disk p with
        | .holding text => run.disk.write p text.toUTF8
        | _ => run.disk := by
  cases hread : run.disk.read? p with
  | none => rw [treat_none hread]; simp [result, readFile, hread]
  | some bytes =>
    refine ⟨by rw [treat_report hread, result, hread], ?_⟩
    simp only [treat, readFile, hread]
    cases (judge m.options bytes).formatted with
    | none => rfl
    | some text =>
      by_cases hwrites : m.writesFiles = true
      · simp [hwrites]
      · simp only [if_neg hwrites]
        split <;> rfl

end Read

/-- The worker that has finished with a result. -/
def Worker.ofResult (r : FileResult) : Worker := ⟨r.path, .finished r.status⟩

theorem Worker.result?_eq_some {w : Worker} {r : FileResult} :
    w.result? = some r ↔ w = .ofResult r := by
  obtain ⟨path, progress⟩ := w
  obtain ⟨path', status⟩ := r
  cases progress <;> simp [result?, ofResult]

namespace Crew

section Step
variable {m : Mode} {c : Crew} {i k : Nat}

theorem run_append (m : Mode) (c : Crew) (s t : List Nat) :
    c.run m (s ++ t) = (c.run m s).run m t :=
  List.foldl_append

theorem run_cons (m : Mode) (c : Crew) (i : Nat) (s : List Nat) :
    c.run m (i :: s) = (c.step m i).run m s :=
  rfl

theorem step_none (h : c.workers[i]? = none) : c.step m i = c := by
  rw [step, h]

theorem step_waiting {p : Path} (h : c.workers[i]? = some { path := p }) :
    c.step m i = ⟨c.disk, c.workers.set i ⟨p, readFile m c.disk p⟩⟩ := by
  rw [step, h]
  rfl

theorem step_holding {p : Path} {text : String} (h : c.workers[i]? = some ⟨p, .holding text⟩) :
    c.step m i = ⟨c.disk.write p text.toUTF8, c.workers.set i ⟨p, .finished .changed⟩⟩ := by
  rw [step, h]
  rfl

theorem step_finished {p : Path} {status : FileStatus}
    (h : c.workers[i]? = some ⟨p, .finished status⟩) : c.step m i = c := by
  obtain ⟨hi, hworker⟩ := List.getElem?_eq_some_iff.mp h
  rw [step, h]
  change (⟨c.disk, c.workers.set i ⟨p, .finished status⟩⟩ : Crew) = c
  rw [← hworker, List.set_getElem_self]

theorem step_cases (m : Mode) (c : Crew) (i : Nat) :
    c.step m i = c ∨
    (∃ p, c.workers[i]? = some { path := p } ∧
      c.step m i = ⟨c.disk, c.workers.set i ⟨p, readFile m c.disk p⟩⟩) ∨
    ∃ p text, c.workers[i]? = some ⟨p, .holding text⟩ ∧
      c.step m i = ⟨c.disk.write p text.toUTF8, c.workers.set i ⟨p, .finished .changed⟩⟩ := by
  cases h : c.workers[i]? with
  | none => exact Or.inl (step_none h)
  | some w =>
    obtain ⟨p, progress⟩ := w
    cases progress with
    | waiting => exact Or.inr (Or.inl ⟨p, rfl, step_waiting h⟩)
    | holding text => exact Or.inr (Or.inr ⟨p, text, rfl, step_holding h⟩)
    | finished status => exact Or.inl (step_finished h)

theorem getElem?_step_of_ne (h : k ≠ i) : (c.step m i).workers[k]? = c.workers[k]? := by
  unfold step
  split
  · rfl
  · exact List.getElem?_set_ne h.symm

theorem paths_set {w : Worker} (h : c.workers[i]? = some w) (progress : Progress) :
    (c.workers.set i ⟨w.path, progress⟩).map Worker.path = c.workers.map Worker.path := by
  have hpath : (c.workers.map Worker.path)[i]? = some w.path := by
    rw [List.getElem?_map, h, Option.map_some]
  obtain ⟨hi, hpath⟩ := List.getElem?_eq_some_iff.mp hpath
  rw [List.map_set, ← hpath, List.set_getElem_self]

theorem getElem?_run_of_finished {p : Path} {status : FileStatus}
    (h : c.workers[k]? = some ⟨p, .finished status⟩) (s : List Nat) :
    (c.run m s).workers[k]? = some ⟨p, .finished status⟩ := by
  induction s generalizing c with
  | nil => exact h
  | cons i s ih =>
    apply ih
    by_cases hk : k = i
    · rw [← hk, step_finished h, h]
    · rw [getElem?_step_of_ne hk, h]

end Step

section Done
variable {c : Crew}

theorem results_ofResult (disk : Disk) (rs : List FileResult) :
    (⟨disk, rs.map .ofResult⟩ : Crew).results = rs := by
  rw [results, List.filterMap_map]
  exact List.filterMap_some

theorem isDone_ofResult (disk : Disk) (rs : List FileResult) :
    (⟨disk, rs.map .ofResult⟩ : Crew).isDone = true := by
  simp [isDone, Worker.ofResult, Worker.result?]

theorem workers_eq_of_isDone (h : c.isDone = true) : c.workers = c.results.map .ofResult := by
  obtain ⟨disk, workers⟩ := c
  rw [isDone, List.all_eq_true] at h
  unfold results
  dsimp only at h ⊢
  induction workers with
  | nil => rfl
  | cons w ws ih =>
    obtain ⟨r, hr⟩ := Option.isSome_iff_exists.mp (h w List.mem_cons_self)
    rw [List.filterMap_cons_some hr, List.map_cons, ← Worker.result?_eq_some.mp hr,
      ← ih fun w' hw' => h w' (List.mem_cons_of_mem _ hw')]

end Done

section InTurn

/-- A worker that takes both of its steps at once treats its file. -/
theorem run_twice {m : Mode} {c : Crew} {i : Nat} {p : Path} (run : Run)
    (h : c.workers[i]? = some { path := p }) (hdisk : run.disk = c.disk) :
    c.run m [i, i] =
      ⟨(treat m run p).disk, c.workers.set i (.ofResult (result m c.disk p))⟩ := by
  have hi : i < c.workers.length := (List.getElem?_eq_some_iff.mp h).1
  have hdone : Worker.ofResult (result m c.disk p) = ⟨p, .finished (result m c.disk p).status⟩ := by
    rw [Worker.ofResult, result_path]
  have hafter := (treat_eq m run p).2
  rw [hdisk] at hafter
  rw [run_cons, step_waiting h, hdone]
  rcases readFile_cases m c.disk p with ⟨hread, -⟩ | ⟨bytes, text, -, hread, -, -, hstatus⟩
  · rw [hread] at hafter ⊢
    rw [hafter]
    exact step_finished (List.getElem?_set_self hi)
  · rw [hread] at hafter ⊢
    rw [hafter, hstatus]
    refine (step_holding (List.getElem?_set_self hi)).trans ?_
    rw [List.set_set]

/-- The schedule in which the workers take both of their steps one after the other. -/
def inTurn (start n : Nat) : List Nat := (List.range' start n).flatMap fun i => [i, i]

theorem run_inTurn (m : Mode) (files : List Path) (run : Run) :
    Crew.run m ⟨run.disk, run.report.results.map .ofResult ++ files.map fun p => { path := p }⟩
        (inTurn run.report.results.length files.length) =
      ⟨(files.foldl (treat m) run).disk,
        (files.foldl (treat m) run).report.results.map .ofResult⟩ := by
  -- on the files that are left: the workers before them have finished with the results so far
  induction files generalizing run with
  | nil => simp [inTurn, Crew.run]
  | cons p files ih =>
    have hreport : (treat m run p).report.results =
        run.report.results ++ [result m run.disk p] := by
      rw [(treat_eq m run p).1, Report.add]
    have hnext := ih (treat m run p)
    simp only [hreport, List.map_append, List.map_singleton, List.append_assoc,
      List.singleton_append, List.length_append, List.length_singleton] at hnext
    rw [List.foldl_cons, ← hnext, inTurn, List.length_cons, List.range'_succ, List.flatMap_cons,
      run_append, run_twice (p := p) run (by simp) rfl]
    simp [inTurn]

end InTurn
end Crew

/-- The paths are not one and the same file, unless it is one that a run leaves as it is. -/
def Spares (m : Mode) (disk : Disk) (p q : Path) : Prop :=
  ∀ place bytes, disk.resolve? p = some place → disk.resolve? q = some place →
    disk.fileAt? place = some bytes → left m bytes = bytes

/-- The workers have found their files as they were before the run. Only the files of those that have
finished are no longer as they were. -/
structure Abides (m : Mode) (disk : Disk) (files : List Path) (c : Crew) : Prop where
  paths : c.workers.map Worker.path = files
  resolve : ∀ p, c.disk.resolve? p = disk.resolve? p
  holding : ∀ p text, ⟨p, .holding text⟩ ∈ c.workers → ∃ bytes, disk.read? p = some bytes ∧
    text.toUTF8 = left m bytes ∧ (result m disk p).status = .changed
  finished : ∀ p status, ⟨p, .finished status⟩ ∈ c.workers → status = (result m disk p).status
  inside : ∀ p status, ⟨p, .finished status⟩ ∈ c.workers → ∀ place,
    disk.resolve? p = some place → c.disk.fileAt? place = (disk.fileAt? place).map (left m)
  outside : ∀ place,
    (∀ p status, ⟨p, .finished status⟩ ∈ c.workers → disk.resolve? p ≠ some place) →
      c.disk.fileAt? place = disk.fileAt? place

section Abides
variable {m : Mode} {disk : Disk} {files : List Path} {c : Crew} {i : Nat} {w : Worker}

theorem Spares.symm {p q : Path} (h : Spares m disk p q) : Spares m disk q p :=
  fun place bytes hq hp => h place bytes hp hq

theorem spares_of_ne (hspares : files.Pairwise (Spares m disk)) {k : Nat} {p q : Path}
    (hp : files[i]? = some p) (hq : files[k]? = some q) (hne : i ≠ k) : Spares m disk p q := by
  obtain ⟨hi, rfl⟩ := List.getElem?_eq_some_iff.mp hp
  obtain ⟨hk, rfl⟩ := List.getElem?_eq_some_iff.mp hq
  rcases Nat.lt_or_gt_of_ne hne with hlt | hlt
  · exact List.pairwise_iff_getElem.mp hspares i k hi hk hlt
  · exact (List.pairwise_iff_getElem.mp hspares k i hk hi hlt).symm

theorem abides_hire (m : Mode) (disk : Disk) (files : List Path) :
    Abides m disk files (Crew.hire disk files) := by
  have hwaiting : ∀ w ∈ (Crew.hire disk files).workers, w.progress = .waiting := by
    simp [Crew.hire]
  refine ⟨?_, fun _ => rfl, ?_, ?_, ?_, fun _ _ => rfl⟩
  · rw [Crew.hire, List.map_map]
    exact List.map_id'' (fun _ => rfl) files
  · exact fun p text hmem => nomatch hwaiting _ hmem
  · exact fun p status hmem => nomatch hwaiting _ hmem
  · exact fun p status hmem => nomatch hwaiting _ hmem

theorem Abides.file (h : Abides m disk files c) (hi : c.workers[i]? = some w) :
    files[i]? = some w.path := by
  rw [← h.paths, List.getElem?_map, hi, Option.map_some]

section Unfinished
variable (h : Abides m disk files c) (hi : c.workers[i]? = some w) (hw : w.result? = none)
include h hi hw

omit h in
theorem exists_finished_ne {p : Path} {status : FileStatus}
    (hmem : ⟨p, .finished status⟩ ∈ c.workers) :
    ∃ k, i ≠ k ∧ c.workers[k]? = some ⟨p, .finished status⟩ := by
  obtain ⟨k, hk⟩ := List.mem_iff_getElem?.mp hmem
  refine ⟨k, ?_, hk⟩
  rintro rfl
  rw [hi] at hk
  obtain rfl := Option.some.inj hk
  cases hw

/-- A worker that has not finished finds its file as it was before the run. -/
theorem Abides.current (hspares : files.Pairwise (Spares m disk)) {place : List String}
    (hplace : disk.resolve? w.path = some place) :
    c.disk.fileAt? place = disk.fileAt? place := by
  -- a worker that has finished with the same file has left it as it was
  by_cases hdone : ∃ p status, ⟨p, .finished status⟩ ∈ c.workers ∧ disk.resolve? p = some place
  · obtain ⟨p, status, hmem, hp⟩ := hdone
    obtain ⟨k, hne, hk⟩ := exists_finished_ne hi hw hmem
    rw [h.inside p status hmem place hp]
    cases hfile : disk.fileAt? place with
    | none => rfl
    | some bytes =>
      have hsame := spares_of_ne hspares (h.file hi) (h.file hk) hne place bytes hplace hp hfile
      rw [Option.map_some, hsame]
  · push Not at hdone
    exact h.outside place hdone

theorem Abides.current_read (hspares : files.Pairwise (Spares m disk)) :
    c.disk.read? w.path = disk.read? w.path := by
  rw [Disk.read?_eq, Disk.read?_eq, h.resolve]
  cases hplace : disk.resolve? w.path with
  | none => rfl
  | some place => exact h.current hi hw hspares hplace

omit h in
theorem mem_set_of_finished {p : Path} {status : FileStatus} (progress : Progress)
    (hmem : ⟨p, .finished status⟩ ∈ c.workers) :
    ⟨p, .finished status⟩ ∈ c.workers.set i ⟨w.path, progress⟩ := by
  obtain ⟨k, hne, hk⟩ := exists_finished_ne hi hw hmem
  exact List.mem_iff_getElem?.mpr ⟨k, by rw [List.getElem?_set_ne hne, hk]⟩

theorem Abides.hold {bytes : ByteArray} {text : String} (hread : disk.read? w.path = some bytes)
    (htext : text.toUTF8 = left m bytes) (hstatus : (result m disk w.path).status = .changed) :
    Abides m disk files ⟨c.disk, c.workers.set i ⟨w.path, .holding text⟩⟩ := by
  have hfinished : ∀ p status,
      ⟨p, .finished status⟩ ∈ c.workers.set i ⟨w.path, .holding text⟩ →
        ⟨p, .finished status⟩ ∈ c.workers := by
    intro p status hmem
    exact (List.mem_or_eq_of_mem_set hmem).resolve_right (by simp)
  refine ⟨(Crew.paths_set hi _).trans h.paths, h.resolve, ?_, ?_, ?_, ?_⟩
  · intro p text' hmem
    rcases List.mem_or_eq_of_mem_set hmem with hmem | heq
    · exact h.holding p text' hmem
    · cases heq
      exact ⟨bytes, hread, htext, hstatus⟩
  · exact fun p status hmem => h.finished p status (hfinished p status hmem)
  · exact fun p status hmem => h.inside p status (hfinished p status hmem)
  · intro place hplace
    apply h.outside place
    exact fun p status hmem => hplace p status (mem_set_of_finished hi hw _ hmem)

/-- A worker finishes, and leaves in its file what a run leaves there. -/
theorem Abides.finish {disk' : Disk} (hresolve : ∀ p, disk'.resolve? p = c.disk.resolve? p)
    (hinside : ∀ place, disk.resolve? w.path = some place →
      disk'.fileAt? place = (disk.fileAt? place).map (left m))
    (houtside : ∀ place, disk.resolve? w.path ≠ some place →
      disk'.fileAt? place = c.disk.fileAt? place) :
    Abides m disk files
      ⟨disk', c.workers.set i ⟨w.path, .finished (result m disk w.path).status⟩⟩ := by
  refine ⟨(Crew.paths_set hi _).trans h.paths, fun p => (hresolve p).trans (h.resolve p), ?_, ?_, ?_, ?_⟩
  · intro p text hmem
    exact h.holding p text ((List.mem_or_eq_of_mem_set hmem).resolve_right (by simp))
  · intro p status hmem
    rcases List.mem_or_eq_of_mem_set hmem with hmem | heq
    · exact h.finished p status hmem
    · cases heq
      rfl
  · intro p status hmem place hplace
    rcases List.mem_or_eq_of_mem_set hmem with hmem | heq
    · by_cases hw : disk.resolve? w.path = some place
      · exact hinside place hw
      · exact (houtside place hw).trans (h.inside p status hmem place hplace)
    · cases heq
      exact hinside place hplace
  · intro place hplace
    have hself : ⟨w.path, .finished (result m disk w.path).status⟩ ∈
        c.workers.set i ⟨w.path, .finished (result m disk w.path).status⟩ :=
      List.mem_set (List.getElem?_eq_some_iff.mp hi).1 _
    refine (houtside place (hplace _ _ hself)).trans (h.outside place fun p status hmem => ?_)
    exact hplace p status (mem_set_of_finished hi hw _ hmem)

end Unfinished

theorem Abides.step (h : Abides m disk files c) (hspares : files.Pairwise (Spares m disk))
    (i : Nat) : Abides m disk files (c.step m i) := by
  rcases Crew.step_cases m c i with hstep | ⟨p, hi, hstep⟩ | ⟨p, text, hi, hstep⟩
  · rwa [hstep]
  · -- it reads the file that was there before the run, and holds its new text or has finished
    have hread := h.current_read hi rfl hspares
    rw [hstep, readFile_congr hread]
    rcases readFile_cases m disk p with ⟨hfile, hsame⟩ |
      ⟨bytes, text, hbytes, hfile, htext, -, hstatus⟩
    · rw [hfile]
      refine h.finish hi rfl (fun _ => rfl) (fun place hplace => ?_) fun _ _ => rfl
      rw [h.current hi rfl hspares hplace]
      rw [Disk.read?_eq, hplace, Option.bind_some] at hsame
      cases hbytes : disk.fileAt? place with
      | none => rfl
      | some bytes => rw [Option.map_some, hsame bytes hbytes]
    · rw [hfile]
      exact h.hold hi rfl hbytes htext hstatus
  · -- it writes what it holds to the file that it has read
    obtain ⟨bytes, hbytes, htext, hstatus⟩ :=
      h.holding p text (List.mem_iff_getElem?.mpr ⟨i, hi⟩)
    rw [Disk.read?_eq] at hbytes
    obtain ⟨place, hplace, hfile⟩ := Option.bind_eq_some_iff.mp hbytes
    have hnow := (h.resolve p).trans hplace
    have hold := (h.current hi rfl hspares hplace).trans hfile
    rw [hstep, ← hstatus]
    refine h.finish hi rfl (Disk.resolve?_write hnow hold _) ?_ ?_
    · intro place' hplace'
      obtain rfl := Option.some.inj (hplace.symm.trans hplace')
      rw [Disk.fileAt?_write hnow hold, if_pos rfl, hfile, Option.map_some, htext]
    · intro place' hplace'
      rw [Disk.fileAt?_write hnow hold, if_neg]
      rintro rfl
      exact hplace' hplace

theorem Abides.run (h : Abides m disk files c) (hspares : files.Pairwise (Spares m disk))
    (schedule : List Nat) : Abides m disk files (c.run m schedule) := by
  induction schedule generalizing c with
  | nil => exact h
  | cons i schedule ih => exact ih (h.step hspares i)

section Done
variable (h : Abides m disk files c) (hdone : c.isDone = true)
include h hdone

theorem Abides.results_eq : c.results = files.map (result m disk) := by
  have hworkers := Crew.workers_eq_of_isDone hdone
  have hresult : ∀ r ∈ c.results, r = result m disk r.path := by
    intro r hr
    have hmem : Worker.ofResult r ∈ c.workers := hworkers ▸ List.mem_map_of_mem hr
    have hstatus : r.status = (result m disk r.path).status := h.finished r.path r.status hmem
    rw [FileResult.mk.injEq]
    exact ⟨(result_path m disk r.path).symm, hstatus⟩
  rw [← h.paths, hworkers, List.map_map, List.map_map]
  exact (List.map_id _).symm.trans (List.map_congr_left hresult)

theorem Abides.finished_of_mem {p : Path} (hp : p ∈ files) :
    ∃ status, ⟨p, .finished status⟩ ∈ c.workers := by
  rw [← h.paths, Crew.workers_eq_of_isDone hdone, List.map_map] at hp
  obtain ⟨r, hr, rfl⟩ := List.mem_map.mp hp
  exact ⟨r.status, Crew.workers_eq_of_isDone hdone ▸ List.mem_map_of_mem hr⟩

theorem Abides.contents (place : List String) :
    c.disk.fileAt? place =
      if ∃ p ∈ files, disk.resolve? p = some place then (disk.fileAt? place).map (left m)
      else disk.fileAt? place := by
  split
  · rename_i hplace
    obtain ⟨p, hp, hplace⟩ := hplace
    obtain ⟨status, hmem⟩ := h.finished_of_mem hdone hp
    exact h.inside p status hmem place hplace
  · rename_i hplace
    push Not at hplace
    refine h.outside place fun p status hmem => hplace p ?_
    exact h.paths ▸ List.mem_map_of_mem hmem

/-- Workers that have finished have treated the files, as a run in turn does. -/
theorem Abides.treated : Treated m disk files { disk := c.disk, report := ⟨c.results⟩ } where
  results := h.results_eq hdone
  resolve := h.resolve
  inside p hp place bytes hplace hfile := by
    rw [h.contents hdone, if_pos ⟨p, hp, hplace⟩, hfile, Option.map_some]
  outside place hplace := by
    rw [h.contents hdone, if_neg]
    rintro ⟨p, hp, hsame⟩
    exact hplace p hp hsame

end Done
end Abides

theorem spares_of_distinct {m : Mode} {disk : Disk} {p q : Path}
    (h : ∀ place, disk.resolve? p = some place → disk.resolve? q ≠ some place) : Spares m disk p q :=
  fun place _ hp hq _ => absurd hq (h place hp)

open CommandLine in
/-- When no two files of a run are one and the same, the workers end with what a run in turn ends with,
whatever the order of their steps: each file is reported once, and has become what is reported. -/
theorem crew_does_what_it_reports {m : Mode} {disk : Disk} {inputs : List Path}
    (hdistinct : (Discovery.sqlFiles disk m.exclude inputs).Pairwise fun p q =>
      ∀ place, disk.resolve? p = some place → disk.resolve? q ≠ some place) (schedule : List Nat) :
    let files := Discovery.sqlFiles disk m.exclude inputs
    let crew := (Crew.hire disk files).run m schedule
    crew.isDone = true →
      crew.results.map FileResult.path = files ∧
      (∀ r ∈ crew.results, ∀ bytes, disk.read? r.path = some bytes →
        Accounts m crew.disk bytes r) ∧
      (∀ place, (∀ p ∈ files, disk.resolve? p ≠ some place) →
        crew.disk.fileAt? place = disk.fileAt? place) ∧
      exitCode m ⟨crew.results⟩ =
        if crew.results.any (·.status.isFailed) then 2
        else if m.check && crew.results.any (·.status.isChanged) then 1
        else 0 := by
  intro files crew hdone
  have hspares : files.Pairwise (Spares m disk) := hdistinct.imp spares_of_distinct
  have htreated := ((abides_hire m disk files).run hspares schedule).treated hdone
  exact ⟨htreated.paths, fun r hr bytes hbytes => htreated.accounts hr hbytes, htreated.outside,
    exitCode_eq m _⟩

end SqlLayout.Batch
