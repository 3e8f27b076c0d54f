import Mathlib.Data.List.Basic
import SqlLayout.CommandLine
import SqlLayout.Proofs.Overwriting

/-! What a run does to the disk, and what its report and its exit code say of it. Files are treated one
after the other. As long as no two of them are the same file, each is found as it was before the run, so
the report can be read off the old disk, and a file is written only when its new text is reported. -/

namespace SqlLayout
set_option autoImplicit false

namespace Batch

section Judge
variable {o : Options} {bytes : ByteArray}

theorem judge_error {e : Failure} (h : formatDocument o bytes = .error e) :
    judge o bytes = { status := .failed e } := by
  rw [judge, h]

theorem judge_same {text : String} (h : formatDocument o bytes = .ok text)
    (hsame : text.toUTF8 = bytes) : judge o bytes = { status := .unchanged } := by
  rw [judge, h]
  exact if_pos (congrArg ByteArray.data hsame.symm)

theorem judge_other {text : String} (h : formatDocument o bytes = .ok text)
    (hother : text.toUTF8 ≠ bytes) :
    judge o bytes = { status := .changed, formatted := some text } := by
  rw [judge, h]
  exact if_neg fun hdata => hother (ByteArray.ext hdata.symm)

end Judge

/-- The bytes that a run leaves in a file. -/
def left (m : Mode) (bytes : ByteArray) : ByteArray :=
  match (judge m.options bytes).formatted with
  | some text => if m.writesFiles then text.toUTF8 else bytes
  | none => bytes

/-- What is reported of a file, from what the disk holds before the run. -/
def result (m : Mode) (disk : Disk) (p : Path) : FileResult :=
  match disk.read? p with
  | none => ⟨p, .failed (.io "No such file or directory")⟩
  | some bytes => ⟨p, (judge m.options bytes).status⟩

/-- The files have been treated, and no others. -/
structure Treated (m : Mode) (disk : Disk) (files : List Path) (run : Run) : Prop where
  results : run.report.results = files.map (result m disk)
  resolve : ∀ p, run.disk.resolve? p = disk.resolve? p
  inside : ∀ p ∈ files, ∀ place bytes, disk.resolve? p = some place →
    disk.fileAt? place = some bytes → run.disk.fileAt? place = some (left m bytes)
  outside : ∀ place, (∀ p ∈ files, disk.resolve? p ≠ some place) →
    run.disk.fileAt? place = disk.fileAt? place

section Treat
variable {m : Mode} {disk : Disk}

theorem treated_nil : Treated m disk [] { disk } :=
  ⟨rfl, fun _ => rfl, by simp, fun _ _ => rfl⟩

theorem treat_none {run : Run} {p : Path} (h : run.disk.read? p = none) :
    treat m run p =
      { run with report := run.report.add ⟨p, .failed (.io "No such file or directory")⟩ } := by
  rw [treat, h]

theorem treat_report {run : Run} {p : Path} {bytes : ByteArray}
    (h : run.disk.read? p = some bytes) :
    (treat m run p).report = run.report.add ⟨p, (judge m.options bytes).status⟩ := by
  unfold treat
  rw [h]
  dsimp only
  split
  · rfl
  · split
    · rfl
    · split <;> rfl

theorem treat_disk {run : Run} {p : Path} {bytes : ByteArray}
    (h : run.disk.read? p = some bytes) :
    (treat m run p).disk = run.disk ∧ left m bytes = bytes ∨
      (treat m run p).disk = run.disk.write p (left m bytes) := by
  cases hformatted : (judge m.options bytes).formatted with
  | none => exact Or.inl (by simp [treat, left, h, hformatted])
  | some text =>
    by_cases hwrites : m.writesFiles = true
    · exact Or.inr (by simp [treat, left, h, hformatted, hwrites])
    · refine Or.inl ⟨?_, by simp [left, hformatted, hwrites]⟩
      simp only [treat, h, hformatted, if_neg hwrites]
      split <;> rfl

/-- A file that is there holds behind the run what the run leaves, and nothing else changes. -/
theorem treat_file {run : Run} {p : Path} {place : List String} {bytes : ByteArray}
    (hp : run.disk.resolve? p = some place) (hbytes : run.disk.fileAt? place = some bytes) :
    (∀ q, (treat m run p).disk.resolve? q = run.disk.resolve? q) ∧
      ∀ other, (treat m run p).disk.fileAt? other =
        if other = place then some (left m bytes) else run.disk.fileAt? other := by
  have hread : run.disk.read? p = some bytes := by rw [Disk.read?_eq, hp, Option.bind_some, hbytes]
  rcases treat_disk (m := m) hread with ⟨hdisk, hleft⟩ | hdisk
  · rw [hdisk, hleft]
    refine ⟨fun _ => rfl, fun other => ?_⟩
    split
    · rename_i h
      rw [h, hbytes]
    · rfl
  · rw [hdisk]
    exact ⟨Disk.resolve?_write hp hbytes _, Disk.fileAt?_write hp hbytes _⟩

section More
variable {files : List Path} {run : Run} {p : Path} (h : Treated m disk files run)
  (hnew : ∀ q ∈ files, ∀ place, disk.resolve? q = some place → disk.resolve? p ≠ some place)
include h

theorem Treated.results_concat :
    run.report.results ++ [result m disk p] = (files ++ [p]).map (result m disk) := by
  rw [h.results, List.map_append, List.map_singleton]

include hnew

/-- A file that is none of those before it is found as it was before the run. -/
theorem Treated.read?_eq : run.disk.read? p = disk.read? p := by
  rw [Disk.read?_eq, Disk.read?_eq, h.resolve]
  cases hp : disk.resolve? p with
  | none => rfl
  | some place => exact h.outside place fun q hq hplace => hnew q hq place hplace hp

theorem Treated.treat_missing (hp : disk.read? p = none) :
    Treated m disk (files ++ [p]) (treat m run p) := by
  rw [treat_none ((h.read?_eq hnew).trans hp)]
  have hresults := h.results_concat (p := p)
  rw [result, hp] at hresults
  refine ⟨hresults, h.resolve, ?_, ?_⟩
  · intro q hq place bytes hplace hfile
    rcases List.mem_append.mp hq with hq | hq
    · exact h.inside q hq place bytes hplace hfile
    · obtain rfl := List.mem_singleton.mp hq
      rw [Disk.read?_eq, hplace, Option.bind_some, hfile] at hp
      cases hp
  · exact fun place hplace => h.outside place fun q hq => hplace q (List.mem_append_left _ hq)

theorem Treated.treat_found {bytes : ByteArray} (hp : disk.read? p = some bytes) :
    Treated m disk (files ++ [p]) (treat m run p) := by
  have hread : run.disk.read? p = some bytes := (h.read?_eq hnew).trans hp
  obtain ⟨place, hplace, hfile⟩ := Option.bind_eq_some_iff.mp ((Disk.read?_eq _ _).symm.trans hread)
  obtain ⟨hresolve, hafter⟩ := treat_file (m := m) hplace hfile
  rw [h.resolve] at hplace
  have hresults := h.results_concat (p := p)
  rw [result, hp] at hresults
  refine ⟨(congrArg Report.results (treat_report hread)).trans hresults,
    fun q => (hresolve q).trans (h.resolve q), ?_, ?_⟩
  · intro q hq place' bytes' hplace' hfile'
    rw [hafter]
    rcases List.mem_append.mp hq with hq | hq
    · have hne : place' ≠ place := by
        rintro rfl
        exact hnew q hq place' hplace' hplace
      rw [if_neg hne]
      exact h.inside q hq place' bytes' hplace' hfile'
    · obtain rfl := List.mem_singleton.mp hq
      obtain rfl : place = place' := Option.some.inj (hplace.symm.trans hplace')
      rw [Disk.read?_eq, hplace, Option.bind_some, hfile'] at hp
      rw [if_pos rfl, Option.some.inj hp]
  · intro other hother
    have hne : other ≠ place := by
      rintro rfl
      exact hother p (by simp) hplace
    rw [hafter, if_neg hne]
    exact h.outside other fun q hq => hother q (List.mem_append_left _ hq)

/-- One more file is treated, when it is none of those before it. -/
theorem Treated.treat : Treated m disk (files ++ [p]) (treat m run p) := by
  cases hp : disk.read? p with
  | none => exact h.treat_missing hnew hp
  | some bytes => exact h.treat_found hnew hp

end More

theorem Treated.foldl {files before : List Path} {run : Run} (h : Treated m disk before run)
    (hdistinct : (before ++ files).Pairwise fun p q =>
      ∀ place, disk.resolve? p = some place → disk.resolve? q ≠ some place) :
    Treated m disk (before ++ files) (files.foldl (Batch.treat m) run) := by
  induction files generalizing before run with
  | nil => simpa using h
  | cons p files ih =>
    rw [List.append_cons] at hdistinct ⊢
    apply ih _ hdistinct
    apply h.treat
    intro q hq
    have hbefore := (List.pairwise_append.mp hdistinct).1
    exact (List.pairwise_append.mp hbefore).2.2 q hq p (List.mem_singleton.mpr rfl)

end Treat

/-- What a result says of a file that held `bytes` before a run in the mode `m`, when `after` is the
disk behind the run. -/
structure Accounts (m : Mode) (after : Disk) (bytes : ByteArray) (r : FileResult) : Prop where
  failed : ∀ e, r.status = .failed e ↔ formatDocument m.options bytes = .error e
  unchanged : r.status = .unchanged ↔
    ∃ text, formatDocument m.options bytes = .ok text ∧ text.toUTF8 = bytes
  changed : r.status = .changed ↔
    ∃ text, formatDocument m.options bytes = .ok text ∧ text.toUTF8 ≠ bytes
  written : r.status = .changed → m.check = false → m.diff = false → m.list = false →
    ∃ text, formatDocument m.options bytes = .ok text ∧ after.read? r.path = some text.toUTF8
  kept : ¬(r.status = .changed ∧ m.check = false ∧ m.diff = false ∧ m.list = false) →
    after.read? r.path = some bytes

theorem writesFiles_iff {m : Mode} :
    m.writesFiles = true ↔ m.check = false ∧ m.diff = false ∧ m.list = false := by
  simp [Mode.writesFiles, and_assoc]

theorem accounts {m : Mode} {after : Disk} {bytes : ByteArray} {p : Path}
    (hafter : after.read? p = some (left m bytes)) :
    Accounts m after bytes ⟨p, (judge m.options bytes).status⟩ := by
  unfold left at hafter
  cases hformat : formatDocument m.options bytes with
  | error e =>
    rw [judge_error hformat] at hafter ⊢
    refine ⟨fun e' => ?_, ?_, ?_, ?_, fun _ => hafter⟩ <;> simp [hformat]
  | ok text =>
    by_cases hsame : text.toUTF8 = bytes
    · rw [judge_same hformat hsame] at hafter ⊢
      refine ⟨?_, ?_, ?_, ?_, fun _ => hafter⟩
      · simp [hformat]
      · exact iff_of_true rfl ⟨text, hformat, hsame⟩
      · refine iff_of_false (by simp) ?_
        rintro ⟨text', htext', hother⟩
        rw [hformat] at htext'
        cases htext'
        exact hother hsame
      · simp
    · rw [judge_other hformat hsame] at hafter ⊢
      refine ⟨?_, ?_, ?_, ?_, ?_⟩
      · simp [hformat]
      · refine iff_of_false (by simp) ?_
        rintro ⟨text', htext', hsame'⟩
        rw [hformat] at htext'
        cases htext'
        exact hsame hsame'
      · exact iff_of_true rfl ⟨text, hformat, hsame⟩
      · intro _ hcheck hdiff hlist
        have hwrites := writesFiles_iff.mpr ⟨hcheck, hdiff, hlist⟩
        exact ⟨text, hformat, by simpa [hwrites] using hafter⟩
      · intro hnot
        have hwrites : m.writesFiles ≠ true := fun h => hnot ⟨rfl, writesFiles_iff.mp h⟩
        simpa [hwrites] using hafter

theorem result_path (m : Mode) (disk : Disk) (p : Path) : (result m disk p).path = p := by
  unfold result
  split <;> rfl

/-- Behind a run each result accounts for its file. -/
theorem Treated.accounts {m : Mode} {disk : Disk} {files : List Path} {run : Run}
    (h : Treated m disk files run) {r : FileResult} (hr : r ∈ run.report.results)
    {bytes : ByteArray} (hbytes : disk.read? r.path = some bytes) :
    Accounts m run.disk bytes r := by
  rw [h.results] at hr
  obtain ⟨p, hp, rfl⟩ := List.mem_map.mp hr
  rw [result_path] at hbytes
  rw [result, hbytes]
  apply Batch.accounts
  rw [Disk.read?_eq] at hbytes
  obtain ⟨place, hplace, hfile⟩ := Option.bind_eq_some_iff.mp hbytes
  rw [Disk.read?_eq, h.resolve, hplace, Option.bind_some]
  exact h.inside p hp place bytes hplace hfile

theorem Treated.paths {m : Mode} {disk : Disk} {files : List Path} {run : Run}
    (h : Treated m disk files run) : run.report.results.map FileResult.path = files := by
  rw [h.results, List.map_map]
  exact List.map_id'' (result_path m disk) files

end Batch

namespace Report

theorem hasErrors_eq (r : Report) :
    r.hasErrors = r.results.any (·.status.isFailed) := by
  rw [hasErrors, errors, Bool.eq_iff_iff, decide_eq_true_iff, List.countP_pos_iff, List.any_eq_true]

theorem hasChanges_eq (r : Report) :
    r.hasChanges = r.results.any (·.status.isChanged) := by
  rw [hasChanges, changed, Bool.eq_iff_iff, decide_eq_true_iff, List.countP_pos_iff,
    List.any_eq_true]

end Report

namespace CommandLine

theorem exitCode_eq (m : Mode) (report : Report) :
    exitCode m report = if report.results.any (·.status.isFailed) then 2
      else if m.check && report.results.any (·.status.isChanged) then 1 else 0 := by
  rw [exitCode, Report.hasErrors_eq, Report.hasChanges_eq]

theorem mode_check {disk : Disk} {r : Request} {m : Mode} (h : mode disk r = .ok m) :
    m.check = r.check := by
  unfold mode at h
  cases hloaded : (Config.load disk (r.inputs.map Path.mk) (r.config.map Path.mk)).mapError
      Fatal.configuration with
  | error e => rw [hloaded] at h; cases h
  | ok loaded =>
    cases hnamed : (r.dialects.mapM Config.namedRegistry).mapError Fatal.plain with
    | error e => rw [hloaded, hnamed] at h; cases h
    | ok named =>
      rw [hloaded, hnamed] at h
      cases h
      rfl

/-- A command on files ends with the run over them, and its exit code is that of the report. -/
theorem execute_files {disk : Disk} {r : Request} {m : Mode} (input : ByteArray)
    (hm : mode disk r = .ok m) (hfiles : readsInput r = false) :
    (execute disk input r).disk = (runBatch m disk (r.inputs.map Path.mk)).disk ∧
      (execute disk input r).code =
        exitCode m (runBatch m disk (r.inputs.map Path.mk)).report := by
  rw [execute, hm]
  dsimp only
  rw [hfiles]
  exact ⟨rfl, rfl⟩

end CommandLine

open Batch CommandLine in
/-- A run reports the files that it finds, each once and in their order, and does to each what it
reports: a file is written when it would change and nothing asks to leave it alone, and no other file
is touched. The exit code of a command is that of its report. -/
theorem runBatch_does_what_it_reports {m : Mode} {disk : Disk} {inputs : List Path}
    (hdistinct : (Discovery.sqlFiles disk m.exclude inputs).Pairwise fun p q =>
      ∀ place, disk.resolve? p = some place → disk.resolve? q ≠ some place) :
    let files := Discovery.sqlFiles disk m.exclude inputs
    let run := runBatch m disk inputs
    run.report.results.map FileResult.path = files ∧
    (∀ r ∈ run.report.results, ∀ bytes, disk.read? r.path = some bytes →
      Accounts m run.disk bytes r) ∧
    (∀ place, (∀ p ∈ files, disk.resolve? p ≠ some place) →
      run.disk.fileAt? place = disk.fileAt? place) ∧
    ∀ input request, mode disk request = .ok m → readsInput request = false →
      request.inputs.map Path.mk = inputs →
      (execute disk input request).disk = run.disk ∧
      (execute disk input request).code =
        if run.report.results.any (·.status.isFailed) then 2
        else if request.check && run.report.results.any (·.status.isChanged) then 1
        else 0 := by
  intro files run
  have htreated : Treated m disk files run := treated_nil.foldl hdistinct
  refine ⟨htreated.paths, fun r hr bytes hbytes => htreated.accounts hr hbytes, htreated.outside, ?_⟩
  intro input request hm hfiles hinputs
  obtain ⟨hdisk, hcode⟩ := execute_files input hm hfiles
  rw [hinputs] at hdisk hcode
  refine ⟨hdisk, ?_⟩
  rw [hcode, exitCode_eq, mode_check hm]

open Batch CommandLine in
theorem runBatch_passes_over_a_failure :
    let disk : Disk := ⟨.dir [("a.sql", .file "SELECT (".toUTF8), ("b.sql", .file "SELECT a".toUTF8),
      ("c.txt", .file "SELECT a".toUTF8)], []⟩
    let after := execute disk .empty { inputs := ["."] }
    after.code = 2 ∧ after.disk.read? ⟨"./a.sql"⟩ = some "SELECT (".toUTF8 ∧
      after.disk.read? ⟨"./b.sql"⟩ = some "SELECT\n  a\n".toUTF8 ∧
      after.disk.fileAt? ["c.txt"] = some "SELECT a".toUTF8 := by
  intro disk after
  have hfiles : Discovery.sqlFiles disk [] [⟨"."⟩] = [⟨"./a.sql"⟩, ⟨"./b.sql"⟩] := by
    decide +kernel
  have ha : disk.resolve? ⟨"./a.sql"⟩ = some ["a.sql"] := by decide +kernel
  have hb : disk.resolve? ⟨"./b.sql"⟩ = some ["b.sql"] := by decide +kernel
  have hmode : mode disk { inputs := ["."] } = .ok {} := by decide +kernel
  have hfails : (formatDocument {} "SELECT (".toUTF8).isOk = false := by decide +kernel
  have hformats : formatDocument {} "SELECT a".toUTF8 = .ok "SELECT\n  a\n" := by decide +kernel
  obtain ⟨hpaths, haccounts, hothers, hcommand⟩ :=
    @runBatch_does_what_it_reports {} disk [⟨"."⟩] (by
      rw [hfiles]
      simp [ha, hb])
  obtain ⟨hdisk, hcode⟩ := hcommand .empty { inputs := ["."] } hmode rfl rfl
  rw [hfiles] at hpaths hothers
  obtain ⟨ra, rest, hresults, hra, hrest⟩ := List.map_eq_cons_iff.mp hpaths
  obtain ⟨rb, rest, rfl, hrb, hnil⟩ := List.map_eq_cons_iff.mp hrest
  obtain rfl := List.map_eq_nil_iff.mp hnil
  rw [hresults] at haccounts hcode
  have haccount := haccounts ra (by simp) "SELECT (".toUTF8 (by rw [hra, Disk.read?_eq, ha]; rfl)
  have hbaccount := haccounts rb (by simp) "SELECT a".toUTF8 (by rw [hrb, Disk.read?_eq, hb]; rfl)
  have hfailed : ra.status.isFailed = true := by
    cases hformat : formatDocument {} "SELECT (".toUTF8 with
    | ok text => rw [hformat] at hfails; cases hfails
    | error e => rw [(haccount.failed e).mpr hformat]; rfl
  have hchanged : rb.status = .changed :=
    hbaccount.changed.mpr ⟨_, hformats, by decide +kernel⟩
  refine ⟨?_, ?_, ?_, ?_⟩
  · rw [hcode]
    simp [hfailed]
  · rw [hdisk, ← hra]
    refine haccount.kept ?_
    rintro ⟨h, -⟩
    rw [h] at hfailed
    cases hfailed
  · obtain ⟨text, htext, hafter⟩ := hbaccount.written hchanged rfl rfl rfl
    rw [hformats] at htext
    cases htext
    rw [hdisk, ← hrb]
    exact hafter
  · rw [hdisk, hothers ["c.txt"] (by simp [ha, hb])]
    rfl

end SqlLayout
