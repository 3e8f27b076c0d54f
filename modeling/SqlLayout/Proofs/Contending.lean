import SqlLayout.Proofs.Interleaving

/-! Workers that contend for a file. When a run rewrites a file that two of its workers share, the run
can end in two ways: both have found the old file, or the second has found what the first left. -/

namespace SqlLayout.Batch
set_option autoImplicit false

theorem treat_keeps_or_leaves (m : Mode) (run : Run) (p : Path) :
    (∀ q, (treat m run p).disk.resolve? q = run.disk.resolve? q) ∧
      ∀ place, (treat m run p).disk.fileAt? place = run.disk.fileAt? place ∨
        (treat m run p).disk.fileAt? place = (run.disk.fileAt? place).map (left m) := by
  cases hread : run.disk.read? p with
  | none =>
    rw [treat_none hread]
    exact ⟨fun _ => rfl, fun _ => Or.inl rfl⟩
  | some bytes =>
    rw [Disk.read?_eq] at hread
    obtain ⟨place, hplace, hfile⟩ := Option.bind_eq_some_iff.mp hread
    obtain ⟨hresolve, hafter⟩ := treat_file (m := m) hplace hfile
    refine ⟨hresolve, fun other => ?_⟩
    rw [hafter]
    by_cases hother : other = place
    · rw [if_pos hother, hother, hfile]
      exact Or.inr rfl
    · exact Or.inl (if_neg hother)

namespace Crew

section Finish
variable {m : Mode} {c : Crew} {i k : Nat} {s : List Nat}

theorem getElem?_run_of_not_mem (h : k ∉ s) : (c.run m s).workers[k]? = c.workers[k]? := by
  induction s generalizing c with
  | nil => rfl
  | cons i s ih =>
    rw [List.mem_cons, not_or] at h
    rw [run_cons, ih h.2, getElem?_step_of_ne h.1]

theorem length_run (m : Mode) (c : Crew) (s : List Nat) :
    (c.run m s).workers.length = c.workers.length := by
  induction s generalizing c with
  | nil => rfl
  | cons i s ih =>
    rw [run_cons, ih, step]
    split
    · rfl
    · exact List.length_set

theorem isDone_of_finished
    (h : ∀ (k : Nat) w, c.workers[k]? = some w → ∃ r, w = Worker.ofResult r) : c.isDone = true := by
  rw [isDone, List.all_eq_true]
  intro w hw
  obtain ⟨k, hk⟩ := List.mem_iff_getElem?.mp hw
  obtain ⟨r, rfl⟩ := h k w hk
  rfl

theorem finished_of_twice (hi : i < c.workers.length) :
    ∃ r, (c.run m [i, i]).workers[i]? = some (.ofResult r) := by
  have hworker := List.getElem?_eq_getElem hi
  generalize c.workers[i] = w at hworker
  obtain ⟨p, progress⟩ := w
  cases progress with
  | waiting =>
    rw [run_twice { disk := c.disk } hworker rfl]
    exact ⟨_, List.getElem?_set_self hi⟩
  | holding text =>
    rw [run_cons, step_holding hworker]
    exact ⟨⟨p, .changed⟩, getElem?_run_of_finished (List.getElem?_set_self hi) [i]⟩
  | finished status => exact ⟨⟨p, status⟩, getElem?_run_of_finished hworker [i, i]⟩

theorem exists_isDone (m : Mode) (c : Crew) : ∃ s, (c.run m s).isDone = true := by
  have hfirst : ∀ n ≤ c.workers.length, ∃ s, ∀ k < n, ∃ r,
      (c.run m s).workers[k]? = some (.ofResult r) := by
    intro n
    induction n with
    | zero => exact fun _ => ⟨[], by simp⟩
    | succ n ih =>
      intro hn
      obtain ⟨s, hs⟩ := ih (by omega)
      refine ⟨s ++ [n, n], fun k hk => ?_⟩
      rw [run_append]
      rcases Nat.lt_succ_iff_lt_or_eq.mp hk with hk | rfl
      · obtain ⟨r, hr⟩ := hs k hk
        exact ⟨r, getElem?_run_of_finished hr [n, n]⟩
      · exact finished_of_twice (by rw [length_run]; omega)
  obtain ⟨s, hs⟩ := hfirst _ (Nat.le_refl _)
  refine ⟨s, isDone_of_finished fun k w hk => ?_⟩
  have hlength := (List.getElem?_eq_some_iff.mp hk).1
  rw [length_run] at hlength
  obtain ⟨r, hr⟩ := hs k hlength
  exact ⟨r, Option.some.inj (hk.symm.trans hr)⟩

end Finish

section Quarrel
variable {m : Mode} {c : Crew} {i j : Nat} {p q : Path} {place : List String} {bytes : ByteArray}

theorem step_reads (hi : c.workers[i]? = some { path := p })
    (hp : c.disk.resolve? p = some place) (hfile : c.disk.fileAt? place = some bytes)
    (hbytes : left m bytes ≠ bytes) :
    ∃ text, text.toUTF8 = left m bytes ∧
      c.step m i = ⟨c.disk, c.workers.set i ⟨p, .holding text⟩⟩ := by
  have hread : c.disk.read? p = some bytes := by rw [Disk.read?_eq, hp, Option.bind_some, hfile]
  rw [step_waiting hi]
  rcases readFile_cases m c.disk p with ⟨-, hsame⟩ | ⟨bytes', text, hbytes', hholding, htext, -, -⟩
  · exact absurd (hsame bytes hread) hbytes
  · obtain rfl := Option.some.inj (hread.symm.trans hbytes')
    exact ⟨text, htext, by rw [hholding]⟩

/-- Two workers wait for one and the same file, and a run rewrites it. -/
structure Contend (m : Mode) (c : Crew) (i j : Nat) (p q : Path) (place : List String)
    (bytes : ByteArray) : Prop where
  ne : i ≠ j
  first : c.workers[i]? = some { path := p }
  second : c.workers[j]? = some { path := q }
  first_place : c.disk.resolve? p = some place
  second_place : c.disk.resolve? q = some place
  file : c.disk.fileAt? place = some bytes
  rewritten : left m bytes ≠ bytes

variable (h : Contend m c i j p q place bytes)
include h

/-- Both workers read before they write. -/
theorem Contend.run_together :
    (c.run m [i, j, i, j]).workers[i]? = some ⟨p, .finished .changed⟩ ∧
      (c.run m [i, j, i, j]).workers[j]? = some ⟨q, .finished .changed⟩ ∧
      (c.run m [i, j, i, j]).disk.fileAt? place = some (left m bytes) := by
  have hi := (List.getElem?_eq_some_iff.mp h.first).1
  have hj := (List.getElem?_eq_some_iff.mp h.second).1
  obtain ⟨text, htext, hread⟩ := step_reads h.first h.first_place h.file h.rewritten
  have hwaits : (c.step m i).workers[j]? = some { path := q } :=
    (getElem?_step_of_ne h.ne.symm).trans h.second
  rw [run_cons, hread] at *
  obtain ⟨text', htext', hread'⟩ := step_reads hwaits h.second_place h.file h.rewritten
  have hwrites : ((c.workers.set i ⟨p, .holding text⟩).set j ⟨q, .holding text'⟩)[i]? =
      some ⟨p, .holding text⟩ := by
    rw [List.getElem?_set_ne h.ne.symm, List.getElem?_set_self hi]
  have hwrites' : (((c.workers.set i ⟨p, .holding text⟩).set j ⟨q, .holding text'⟩).set i
      ⟨p, .finished .changed⟩)[j]? = some ⟨q, .holding text'⟩ := by
    rw [List.getElem?_set_ne h.ne, List.getElem?_set_self (by simpa using hj)]
  rw [run_cons, hread', run_cons, step_holding hwrites, run_cons, step_holding hwrites']
  have hplace := (Disk.resolve?_write h.first_place h.file text.toUTF8 q).trans h.second_place
  have hfile := Disk.fileAt?_write h.first_place h.file text.toUTF8 place
  rw [if_pos rfl] at hfile
  refine ⟨?_, ?_, ?_⟩
  · change (List.set _ j _)[i]? = _
    rw [List.getElem?_set_ne h.ne.symm, List.getElem?_set_self (by simpa using hi)]
  · exact List.getElem?_set_self (by simpa using hj)
  · change (Disk.write _ q _).fileAt? place = _
    rw [Disk.fileAt?_write hplace hfile, if_pos rfl, htext']

/-- The second worker reads what the first has written. -/
theorem Contend.run_apart :
    (∃ r, (c.run m [i, i, j, j]).workers[i]? = some (.ofResult r)) ∧
      (c.run m [i, i, j, j]).workers[j]? =
        some ⟨q, .finished (judge m.options (left m bytes)).status⟩ ∧
      (c.run m [i, i, j, j]).disk.fileAt? place = some (left m (left m bytes)) := by
  obtain ⟨r, hr⟩ := finished_of_twice (m := m) (List.getElem?_eq_some_iff.mp h.first).1
  have hwaits : (c.run m [i, i]).workers[j]? = some { path := q } :=
    (getElem?_run_of_not_mem (by simpa using h.ne.symm)).trans h.second
  have hdisk : (c.run m [i, i]).disk = (treat m { disk := c.disk } p).disk :=
    congrArg Crew.disk (run_twice { disk := c.disk } h.first rfl)
  obtain ⟨hresolve, hafter⟩ := @treat_file m { disk := c.disk } _ _ _ h.first_place h.file
  rw [← hdisk] at hresolve hafter
  have hplace := (hresolve q).trans h.second_place
  have hfile := (hafter place).trans (if_pos rfl)
  have hagain := @treat_file m { disk := (c.run m [i, i]).disk } _ _ _ hplace hfile
  have hresult : result m (c.run m [i, i]).disk q =
      ⟨q, (judge m.options (left m bytes)).status⟩ := by
    rw [result, Disk.read?_eq, hplace, Option.bind_some, hfile]
  rw [show [i, i, j, j] = [i, i] ++ [j, j] from rfl, run_append]
  refine ⟨⟨r, getElem?_run_of_finished hr _⟩, ?_, ?_⟩
  · rw [run_twice { disk := (c.run m [i, i]).disk } hwaits rfl, hresult]
    exact List.getElem?_set_self (List.getElem?_eq_some_iff.mp hwaits).1
  · rw [run_twice { disk := (c.run m [i, i]).disk } hwaits rfl]
    exact (hagain.2 place).trans (if_pos rfl)

/-- Two ends that are not alike. -/
def Differ (c c' : Crew) (place : List String) : Prop :=
  c.isDone = true ∧ c'.isDone = true ∧
    (c.results ≠ c'.results ∨ c.disk.fileAt? place ≠ c'.disk.fileAt? place)

/-- When the second rewriting would change nothing, only a worker that has not seen the first one
reports a change. -/
theorem Contend.differ_of_stable (hstable : left m (left m bytes) = left m bytes) :
    ∃ s t, Differ (c.run m s) (c.run m t) place := by
  obtain ⟨s, hs⟩ := exists_isDone m (c.run m [i, j, i, j])
  obtain ⟨t, ht⟩ := exists_isDone m (c.run m [i, i, j, j])
  rw [← run_append] at hs ht
  refine ⟨_, _, hs, ht, Or.inl fun hresults => ?_⟩
  -- with the same results, the second worker would report a change that is none
  have hworkers := (workers_eq_of_isDone hs).trans (hresults ▸ (workers_eq_of_isDone ht).symm)
  have hlate := getElem?_run_of_finished (m := m) h.run_apart.2.1 t
  rw [← run_append, ← hworkers, run_append,
    getElem?_run_of_finished h.run_together.2.1 s] at hlate
  have hstatus : FileStatus.changed = (judge m.options (left m bytes)).status := by
    simpa using hlate
  exact (left_ne_iff (writesFiles_of_left_ne h.rewritten)).mpr hstatus.symm hstable

/-- When nobody else waits, the second rewriting is seen in the file. -/
theorem Contend.differ_of_unstable (hunstable : left m (left m bytes) ≠ left m bytes)
    (hothers : ∀ k w, c.workers[k]? = some w → k = i ∨ k = j ∨ ∃ r, w = .ofResult r) :
    ∃ s t, Differ (c.run m s) (c.run m t) place := by
  have hfinished : ∀ s, (∀ k ∈ s, k = i ∨ k = j) →
      (∃ r, (c.run m s).workers[i]? = some (.ofResult r)) →
      (∃ r, (c.run m s).workers[j]? = some (.ofResult r)) → (c.run m s).isDone = true := by
    intro s hs ⟨r, hr⟩ ⟨r', hr'⟩
    refine isDone_of_finished fun k w hk => ?_
    by_cases hmem : k = i ∨ k = j
    · rcases hmem with rfl | rfl
      · exact ⟨r, Option.some.inj (hk.symm.trans hr)⟩
      · exact ⟨r', Option.some.inj (hk.symm.trans hr')⟩
    · rw [getElem?_run_of_not_mem fun h => hmem (hs k h)] at hk
      rcases hothers k w hk with h | h | h
      · exact absurd (Or.inl h) hmem
      · exact absurd (Or.inr h) hmem
      · exact h
  obtain ⟨hfirst, hsecond, hfile⟩ := h.run_together
  obtain ⟨hfirst', hsecond', hfile'⟩ := h.run_apart
  refine ⟨[i, j, i, j], [i, i, j, j], ?_, ?_, Or.inr ?_⟩
  · exact hfinished _ (by simp) ⟨⟨p, .changed⟩, hfirst⟩ ⟨⟨q, .changed⟩, hsecond⟩
  · exact hfinished _ (by simp) hfirst' ⟨⟨q, _⟩, hsecond'⟩
  · rw [hfile, hfile']
    exact fun hsame => hunstable (Option.some.inj hsame).symm

/-- The workers either wait or have finished. -/
def AtRest (c : Crew) : Prop :=
  ∀ (k : Nat) w, c.workers[k]? = some w → w = { path := w.path } ∨ ∃ r, w = .ofResult r

omit h in
theorem AtRest.run_twice (hrest : c.AtRest) (k : Nat) :
    (c.run m [k, k]).AtRest ∧
      (∀ w, (c.run m [k, k]).workers[k]? = some w → ∃ r, w = .ofResult r) ∧
      (∀ q, (c.run m [k, k]).disk.resolve? q = c.disk.resolve? q) ∧
      ∀ place, (c.run m [k, k]).disk.fileAt? place = c.disk.fileAt? place ∨
        (c.run m [k, k]).disk.fileAt? place = (c.disk.fileAt? place).map (left m) := by
  have hk : ∀ w, (c.run m [k, k]).workers[k]? = some w → ∃ r, w = .ofResult r := by
    intro w hw
    have hlength := (List.getElem?_eq_some_iff.mp hw).1
    rw [length_run] at hlength
    obtain ⟨r, hr⟩ := finished_of_twice (m := m) hlength
    exact ⟨r, Option.some.inj (hw.symm.trans hr)⟩
  refine ⟨fun k' w hw => ?_, hk, ?_⟩
  · by_cases hsame : k' = k
    · exact Or.inr (hk w (hsame ▸ hw))
    · exact hrest k' w ((getElem?_run_of_not_mem (by simpa using hsame)).symm.trans hw)
  · cases hworker : c.workers[k]? with
    | none =>
      rw [run_cons, step_none hworker, run_cons, step_none hworker]
      exact ⟨fun _ => rfl, fun _ => Or.inl rfl⟩
    | some w =>
      rcases hrest k w hworker with hw | ⟨r, rfl⟩
      · rw [hw] at hworker
        rw [Crew.run_twice { disk := c.disk } hworker rfl]
        exact treat_keeps_or_leaves m { disk := c.disk } w.path
      · rw [run_cons, step_finished hworker, run_cons, step_finished hworker]
        exact ⟨fun _ => rfl, fun _ => Or.inl rfl⟩

/-- When another worker has been sent ahead, the two contend for the file that it has left. -/
theorem Contend.sent_ahead (hrest : c.AtRest) {k : Nat} (hki : k ≠ i) (hkj : k ≠ j)
    (hunstable : left m (left m bytes) ≠ left m bytes) :
    ∃ bytes', Contend m (c.run m [k, k]) i j p q place bytes' := by
  obtain ⟨-, -, hresolve, hafter⟩ := hrest.run_twice (m := m) k
  have hi : (c.run m [k, k]).workers[i]? = some { path := p } :=
    (getElem?_run_of_not_mem (by simpa using hki.symm)).trans h.first
  have hj : (c.run m [k, k]).workers[j]? = some { path := q } :=
    (getElem?_run_of_not_mem (by simpa using hkj.symm)).trans h.second
  have hp := (hresolve p).trans h.first_place
  have hq := (hresolve q).trans h.second_place
  rcases hafter place with hfile | hfile
  · exact ⟨bytes, h.ne, hi, hj, hp, hq, hfile.trans h.file, h.rewritten⟩
  · rw [h.file] at hfile
    exact ⟨left m bytes, h.ne, hi, hj, hp, hq, hfile, hunstable⟩

theorem Contend.differ (hrest : c.AtRest) (others : List Nat)
    (hothers : ∀ k w, c.workers[k]? = some w →
      k = i ∨ k = j ∨ k ∈ others ∨ ∃ r, w = .ofResult r) :
    ∃ s t, Differ (c.run m s) (c.run m t) place := by
  by_cases hstable : left m (left m bytes) = left m bytes
  · exact h.differ_of_stable hstable
  -- on the workers that may still wait: each of them can be sent ahead
  induction others generalizing c bytes with
  | nil => exact h.differ_of_unstable hstable (by simpa using hothers)
  | cons k others ih =>
    by_cases hk : k = i ∨ k = j
    · refine ih h hrest (fun k' w hw => ?_) hstable
      rcases hothers k' w hw with hi | hj | hmem | hdone
      · exact Or.inl hi
      · exact Or.inr (Or.inl hj)
      · rcases List.mem_cons.mp hmem with rfl | hmem
        · exact hk.imp_right Or.inl
        · exact Or.inr (Or.inr (Or.inl hmem))
      · exact Or.inr (Or.inr (Or.inr hdone))
    · rw [not_or] at hk
      obtain ⟨bytes', hcontend⟩ := h.sent_ahead hrest hk.1 hk.2 hstable
      obtain ⟨hrest', hfinished, -⟩ := hrest.run_twice (m := m) k
      have hothers' : ∀ k' w, (c.run m [k, k]).workers[k']? = some w →
          k' = i ∨ k' = j ∨ k' ∈ others ∨ ∃ r, w = .ofResult r := by
        intro k' w hw
        by_cases hsame : k' = k
        · exact Or.inr (Or.inr (Or.inr (hfinished w (hsame ▸ hw))))
        · rw [getElem?_run_of_not_mem (by simpa using hsame)] at hw
          refine (hothers k' w hw).imp_right (Or.imp_right (Or.imp_left fun hmem => ?_))
          exact (List.mem_cons.mp hmem).resolve_left hsame
      have hdiffer : ∃ s t, Differ ((c.run m [k, k]).run m s) ((c.run m [k, k]).run m t) place := by
        by_cases hstable' : left m (left m bytes') = left m bytes'
        · exact hcontend.differ_of_stable hstable'
        · exact ih hcontend hrest' hothers' hstable'
      obtain ⟨s, t, hdiffer⟩ := hdiffer
      rw [← run_append, ← run_append] at hdiffer
      exact ⟨_, _, hdiffer⟩

end Quarrel
end Crew

theorem exists_differ {m : Mode} {disk : Disk} {files : List Path}
    (h : ¬files.Pairwise (Spares m disk)) :
    ∃ s t place, Crew.Differ ((Crew.hire disk files).run m s) ((Crew.hire disk files).run m t)
      place := by
  rw [List.pairwise_iff_getElem] at h
  push Not at h
  obtain ⟨i, j, hi, hj, hlt, hspares⟩ := h
  unfold Spares at hspares
  push Not at hspares
  obtain ⟨place, bytes, hp, hq, hfile, hrewritten⟩ := hspares
  have hworker : ∀ k : Nat, (Crew.hire disk files).workers[k]? =
      files[k]?.map fun p => ({ path := p } : Worker) :=
    fun _ => List.getElem?_map
  have hcontend : (Crew.hire disk files).Contend m i j files[i] files[j] place bytes :=
    ⟨Nat.ne_of_lt hlt, by simp [hworker, hi], by simp [hworker, hj], hp, hq, hfile, hrewritten⟩
  obtain ⟨s, t, hdiffer⟩ := hcontend.differ
    (fun k w hk => by
      rw [hworker] at hk
      obtain ⟨p, -, rfl⟩ := Option.map_eq_some_iff.mp hk
      exact Or.inl rfl)
    (List.range files.length) (fun k w hk => by
      rw [hworker] at hk
      obtain ⟨p, hp, rfl⟩ := Option.map_eq_some_iff.mp hk
      have hlength := (List.getElem?_eq_some_iff.mp hp).1
      exact Or.inr (Or.inr (Or.inl (List.mem_range.mpr hlength))))
  exact ⟨s, t, place, hdiffer⟩

/-- A run in turn is one of the runs in which every file has a worker of its own. All of these end with
the same results and the same contents exactly when no two files of the run are one and the same file
that the run rewrites. -/
theorem interleavings_agree_iff (m : Mode) (disk : Disk) (inputs : List Path) :
    let files := Discovery.sqlFiles disk m.exclude inputs
    let crew := Crew.hire disk files
    let run := runBatch m disk inputs
    (∃ schedule, (crew.run m schedule).isDone = true ∧
      (crew.run m schedule).results = run.report.results ∧
      (crew.run m schedule).disk = run.disk) ∧
    ((∀ schedule, (crew.run m schedule).isDone = true →
      (crew.run m schedule).results = run.report.results ∧
      ∀ place, (crew.run m schedule).disk.fileAt? place = run.disk.fileAt? place) ↔
      files.Pairwise (Spares m disk)) := by
  intro files crew run
  have hrun : crew.run m (Crew.inTurn 0 files.length) =
      ⟨run.disk, run.report.results.map .ofResult⟩ :=
    Crew.run_inTurn m files { disk }
  have hturn : (crew.run m (Crew.inTurn 0 files.length)).isDone = true ∧
      (crew.run m (Crew.inTurn 0 files.length)).results = run.report.results ∧
      (crew.run m (Crew.inTurn 0 files.length)).disk = run.disk := by
    rw [hrun]
    exact ⟨Crew.isDone_ofResult _ _, Crew.results_ofResult _ _, rfl⟩
  obtain ⟨hdone, hresults, hdisk⟩ := hturn
  refine ⟨⟨_, hdone, hresults, hdisk⟩, fun hagree => ?_, fun hspares schedule hends => ?_⟩
  · by_contra hspares
    obtain ⟨s, t, place, hs, ht, hdiffer⟩ := exists_differ hspares
    obtain ⟨hresults, hcontents⟩ := hagree s hs
    obtain ⟨hresults', hcontents'⟩ := hagree t ht
    rcases hdiffer with hdiffer | hdiffer
    · exact hdiffer (hresults.trans hresults'.symm)
    · exact hdiffer ((hcontents place).trans (hcontents' place).symm)
  · have habides := (abides_hire m disk files).run hspares
    rw [← hresults, ← hdisk]
    refine ⟨?_, fun place => ?_⟩
    · rw [(habides schedule).results_eq hends, (habides _).results_eq hdone]
    · rw [(habides schedule).contents hends, (habides _).contents hdone]

/-- A file that is found under two spellings is rewritten twice in turn, and once when both workers read
it first. -/
theorem interleavings_disagree_on_two_spellings :
    let disk : Disk := ⟨.dir [("a.sql", .file "SELECT AND b".toUTF8)], []⟩
    let inputs : List Path := [⟨"a.sql"⟩, ⟨"."⟩]
    let files : List Path := [⟨"./a.sql"⟩, ⟨"a.sql"⟩]
    let together := (Crew.hire disk files).run {} [0, 1, 0, 1]
    Discovery.sqlFiles disk [] inputs = files ∧
      (runBatch {} disk inputs).disk.fileAt? ["a.sql"] = some "SELECT\nAND b\n".toUTF8 ∧
      together.isDone = true ∧
      together.disk.fileAt? ["a.sql"] = some "SELECT\n  AND b\n".toUTF8 ∧
      ¬files.Pairwise (Spares {} disk) := by
  intro disk inputs files together
  have hfiles : Discovery.sqlFiles disk [] inputs = files := by decide +kernel
  have hturn : (runBatch {} disk inputs).disk.fileAt? ["a.sql"] =
      some "SELECT\nAND b\n".toUTF8 := by decide +kernel
  have hends : together.isDone = true ∧
      together.disk.fileAt? ["a.sql"] = some "SELECT\n  AND b\n".toUTF8 := by decide +kernel
  obtain ⟨hdone, htogether⟩ := hends
  refine ⟨hfiles, hturn, hdone, htogether, fun hspares => ?_⟩
  have hagree := (interleavings_agree_iff {} disk inputs).2.mpr (hfiles ▸ hspares)
  have hcontents := (hagree [0, 1, 0, 1] (hfiles ▸ hdone)).2 ["a.sql"]
  rw [hturn, show ({} : Mode).exclude = [] from rfl, hfiles] at hcontents
  have hsame := htogether.symm.trans hcontents
  revert hsame
  decide +kernel

end SqlLayout.Batch
