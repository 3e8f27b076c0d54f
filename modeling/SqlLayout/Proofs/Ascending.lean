import Mathlib.Data.List.Induction
import Mathlib.Logic.Relation
import SqlLayout.Config
import SqlLayout.Proofs.Naming

/-! Where the configuration is looked for. For each input the search goes up from the innermost directory,
and a directory that an earlier input has led to is not searched again. So one input is searched from the
inside outward, but a directory that only a later input leads to comes behind all directories above it that
an earlier input has led to. -/

namespace SqlLayout
set_option autoImplicit false

namespace Path

/-- The directory above, as far as the spelling goes. -/
def parent? : List Component → Option (List Component)
  | [] | [.root] => none
  | dir => some dir.dropLast

/-- The directory `above` is reached from `dir` by going up once or more. -/
def Ascends (dir above : List Component) : Prop :=
  Relation.TransGen (fun d up => parent? d = some up) dir above

/-- Directories that are spelled from the root. -/
def isAbsolute (dir : List Component) : Bool := dir.head? = some .root

section Ascent
variable {dir above up : List Component} {c : Component}

theorem parent?_concat (h : dir ++ [c] ≠ [.root]) : parent? (dir ++ [c]) = some dir := by
  unfold parent?
  split
  · simp_all
  · contradiction
  · rw [List.dropLast_concat]

theorem ancestors_concat (h : dir ++ [c] ≠ [.root]) :
    ancestors (dir ++ [c]) = (dir ++ [c]) :: ancestors dir := by
  show ancestors.go (dir ++ [c]).reverse = _
  rw [List.reverse_concat, ancestors.go, List.reverse_cons, List.reverse_reverse]
  · rfl
  · rintro rfl hdir
    exact h (by rw [List.reverse_eq_nil_iff.mp hdir, List.nil_append])

theorem not_ascends (h : parent? dir = none) : ¬Ascends dir above := by
  intro hascends
  obtain ⟨up, hup, -⟩ := Relation.TransGen.head'_iff.mp hascends
  cases h.symm.trans hup

theorem ascends_concat (h : dir ++ [c] ≠ [.root]) :
    Ascends (dir ++ [c]) above ↔ above = dir ∨ Ascends dir above := by
  unfold Ascends
  rw [Relation.TransGen.head'_iff, ← Relation.reflTransGen_iff_eq_or_transGen, parent?_concat h]
  simp

/-- The ancestors of a directory are the directory and all that is above it. -/
theorem mem_ancestors : above ∈ ancestors dir ↔ above = dir ∨ Ascends dir above := by
  induction dir using List.reverseRecOn with
  | nil =>
    have hnot : ¬Ascends [] above := not_ascends rfl
    simp [ancestors, ancestors.go, hnot]
  | append_singleton dir c ih =>
    by_cases hroot : dir ++ [c] = [.root]
    · have hnot : ¬Ascends [.root] above := not_ascends rfl
      rw [hroot]
      simp [ancestors, ancestors.go, hnot]
    · rw [ancestors_concat hroot, List.mem_cons, ih, ascends_concat hroot]

theorem length_of_parent? (h : parent? dir = some up) : up.length + 1 = dir.length := by
  rcases List.eq_nil_or_concat' dir with rfl | ⟨dir, c, rfl⟩
  · cases h
  · by_cases hroot : dir ++ [c] = [.root]
    · rw [hroot] at h
      cases h
    · rw [parent?_concat hroot] at h
      cases h
      rw [List.length_append, List.length_singleton]

theorem Ascends.length_lt (h : Ascends dir above) : above.length < dir.length := by
  induction h with
  | single h => have := length_of_parent? h; omega
  | tail _ h ih => have := length_of_parent? h; omega

/-- The ancestors come from the inside outward. -/
theorem pairwise_ancestors (dir : List Component) : (ancestors dir).Pairwise Ascends := by
  induction dir using List.reverseRecOn with
  | nil => exact List.pairwise_singleton _ _
  | append_singleton dir c ih =>
    by_cases hroot : dir ++ [c] = [.root]
    · rw [hroot]
      exact List.pairwise_singleton _ _
    · rw [ancestors_concat hroot]
      refine .cons (fun above habove => ?_) ih
      exact (ascends_concat hroot).mpr (mem_ancestors.mp habove)

theorem nodup_ancestors (dir : List Component) : (ancestors dir).Nodup := by
  refine (pairwise_ancestors dir).imp fun h heq => ?_
  exact absurd h.length_lt (by rw [heq]; exact Nat.lt_irrefl _)

theorem ancestors_subset (h : above ∈ ancestors dir) : ancestors above ⊆ ancestors dir := by
  intro a ha
  rw [mem_ancestors] at *
  rcases h with rfl | h
  · exact ha
  · rcases ha with rfl | ha
    · exact Or.inr h
    · exact Or.inr (h.trans ha)

theorem isAbsolute_of_parent? (h : parent? dir = some up) : isAbsolute up = isAbsolute dir := by
  unfold parent? at h
  split at h
  · cases h
  · cases h
  · rename_i hnil hroot
    cases h
    match dir, hnil, hroot with
    | [c], _, hroot => cases c <;> simp_all [isAbsolute]
    | c :: d :: dir, _, _ => rfl

theorem Ascends.isAbsolute_eq (h : Ascends dir above) : isAbsolute above = isAbsolute dir := by
  induction h with
  | single h => exact isAbsolute_of_parent? h
  | tail _ h ih => exact (isAbsolute_of_parent? h).trans ih

theorem isAbsolute_of_mem_ancestors (h : above ∈ ancestors dir) : isAbsolute above = isAbsolute dir := by
  rcases mem_ancestors.mp h with rfl | h
  · rfl
  · exact h.isAbsolute_eq

theorem top_mem_ancestors (dir : List Component) :
    (if isAbsolute dir then [.root] else []) ∈ ancestors dir := by
  induction dir using List.reverseRecOn with
  | nil => exact List.mem_singleton_self _
  | append_singleton dir c ih =>
    by_cases hroot : dir ++ [c] = [.root]
    · rw [hroot]
      exact List.mem_singleton_self _
    · rw [← isAbsolute_of_parent? (parent?_concat hroot), ancestors_concat hroot]
      exact List.mem_cons_of_mem _ ih

/-- Two directories have one above both exactly when both are spelled from the root, or neither is. -/
theorem disjoint_ancestors_iff {dir dir' : List Component} :
    (∀ above ∈ ancestors dir, above ∉ ancestors dir') ↔ isAbsolute dir ≠ isAbsolute dir' := by
  constructor
  · intro h heq
    have htop := top_mem_ancestors dir'
    rw [← heq] at htop
    exact h _ (top_mem_ancestors dir) htop
  · intro hne above h h'
    exact hne ((isAbsolute_of_mem_ancestors h).symm.trans (isAbsolute_of_mem_ancestors h'))

end Ascent

/-- Only the first component of a path can be the root. -/
theorem eq_nil_of_components_concat_root {p : Path} {up : List Component}
    (h : p.components = up ++ [.root]) : up = [] := by
  have hnamed : .root ∉ (segments p.spelling).filterMap named := by
    simp only [List.mem_filterMap, not_exists, not_and]
    intro segment _
    unfold named
    split
    · nofun
    · split <;> nofun
  rw [components_eq] at h
  rcases List.eq_nil_or_concat' ((segments p.spelling).filterMap named) with hnil | ⟨cs, c, hcs⟩
  · -- what stands in front of the names is one component at most
    have hlength := congrArg List.length h
    rw [hnil, List.append_nil, List.length_append, List.length_singleton] at hlength
    refine List.length_eq_zero_iff.mp (Nat.le_zero.mp (Nat.le_of_add_le_add_right (b := 1) ?_))
    rw [← hlength]
    split
    · rfl
    · split
      · rfl
      · exact Nat.zero_le _
  · rw [hcs, ← List.append_assoc] at h
    obtain ⟨-, hc⟩ := List.append_inj' h rfl
    rw [hcs, List.singleton_inj.mp hc] at hnamed
    simp at hnamed

end Path

namespace Config

/-- Where the search for an input starts: in the input, when it is a directory, else in the directory above
it, which is the current one when nothing of the spelling is left. -/
inductive StartsAt (disk : Disk) (input : Path) : List Component → Prop
  | directory {entries : List (String × FileTree)} (h : disk.find? input = some (.dir entries)) :
      StartsAt disk input input.components
  | above {up : List Component} (h : ∀ entries, disk.find? input ≠ some (.dir entries))
      (hup : Path.parent? input.components = some up) (hne : up ≠ []) : StartsAt disk input up
  | bare (h : ∀ entries, disk.find? input ≠ some (.dir entries))
      (hup : ∀ up, Path.parent? input.components = some up → up = []) : StartsAt disk input [.current]

/-- No directory comes behind one that is above it. -/
def InnermostFirst (dirs : List (List Component)) : Prop :=
  dirs.Pairwise fun earlier later => ¬Path.Ascends later earlier

def holdsFile (disk : Disk) (dir : List Component) : Bool :=
  (disk.locate? (dir ++ [.name fileName])).isSome

/-- The directory whose configuration file is used. -/
def chosen? (disk : Disk) (inputs : List Path) : Option (List Component) :=
  (searchDirs disk inputs).find? (holdsFile disk)

/-- The search for an input starts in a directory that the earlier inputs have led to, or it meets none
that they have led to. -/
def Joins (disk : Disk) (earlier : List Path) (input : Path) : Prop :=
  (∃ other ∈ earlier, startDir disk input ∈ Path.ancestors (startDir disk other)) ∨
    ∀ other ∈ earlier, Path.isAbsolute (startDir disk other) ≠ Path.isAbsolute (startDir disk input)

theorem startsAt_startDir (disk : Disk) (input : Path) : StartsAt disk input (startDir disk input) := by
  unfold startDir
  by_cases hdir : (disk.find? input).any FileTree.isDir = true
  · rw [if_pos hdir]
    rcases hfind : disk.find? input with _ | bytes | entries
    · simp [hfind] at hdir
    · simp [hfind, FileTree.isDir] at hdir
    · exact .directory hfind
  · rw [if_neg hdir]
    have hfile : ∀ entries, disk.find? input ≠ some (.dir entries) := by
      intro entries hfind
      rw [hfind] at hdir
      exact hdir rfl
    rcases List.eq_nil_or_concat' input.components with hnil | ⟨up, c, hup⟩
    · rw [hnil]
      exact .bare hfile (by simp [hnil, Path.parent?])
    · rw [hup, List.reverse_concat]
      rcases List.eq_nil_or_concat' up with rfl | ⟨up, d, rfl⟩
      · refine .bare hfile fun up hparent => ?_
        have hlength := Path.length_of_parent? hparent
        rw [hup] at hlength
        exact List.length_eq_zero_iff.mp (Nat.succ.inj hlength)
      · have hroot : c ≠ .root := by
          rintro rfl
          simpa using Path.eq_nil_of_components_concat_root hup
        have hparent : Path.parent? input.components = some (up ++ [d]) := by
          rw [hup]
          refine Path.parent?_concat fun heq => ?_
          simpa using congrArg List.length heq
        rw [List.reverse_concat]
        split
        · simp_all
        · simp_all
        · simp_all
        · rename_i heq
          obtain ⟨-, rfl⟩ := List.cons.inj heq
          rw [List.reverse_cons, List.reverse_reverse]
          exact .above hfile hparent (by simp)

section Search
variable (disk : Disk) (inputs : List Path) (input : Path)

/-- Of different directories those are taken up that are not there. -/
theorem foldl_distinct {dir : List (List Component)} (hdir : dir.Nodup) (dirs : List (List Component)) :
    dir.foldl (fun dirs dir => if dirs.contains dir then dirs else dirs ++ [dir]) dirs =
      dirs ++ dir.filter (!dirs.contains ·) := by
  induction dir generalizing dirs with
  | nil => simp
  | cons d dir ih =>
    obtain ⟨hd, hdir⟩ := List.nodup_cons.mp hdir
    rw [List.foldl_cons, ih hdir]
    split
    · rename_i hcontains
      rw [List.filter_cons_of_neg (by simpa using hcontains)]
    · rename_i hcontains
      rw [List.filter_cons_of_pos (by simpa using hcontains), List.append_assoc, List.singleton_append]
      congr 2
      refine List.filter_congr fun e he => ?_
      have hne : e ≠ d := fun heq => hd (heq ▸ he)
      simp [hne]

theorem searchDirs_concat : searchDirs disk (inputs ++ [input]) =
    searchDirs disk inputs ++
      (Path.ancestors (startDir disk input)).filter (!(searchDirs disk inputs).contains ·) := by
  rw [← foldl_distinct (Path.nodup_ancestors _)]
  simp [searchDirs]

theorem mem_searchDirs {dir : List Component} :
    dir ∈ searchDirs disk inputs ↔ ∃ input ∈ inputs, dir ∈ Path.ancestors (startDir disk input) := by
  induction inputs using List.reverseRecOn with
  | nil => simp [searchDirs]
  | append_singleton inputs input ih =>
    rw [searchDirs_concat, List.mem_append, List.mem_filter, ih]
    simp only [List.mem_append, List.mem_singleton, or_and_right, exists_or, exists_eq_left]
    by_cases h : dir ∈ searchDirs disk inputs
    · simp [ih.mp h]
    · simp [h]

theorem nodup_searchDirs : (searchDirs disk inputs).Nodup := by
  induction inputs using List.reverseRecOn with
  | nil => exact List.nodup_nil
  | append_singleton inputs input ih =>
    rw [searchDirs_concat]
    refine List.nodup_append.mpr ⟨ih, (Path.nodup_ancestors _).filter _, ?_⟩
    rintro dir hdir _ hnew rfl
    simp [hdir] at hnew

/-- What the earlier inputs have led to is searched first. -/
theorem find?_searchDirs (p : List Component → Bool) : (searchDirs disk inputs).find? p =
    inputs.findSome? fun input => (Path.ancestors (startDir disk input)).find? p := by
  induction inputs using List.reverseRecOn with
  | nil => rfl
  | append_singleton inputs input ih =>
    rw [searchDirs_concat, List.find?_append, List.findSome?_append, ← ih, List.findSome?_singleton]
    cases hfound : (searchDirs disk inputs).find? p with
    | some dir => rfl
    | none =>
      rw [Option.none_or, Option.none_or, ← List.head?_filter, ← List.head?_filter, List.filter_filter]
      congr 1
      refine List.filter_congr fun dir _ => ?_
      by_cases hdir : dir ∈ searchDirs disk inputs
      · simp [List.find?_eq_none.mp hfound dir hdir]
      · simp [hdir]

/-- Another input keeps the order when its directories are all there, or all new. -/
theorem innermostFirst_concat : InnermostFirst (searchDirs disk (inputs ++ [input])) ↔
    InnermostFirst (searchDirs disk inputs) ∧ Joins disk inputs input := by
  have hclosed : ∀ dir ∈ searchDirs disk inputs, Path.ancestors dir ⊆ searchDirs disk inputs := by
    intro dir hdir above habove
    obtain ⟨other, hother, hdir⟩ := (mem_searchDirs disk inputs).mp hdir
    exact (mem_searchDirs disk inputs).mpr ⟨other, hother, Path.ancestors_subset hdir habove⟩
  have hjoins : Joins disk inputs input ↔ startDir disk input ∈ searchDirs disk inputs ∨
      ∀ dir ∈ searchDirs disk inputs, dir ∉ Path.ancestors (startDir disk input) := by
    simp only [Joins, mem_searchDirs, ← Path.disjoint_ancestors_iff, forall_exists_index, and_imp]
    exact or_congr_right ⟨fun h dir other hother => h other hother dir,
      fun h other hother dir => h dir other hother⟩
  have hnew : InnermostFirst ((Path.ancestors (startDir disk input)).filter
      (!(searchDirs disk inputs).contains ·)) := by
    refine ((Path.pairwise_ancestors _).filter _).imp fun {inner outer} h h' => ?_
    exact Nat.lt_asymm h.length_lt h'.length_lt
  rw [searchDirs_concat, InnermostFirst, List.pairwise_append, ← InnermostFirst, ← InnermostFirst,
    and_iff_right hnew, hjoins]
  refine and_congr_right fun _ => ⟨fun hcross => ?_, ?_⟩
  · by_cases hstart : startDir disk input ∈ searchDirs disk inputs
    · exact Or.inl hstart
    · refine Or.inr fun dir hdir habove => ?_
      obtain rfl | hascends := Path.mem_ancestors.mp habove
      · exact hstart hdir
      · refine hcross dir hdir (startDir disk input) ?_ hascends
        simp [Path.mem_ancestors, hstart]
  · rintro hall dir hdir inner hinner hascends
    obtain ⟨hinner, hfresh⟩ := List.mem_filter.mp hinner
    obtain hstart | hapart := hall
    · simp [hclosed _ hstart hinner] at hfresh
    · have habove : dir ∈ Path.ancestors inner := Path.mem_ancestors.mpr (Or.inr hascends)
      exact hapart dir hdir (Path.ancestors_subset hinner habove)

theorem forall_split_concat {α : Type} {P : List α → α → Prop} {xs : List α} {x : α} :
    (∀ before y after, xs ++ [x] = before ++ y :: after → P before y) ↔
      (∀ before y after, xs = before ++ y :: after → P before y) ∧ P xs x := by
  refine ⟨fun h => ⟨fun before y after hxs => ?_, h xs x [] rfl⟩, ?_⟩
  · exact h before y (after ++ [x]) (by simp [hxs])
  rintro ⟨hxs, hx⟩ before y after hsplit
  rcases List.eq_nil_or_concat' after with rfl | ⟨after, z, rfl⟩
  · obtain ⟨rfl, hy⟩ := List.append_inj' hsplit rfl
    obtain rfl := List.singleton_inj.mp hy
    exact hx
  · have hsame : xs ++ [x] = (before ++ y :: after) ++ [z] := by
      rw [hsplit, List.append_assoc, List.cons_append]
    exact hxs before y after (List.append_inj' hsame rfl).1

theorem innermostFirst_searchDirs : InnermostFirst (searchDirs disk inputs) ↔
    ∀ earlier input later, inputs = earlier ++ input :: later → Joins disk earlier input := by
  induction inputs using List.reverseRecOn with
  | nil => exact iff_of_true List.Pairwise.nil (by simp)
  | append_singleton inputs input ih => rw [innermostFirst_concat, ih, ← forall_split_concat]

/-- What comes in this order is passed over only when it does not hold the file. -/
theorem holdsFile_of_chosen? {dir inner : List Component}
    (horder : InnermostFirst (searchDirs disk inputs)) (hchosen : chosen? disk inputs = some dir)
    (hinner : inner ∈ searchDirs disk inputs) (hascends : Path.Ascends inner dir) :
    holdsFile disk inner = false := by
  obtain ⟨-, before, after, hsplit, hbefore⟩ := List.find?_eq_some_iff_append.mp hchosen
  rw [hsplit] at hinner
  rcases List.mem_append.mp hinner with hinner | hinner
  · simpa using hbefore inner hinner
  · exfalso
    rcases List.mem_cons.mp hinner with rfl | hinner
    · exact Nat.lt_irrefl _ hascends.length_lt
    · rw [InnermostFirst, hsplit] at horder
      exact List.rel_of_pairwise_cons (List.pairwise_append.mp horder).2.1 hinner hascends

theorem findSome?_eq_bind {α β : Type} (f : α → Option β) (xs : List α) :
    xs.findSome? f = (xs.find? fun a => (f a).isSome).bind f := by
  induction xs with
  | nil => rfl
  | cons a xs ih =>
    rw [List.findSome?_cons, List.find?_cons, ih]
    cases hf : f a with
    | none => rfl
    | some b => exact hf.symm

theorem find?_eq : find? disk inputs =
    (chosen? disk inputs).bind fun dir => disk.locate? (dir ++ [.name fileName]) :=
  findSome?_eq_bind _ _

end Search

/-- The directories that are searched are those where an input starts and all that are above them, each
once. For each input they come from the inside outward. For all inputs together they do so exactly when
every input starts in a directory that the inputs before it have led to, or meets none of these; then no
configuration is used while one lies further inside. In any case the configuration is that of the first
input which has one above it, and of these the innermost one. -/
theorem searchDirs_innermost_first_iff (disk : Disk) (inputs : List Path) :
    (∀ input ∈ inputs, StartsAt disk input (startDir disk input)) ∧
    (∀ dir, dir ∈ searchDirs disk inputs ↔ ∃ input ∈ inputs,
      dir = startDir disk input ∨ Path.Ascends (startDir disk input) dir) ∧
    (searchDirs disk inputs).Nodup ∧
    (InnermostFirst (searchDirs disk inputs) ↔
      ∀ earlier input later, inputs = earlier ++ input :: later → Joins disk earlier input) ∧
    (InnermostFirst (searchDirs disk inputs) → ∀ dir, chosen? disk inputs = some dir →
      ∀ inner ∈ searchDirs disk inputs, Path.Ascends inner dir → holdsFile disk inner = false) ∧
    chosen? disk inputs = (inputs.findSome? fun input =>
      (Path.ancestors (startDir disk input)).find? (holdsFile disk)) ∧
    load disk inputs none =
      match (chosen? disk inputs).bind fun dir =>
        (disk.locate? (dir ++ [.name fileName])).bind disk.at? with
      | some file => ofFile file
      | none => .ok {} := by
  refine ⟨fun input _ => startsAt_startDir disk input, fun dir => ?_, nodup_searchDirs disk inputs,
    innermostFirst_searchDirs disk inputs, fun horder dir hchosen inner hinner hascends => ?_,
    find?_searchDirs disk inputs _, ?_⟩
  · simp only [mem_searchDirs, Path.mem_ancestors]
  · exact holdsFile_of_chosen? disk inputs horder hchosen hinner hascends
  · rw [← Option.bind_assoc, ← find?_eq]
    rfl

/-- A file in `a` leads to `a` before a file in `a/b` leads to `a/b`, and the configuration in `a` is
used. -/
theorem searchDirs_innermost_first_iff_of_two_inputs :
    let config : String × FileTree := ("sqlfmt.toml", .file .empty)
    let inner : FileTree := .dir [config, ("y.sql", .file .empty)]
    let disk : Disk := ⟨.dir [("a", .dir [config, ("x.sql", .file .empty), ("b", inner)])], []⟩
    let inputs : List Path := [⟨"a/x.sql"⟩, ⟨"a/b/y.sql"⟩]
    chosen? disk inputs = some [.name "a"] ∧ holdsFile disk [.name "a", .name "b"] = true ∧
      ¬InnermostFirst (searchDirs disk inputs) := by
  intro config inner disk inputs
  have hdirs : searchDirs disk inputs = [[.name "a"], [], [.name "a", .name "b"]] := by
    decide +kernel
  have hchosen : chosen? disk inputs = some [.name "a"] := by decide +kernel
  have hholds : holdsFile disk [.name "a", .name "b"] = true := by decide +kernel
  refine ⟨hchosen, hholds, fun horder => ?_⟩
  obtain ⟨-, -, -, -, hnearest, -⟩ := searchDirs_innermost_first_iff disk inputs
  have hfalse := hnearest horder _ hchosen [.name "a", .name "b"] (by simp [hdirs]) (.single rfl)
  exact Bool.noConfusion (hholds.symm.trans hfalse)

end Config
end SqlLayout
