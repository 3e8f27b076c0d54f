import SqlLayout.Disk

/-! Files that are overwritten. Writing to a file that is there changes the bytes at its place and
nothing else: the other files keep theirs, and every path leads where it led before. -/

namespace SqlLayout
set_option autoImplicit false

namespace FileTree

/-- The bytes of a file; a directory has none. -/
def bytes? : FileTree → Option ByteArray
  | .file bytes => some bytes
  | .dir _ => none

theorem isDir_eq (t : FileTree) : t.isDir = t.bytes?.isNone := by
  cases t <;> rfl

theorem lookup_setEntry (n m : String) (t : FileTree) (entries : List (String × FileTree)) :
    (setEntry n t entries).lookup m = if m = n then some t else entries.lookup m := by
  induction entries with
  | nil => by_cases h : m = n <;> simp [setEntry, h]
  | cons entry entries ih =>
    obtain ⟨k, u⟩ := entry
    by_cases hk : k = n
    · subst hk
      by_cases hm : m = k
      · simp [setEntry, hm]
      · simp [setEntry, List.lookup_cons, beq_eq_false_iff_ne.mpr hm, hm]
    · rw [setEntry, if_neg hk]
      by_cases hm : m = k
      · subst hm
        simp [hk]
      · simp [List.lookup_cons, beq_eq_false_iff_ne.mpr hm, ih]

theorem at?_overwrite {t : FileTree} {place : List String} {old new : ByteArray}
    (h : t.at? place = some (.file old)) (other : List String) :
    ((t.put place (.file new)).at? other).map bytes? =
      if other = place then some (some new) else (t.at? other).map bytes? := by
  induction place generalizing t other with
  | nil =>
    obtain rfl : t = .file old := Option.some.inj h
    cases other with
    | nil => rfl
    | cons m ms => rfl
  | cons n ns ih =>
    cases t with
    | file bytes => cases h
    | dir entries =>
      obtain ⟨u, hu, hfile⟩ := Option.bind_eq_some_iff.mp h
      cases other with
      | nil => rfl
      | cons m ms =>
        rw [put, hu, Option.getD_some, at?, lookup_setEntry]
        by_cases hm : m = n
        · subst hm
          rw [if_pos rfl, Option.bind_some, ih hfile ms, at?, hu, Option.bind_some]
          simp
        · rw [if_neg hm, if_neg (by simp [hm]), at?]

end FileTree

namespace Disk

def fileAt? (d : Disk) (place : List String) : Option ByteArray :=
  (d.at? place).bind FileTree.bytes?

theorem read?_eq (d : Disk) (p : Path) : d.read? p = (d.resolve? p).bind d.fileAt? := by
  unfold read? find?
  cases d.resolve? p with
  | none => rfl
  | some place =>
    rw [Option.bind_some, Option.bind_some, fileAt?]
    cases d.at? place with
    | none => rfl
    | some t => cases t <;> rfl

theorem fileAt?_eq_some {d : Disk} {place : List String} {bytes : ByteArray} :
    d.fileAt? place = some bytes ↔ d.at? place = some (.file bytes) := by
  unfold fileAt?
  cases d.at? place with
  | none => simp
  | some t => cases t <;> simp [FileTree.bytes?]

/-- The disks have files and directories at the same places. -/
structure Alike (d d' : Disk) : Prop where
  cwd : d'.cwd = d.cwd
  dirs : ∀ place, (d'.at? place).map FileTree.isDir = (d.at? place).map FileTree.isDir

section Alike
variable {d d' : Disk}

theorem Alike.isDirAt (h : d.Alike d') (place : List String) :
    d'.isDirAt place = d.isDirAt place := by
  have hdirs := congrArg (Option.any id) (h.dirs place)
  rwa [Option.any_map, Option.any_map] at hdirs

theorem Alike.isSome (h : d.Alike d') (place : List String) :
    (d'.at? place).isSome = (d.at? place).isSome := by
  have hdirs := congrArg Option.isSome (h.dirs place)
  rwa [Option.isSome_map, Option.isSome_map] at hdirs

theorem Alike.follow (h : d.Alike d') (backwards : List String) (cs : List Component) :
    d'.follow backwards cs = d.follow backwards cs := by
  induction cs generalizing backwards with
  | nil => simp only [Disk.follow, h.isSome]
  | cons c cs ih =>
    simp only [Disk.follow, h.isDirAt]
    cases c <;> simp only [ih]

/-- Where a path leads is a matter of the files and directories that are there. -/
theorem Alike.resolve? (h : d.Alike d') (p : Path) : d'.resolve? p = d.resolve? p := by
  unfold Disk.resolve? locate?
  rw [h.cwd, h.follow]
  simp only [h.isDirAt]

end Alike

section Write
variable {d : Disk} {p : Path} {place : List String} {old : ByteArray}

theorem at?_write (hp : d.resolve? p = some place) (hold : d.fileAt? place = some old)
    (new : ByteArray) (other : List String) :
    ((d.write p new).at? other).map FileTree.bytes? =
      if other = place then some (some new) else (d.at? other).map FileTree.bytes? := by
  rw [write, hp]
  exact FileTree.at?_overwrite (fileAt?_eq_some.mp hold) other

theorem fileAt?_write (hp : d.resolve? p = some place) (hold : d.fileAt? place = some old)
    (new : ByteArray) (other : List String) :
    (d.write p new).fileAt? other = if other = place then some new else d.fileAt? other := by
  have hjoin : ∀ d : Disk, d.fileAt? other = ((d.at? other).map FileTree.bytes?).join := by
    intro d
    unfold fileAt?
    cases d.at? other <;> rfl
  rw [hjoin, at?_write hp hold new, hjoin]
  split <;> rfl

theorem resolve?_write (hp : d.resolve? p = some place) (hold : d.fileAt? place = some old)
    (new : ByteArray) (q : Path) : (d.write p new).resolve? q = d.resolve? q := by
  apply Alike.resolve?
  refine ⟨by rw [write, hp], fun other => ?_⟩
  have hdirs : ∀ d : Disk, (d.at? other).map FileTree.isDir =
      ((d.at? other).map FileTree.bytes?).map Option.isNone := by
    intro d
    rw [Option.map_map]
    exact congrFun (congrArg Option.map (funext FileTree.isDir_eq)) _
  rw [hdirs, at?_write hp hold new, hdirs]
  split
  · rename_i hother
    rw [hother, fileAt?_eq_some.mp hold]
    rfl
  · rfl

end Write

end Disk
end SqlLayout
