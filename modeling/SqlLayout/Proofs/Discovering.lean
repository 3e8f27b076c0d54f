import SqlLayout.Discovery
import SqlLayout.Proofs.Naming

/-! The files that discovery finds. Below a directory among the inputs it finds the SQL files that names
lead to, as long as none of these names is hidden or excluded; an input that is an SQL file is found in any
case. What is found comes in the order of paths, and each path once, however it is spelled. -/

namespace SqlLayout
set_option autoImplicit false

namespace FileTree

/-- The entries of every directory have different names, and each may be called so. -/
inductive WellNamed : FileTree → Prop
  | file (bytes : ByteArray) : WellNamed (.file bytes)
  | dir {entries : List (String × FileTree)} (hnodup : (entries.map Prod.fst).Nodup)
      (hnames : ∀ e ∈ entries, Path.IsName e.1) (hinner : ∀ e ∈ entries, e.2.WellNamed) :
      WellNamed (.dir entries)

theorem at?_append (t : FileTree) (place more : List String) :
    t.at? (place ++ more) = (t.at? place).bind (at? more) := by
  induction place generalizing t with
  | nil => rfl
  | cons n ns ih =>
    cases t with
    | file bytes => rfl
    | dir entries =>
      rw [List.cons_append, at?, at?, Option.bind_assoc]
      exact congrArg _ (funext ih)

/-- Where names are different, look-up gives just what is there. -/
theorem lookup_eq_some_iff_mem {entries : List (String × FileTree)}
    (hnodup : (entries.map Prod.fst).Nodup) {n : String} {t : FileTree} :
    entries.lookup n = some t ↔ (n, t) ∈ entries := by
  rw [List.lookup_eq_some_iff]
  constructor
  · rintro ⟨before, after, rfl, -⟩
    simp
  · intro h
    obtain ⟨before, after, rfl⟩ := List.append_of_mem h
    refine ⟨before, after, rfl, fun e he => ?_⟩
    rw [List.map_append, List.nodup_append] at hnodup
    rw [bne_iff_ne]
    rintro rfl
    exact hnodup.2.2 e.1 (List.mem_map_of_mem he) e.1 (by simp) rfl

section WellNamed
variable {t u : FileTree} {names : List String}

theorem WellNamed.entry {entries : List (String × FileTree)} {n : String}
    (h : (FileTree.dir entries).WellNamed) (hu : entries.lookup n = some u) :
    Path.IsName n ∧ u.WellNamed := by
  cases h with
  | dir hnodup hnames hinner =>
    have hmem := (lookup_eq_some_iff_mem hnodup).mp hu
    exact ⟨hnames _ hmem, hinner _ hmem⟩

theorem WellNamed.inner (ht : t.WellNamed) (h : t.at? names = some u) :
    (∀ n ∈ names, Path.IsName n) ∧ u.WellNamed := by
  induction names generalizing t with
  | nil =>
    obtain rfl : t = u := Option.some.inj h
    exact ⟨by simp, ht⟩
  | cons n ns ih =>
    cases t with
    | file bytes => cases h
    | dir entries =>
      obtain ⟨v, hv, hu⟩ := Option.bind_eq_some_iff.mp h
      obtain ⟨hn, hwell⟩ := ht.entry hv
      obtain ⟨hns, hwell⟩ := ih hwell hu
      exact ⟨List.forall_mem_cons.mpr ⟨hn, hns⟩, hwell⟩

end WellNamed

end FileTree

namespace Disk
variable {d : Disk} {p : Path} {names place : List String} {entries : List (String × FileTree)}

theorem follow_append {backwards : List String} {cs : List Component}
    (h : d.follow backwards cs = some place) (more : List Component) :
    d.follow backwards (cs ++ more) = d.follow place.reverse more := by
  induction cs generalizing backwards with
  | nil =>
    simp only [follow] at h
    split at h
    · rw [← Option.some.inj h, List.reverse_reverse]
      rfl
    · cases h
  | cons c cs ih =>
    simp only [follow] at h
    simp only [List.cons_append, follow]
    split at h
    · rename_i hdir
      rw [if_pos hdir]
      cases c <;> exact ih h
    · cases h

/-- Names lead from a place to the place below it, when something is there. -/
theorem follow_names (d : Disk) (place names : List String) :
    d.follow place.reverse (names.map Component.name) =
      if (d.at? (place ++ names)).isSome then some (place ++ names) else none := by
  induction names generalizing place with
  | nil => rw [List.map_nil, follow, List.reverse_reverse, List.append_nil]
  | cons n ns ih =>
    rw [List.map_cons, follow, List.reverse_reverse]
    by_cases hdir : d.isDirAt place = true
    · rw [if_pos hdir]
      have hstep := ih (place ++ [n])
      rwa [List.reverse_append, List.append_assoc] at hstep
    · -- nothing lies below a place that is no directory
      have hnone : d.at? (place ++ n :: ns) = none := by
        rw [Disk.at?, FileTree.at?_append]
        unfold isDirAt Disk.at? at hdir
        cases hplace : d.root.at? place with
        | none => rfl
        | some t =>
          cases t with
          | file bytes => rfl
          | dir entries =>
            rw [hplace] at hdir
            exact absurd rfl hdir
      rw [if_neg hdir, hnone]
      rfl

theorem resolve?_of_find? {t : FileTree} (h : d.find? p = some t) :
    p.spelling ≠ "" ∧ ∃ place, d.locate? p.components = some place ∧ d.at? place = some t := by
  obtain ⟨place, hplace, ht⟩ := Option.bind_eq_some_iff.mp h
  unfold resolve? at hplace
  split at hplace
  · cases hplace
  · rename_i hne
    exact ⟨hne, place, (Option.filter_eq_some_iff.mp hplace).1, ht⟩

/-- What stands at some names below a directory is what the extended path leads to. -/
theorem find?_extend (hp : d.find? p = some (.dir entries)) (hne : names ≠ [])
    (hnames : ∀ n ∈ names, Path.IsName n) :
    d.find? (p.extend names) = (FileTree.dir entries).at? names := by
  obtain ⟨hspelling, place, hlocate, hplace⟩ := resolve?_of_find? hp
  have hat : d.at? (place ++ names) = (FileTree.dir entries).at? names := by
    have hplace : d.root.at? place = some (.dir entries) := hplace
    rw [Disk.at?, FileTree.at?_append, hplace, Option.bind_some]
  have hresolve : d.resolve? (p.extend names) =
      if (d.at? (place ++ names)).isSome then some (place ++ names) else none := by
    rw [resolve?, if_neg (Path.extend_ne_empty hspelling names),
      Path.components_extend hspelling hnames, Path.not_asksForDirectory_extend hspelling hne hnames,
      locate?, follow_append hlocate, follow_names]
    split <;> rfl
  rw [find?, hresolve, ← hat]
  cases h : d.at? (place ++ names) with
  | none => rfl
  | some t => exact h

/-- The path leads to a file whose name ends as that of an SQL file does. -/
def IsSqlFile (d : Disk) (p : Path) : Prop :=
  (∃ bytes, d.find? p = some (.file bytes)) ∧ ∃ name, p.fileName? = some name ∧ Path.HasSqlExtension name

theorem isSqlFile_iff (h : ∃ bytes, d.find? p = some (.file bytes)) :
    d.IsSqlFile p ↔ p.fileName?.any Path.isSqlName = true := by
  rw [IsSqlFile, and_iff_right h, Option.any_eq_true]
  simp only [Path.isSqlName_iff]

theorem isSqlFile_extend (hp : d.find? p = some (.dir entries)) (hne : names ≠ [])
    (hnames : ∀ n ∈ names, Path.IsName n) :
    d.IsSqlFile (p.extend names) ↔ (∃ bytes, (FileTree.dir entries).at? names = some (.file bytes)) ∧
      ∃ name, names.getLast? = some name ∧ Path.isSqlName name = true := by
  rw [IsSqlFile, find?_extend hp hne hnames, Path.fileName?_extend (resolve?_of_find? hp).1 hne hnames]
  simp only [Path.isSqlName_iff]

end Disk

namespace Discovery

/-- The name is not passed over in a directory: it does not begin with a dot, and it matches none of the
patterns that are well formed. -/
structure Shown (exclude : List String) (name : String) : Prop where
  visible : name.toList.head? ≠ some '.'
  matchless : ∀ pattern ∈ exclude, ∀ parts, Glob.parse? pattern = some parts →
    Glob.matchParts parts name.toList = false

theorem isSkipped_eq_false_iff {exclude : List String} {name : String} :
    isSkipped exclude name = false ↔ Shown exclude name := by
  rw [isSkipped, Bool.or_eq_false_iff, decide_eq_false_iff_not, List.any_eq_false]
  constructor
  · rintro ⟨hvisible, hmatch⟩
    refine ⟨hvisible, fun pattern hpattern parts hparts => ?_⟩
    have h := hmatch pattern hpattern
    rw [Glob.isMatch, hparts] at h
    exact Bool.eq_false_iff.mpr h
  · rintro ⟨hvisible, hmatch⟩
    refine ⟨hvisible, fun pattern hpattern h => ?_⟩
    obtain ⟨parts, hparts, h⟩ := (Option.any_eq_true _ _).mp h
    rw [hmatch pattern hpattern parts hparts] at h
    cases h

/-- What a list of inputs stands for: an SQL file among them, or one that shown names lead to from a
directory among them. -/
inductive Found (disk : Disk) (exclude : List String) (inputs : List Path) : Path → Prop
  | input {p : Path} (hp : p ∈ inputs) (hfile : disk.IsSqlFile p) : Found disk exclude inputs p
  | below {dir : Path} {entries : List (String × FileTree)} {names : List String} (hdir : dir ∈ inputs)
      (hentries : disk.find? dir = some (.dir entries)) (hne : names ≠ [])
      (hnames : ∀ n ∈ names, Path.IsName n ∧ Shown exclude n)
      (hfile : disk.IsSqlFile (dir.extend names)) : Found disk exclude inputs (dir.extend names)

section Walk
variable {exclude : List String} {last : String} {names : List String}

/-- Names that nothing hides lead from a tree to an SQL file. The tree itself is called `last`. -/
structure Leads (exclude : List String) (t : FileTree) (last : String) (names : List String) : Prop where
  file : ∃ bytes, t.at? names = some (.file bytes)
  shown : ∀ n ∈ names, Shown exclude n
  sql : Path.isSqlName (names.getLast?.getD last) = true

theorem leads_file_iff {bytes : ByteArray} :
    Leads exclude (.file bytes) last names ↔ names = [] ∧ Path.isSqlName last = true := by
  constructor
  · rintro ⟨⟨b, hfile⟩, -, hsql⟩
    cases names with
    | nil => exact ⟨rfl, hsql⟩
    | cons n ns => cases hfile
  · rintro ⟨rfl, hsql⟩
    exact ⟨⟨bytes, rfl⟩, by simp, hsql⟩

theorem leads_dir_iff {entries : List (String × FileTree)} (hnodup : (entries.map Prod.fst).Nodup) :
    Leads exclude (.dir entries) last names ↔
      ∃ e ∈ entries, ∃ ns, names = e.1 :: ns ∧ Shown exclude e.1 ∧ Leads exclude e.2 e.1 ns := by
  constructor
  · rintro ⟨⟨bytes, hfile⟩, hshown, hsql⟩
    cases names with
    | nil => cases hfile
    | cons n ns =>
      obtain ⟨t, ht, hfile⟩ := Option.bind_eq_some_iff.mp hfile
      obtain ⟨hn, hns⟩ := List.forall_mem_cons.mp hshown
      rw [List.getLast?_cons, Option.getD_some] at hsql
      exact ⟨(n, t), (FileTree.lookup_eq_some_iff_mem hnodup).mp ht, ns, rfl, hn, ⟨bytes, hfile⟩, hns, hsql⟩
  · rintro ⟨⟨n, t⟩, he, ns, rfl, hn, ⟨bytes, hfile⟩, hns, hsql⟩
    refine ⟨⟨bytes, ?_⟩, List.forall_mem_cons.mpr ⟨hn, hns⟩, ?_⟩
    · exact Option.bind_eq_some_iff.mpr ⟨t, (FileTree.lookup_eq_some_iff_mem hnodup).mpr he, hfile⟩
    · rwa [List.getLast?_cons, Option.getD_some]

theorem mem_walk {dir q : Path} {entries : List (String × FileTree)} :
    q ∈ walk exclude dir entries ↔
      ∃ e ∈ entries, Shown exclude e.1 ∧ q ∈ visit exclude (dir.join e.1) e.1 e.2 := by
  induction entries with
  | nil => simp [walk]
  | cons e entries ih =>
    rw [walk, List.mem_append, ih, List.exists_mem_cons_iff]
    refine or_congr_left ?_
    cases h : isSkipped exclude e.1 with
    | false => simp [isSkipped_eq_false_iff.mp h]
    | true => simp [← isSkipped_eq_false_iff, h]

theorem mem_visit {t : FileTree} (ht : t.WellNamed) {path q : Path} :
    q ∈ visit exclude path last t ↔ ∃ names, Leads exclude t last names ∧ q = path.extend names := by
  induction ht generalizing path last with
  | file bytes =>
    rw [visit]
    simp only [leads_file_iff]
    split
    · rename_i hsql
      simp [hsql, Path.extend]
    · rename_i hsql
      simp [hsql]
  | dir hnodup hnames hinner ih =>
    rw [visit, mem_walk]
    simp only [leads_dir_iff hnodup]
    constructor
    · rintro ⟨e, he, hshown, hq⟩
      obtain ⟨ns, hleads, hq⟩ := (ih e he).mp hq
      exact ⟨e.1 :: ns, ⟨e, he, ns, rfl, hshown, hleads⟩, hq⟩
    · rintro ⟨-, ⟨e, he, ns, rfl, hshown, hleads⟩, hq⟩
      exact ⟨e, he, hshown, (ih e he).mpr ⟨ns, hleads, hq⟩⟩

end Walk

section Inputs
variable {disk : Disk} {exclude : List String} {inputs : List Path} {input q : Path}

theorem wellNamed_of_find? (hdisk : disk.root.WellNamed) {t : FileTree} (h : disk.find? input = some t) :
    t.WellNamed := by
  obtain ⟨-, place, -, ht⟩ := Disk.resolve?_of_find? h
  exact (hdisk.inner ht).2

theorem mem_walk_input (hdisk : disk.root.WellNamed) {entries : List (String × FileTree)}
    (h : disk.find? input = some (.dir entries)) :
    q ∈ walk exclude input entries ↔ ∃ names, names ≠ [] ∧
      (∀ n ∈ names, Path.IsName n ∧ Shown exclude n) ∧ disk.IsSqlFile (input.extend names) ∧
        q = input.extend names := by
  have hwell := wellNamed_of_find? hdisk h
  have hvisit : q ∈ walk exclude input entries ↔ q ∈ visit exclude input "" (.dir entries) := by
    rw [visit]
  rw [hvisit, mem_visit hwell]
  constructor
  · rintro ⟨names, ⟨⟨bytes, hfile⟩, hshown, hsql⟩, rfl⟩
    have hnames := (hwell.inner hfile).1
    have hne : names ≠ [] := by
      rintro rfl
      cases hfile
    obtain ⟨names, last, rfl⟩ := (List.eq_nil_or_concat' names).resolve_left hne
    rw [List.getLast?_concat] at hsql
    exact ⟨_, hne, fun n hn => ⟨hnames n hn, hshown n hn⟩, (Disk.isSqlFile_extend h hne hnames).mpr
      ⟨⟨bytes, hfile⟩, last, List.getLast?_concat, hsql⟩, rfl⟩
  · rintro ⟨names, hne, hnames, hfile, rfl⟩
    obtain ⟨hfile, last, hlast, hsql⟩ :=
      (Disk.isSqlFile_extend h hne fun n hn => (hnames n hn).1).mp hfile
    exact ⟨names, ⟨hfile, fun n hn => (hnames n hn).2, by rwa [hlast]⟩, rfl⟩

theorem mem_ofInput (hdisk : disk.root.WellNamed) :
    q ∈ ofInput disk exclude input ↔ Found disk exclude [input] q := by
  unfold ofInput
  constructor
  · intro hq
    split at hq
    · rename_i bytes hfile
      split at hq
      · rename_i hsql
        obtain rfl := List.mem_singleton.mp hq
        exact .input (List.mem_singleton_self q) ((Disk.isSqlFile_iff ⟨bytes, hfile⟩).mpr hsql)
      · cases hq
    · rename_i entries hdir
      obtain ⟨names, hne, hnames, hfile, rfl⟩ := (mem_walk_input hdisk hdir).mp hq
      exact .below (List.mem_singleton_self input) hdir hne hnames hfile
    · cases hq
  · rintro (⟨hp, hfile⟩ | ⟨hdir, hentries, hne, hnames, hfile⟩)
    · obtain rfl := List.mem_singleton.mp hp
      obtain ⟨bytes, hfind⟩ := hfile.1
      rw [hfind]
      simp [(Disk.isSqlFile_iff hfile.1).mp hfile]
    · obtain rfl := List.mem_singleton.mp hdir
      rw [hentries]
      exact (mem_walk_input hdisk hentries).mpr ⟨_, hne, hnames, hfile, rfl⟩

theorem Found.mono (h : Found disk exclude inputs q) {more : List Path} (hmore : inputs ⊆ more) :
    Found disk exclude more q := by
  cases h with
  | input hp hfile => exact .input (hmore hp) hfile
  | below hdir hentries hne hnames hfile => exact .below (hmore hdir) hentries hne hnames hfile

theorem found_iff : Found disk exclude inputs q ↔ ∃ p ∈ inputs, Found disk exclude [p] q := by
  constructor
  · rintro (⟨hp, hfile⟩ | ⟨hdir, hentries, hne, hnames, hfile⟩)
    · exact ⟨q, hp, .input (List.mem_singleton_self q) hfile⟩
    · exact ⟨_, hdir, .below (List.mem_singleton_self _) hentries hne hnames hfile⟩
  · rintro ⟨p, hp, hfound⟩
    exact hfound.mono (List.cons_subset.mpr ⟨hp, List.nil_subset _⟩)

theorem mem_flatMap_ofInput (hdisk : disk.root.WellNamed) :
    q ∈ inputs.flatMap (ofInput disk exclude) ↔ Found disk exclude inputs q := by
  rw [List.mem_flatMap, found_iff]
  simp only [mem_ofInput hdisk]

end Inputs

section Insertion
variable {p q : Path} {ps found : List Path}

theorem mem_insert (h : q ∈ insert p found) : q = p ∨ q ∈ found := by
  induction found with
  | nil => exact .inl (List.mem_singleton.mp h)
  | cons r found ih =>
    rw [insert] at h
    split at h
    · exact List.mem_cons.mp h
    · exact .inr h
    · rcases List.mem_cons.mp h with rfl | h
      · exact .inr List.mem_cons_self
      · exact (ih h).imp_right (List.mem_cons_of_mem r)

/-- What a list of paths holds in order: of paths with the same components, one that was found. -/
structure Holds (ps found : List Path) : Prop where
  ordered : found.Pairwise fun p q => p.compare q = .lt
  sound : ∀ q ∈ found, q ∈ ps
  complete : ∀ p ∈ ps, ∃ q ∈ found, q.components = p.components

theorem subset_insert (p : Path) (found : List Path) : found ⊆ insert p found := by
  induction found with
  | nil => exact List.nil_subset _
  | cons r found ih =>
    rw [insert]
    split
    · exact List.subset_cons_self _ _
    · exact List.Subset.refl _
    · exact List.cons_subset_cons r ih

theorem exists_mem_insert (p : Path) (found : List Path) :
    ∃ q ∈ insert p found, q.components = p.components := by
  induction found with
  | nil => exact ⟨p, List.mem_singleton_self p, rfl⟩
  | cons r found ih =>
    rw [insert]
    split
    · exact ⟨p, List.mem_cons_self, rfl⟩
    · rename_i heq
      exact ⟨r, List.mem_cons_self, (Path.compare_eq_iff.mp heq).symm⟩
    · obtain ⟨q, hq, hcomponents⟩ := ih
      exact ⟨q, List.mem_cons_of_mem r hq, hcomponents⟩

theorem pairwise_insert (h : found.Pairwise fun p q => p.compare q = .lt) (p : Path) :
    (insert p found).Pairwise fun p q => p.compare q = .lt := by
  induction found with
  | nil => exact List.pairwise_singleton _ p
  | cons r found ih =>
    obtain ⟨hr, hfound⟩ := List.pairwise_cons.mp h
    rw [insert]
    split
    · rename_i hlt
      refine List.pairwise_cons.mpr ⟨List.forall_mem_cons.mpr ⟨hlt, fun q hq => ?_⟩, h⟩
      exact Path.compare_lt_trans hlt (hr q hq)
    · exact h
    · rename_i hgt
      refine List.pairwise_cons.mpr ⟨fun q hq => ?_, ih hfound⟩
      rcases mem_insert hq with rfl | hq
      · exact Path.compare_gt_iff.mp hgt
      · exact hr q hq

theorem Holds.insert (h : Holds ps found) (p : Path) :
    Holds (ps ++ [p]) (Discovery.insert p found) where
  ordered := pairwise_insert h.ordered p
  sound := by
    intro q hq
    rcases mem_insert hq with rfl | hq
    · simp
    · exact List.mem_append_left _ (h.sound q hq)
  complete := by
    intro r hr
    rcases List.mem_append.mp hr with hr | hr
    · obtain ⟨q, hq, hcomponents⟩ := h.complete r hr
      exact ⟨q, subset_insert p found hq, hcomponents⟩
    · obtain rfl := List.mem_singleton.mp hr
      exact exists_mem_insert r found

theorem Holds.foldl (h : Holds ps found) (more : List Path) :
    Holds (ps ++ more) (more.foldl (fun found p => Discovery.insert p found) found) := by
  induction more generalizing ps found with
  | nil => rwa [List.append_nil]
  | cons p more ih =>
    have hrest := ih (h.insert p)
    rwa [List.append_assoc] at hrest

theorem sqlFiles_holds (disk : Disk) (exclude : List String) (inputs : List Path) :
    Holds (inputs.flatMap (ofInput disk exclude)) (sqlFiles disk exclude inputs) := by
  have hnil : Holds [] [] := ⟨List.Pairwise.nil, by simp, by simp⟩
  exact hnil.foldl _

end Insertion

/-- Discovery is exact: the paths come in strict order, what is listed is found, and whatever is found is
listed in one of its spellings. -/
theorem sqlFiles_exact {disk : Disk} (hdisk : disk.root.WellNamed) (exclude : List String)
    (inputs : List Path) :
    (sqlFiles disk exclude inputs).Pairwise (fun p q => p.compare q = .lt) ∧
      (∀ q ∈ sqlFiles disk exclude inputs, Found disk exclude inputs q) ∧
      ∀ p : Path, (∃ q ∈ sqlFiles disk exclude inputs, q.components = p.components) ↔
        ∃ q, Found disk exclude inputs q ∧ q.components = p.components := by
  have hholds := sqlFiles_holds disk exclude inputs
  have hsound : ∀ q ∈ sqlFiles disk exclude inputs, Found disk exclude inputs q :=
    fun q hq => (mem_flatMap_ofInput hdisk).mp (hholds.sound q hq)
  refine ⟨hholds.ordered, hsound, fun p => ⟨?_, ?_⟩⟩
  · rintro ⟨q, hq, hcomponents⟩
    exact ⟨q, hsound q hq, hcomponents⟩
  · rintro ⟨r, hr, hcomponents⟩
    obtain ⟨q, hq, hsame⟩ := hholds.complete r ((mem_flatMap_ofInput hdisk).mpr hr)
    exact ⟨q, hq, hsame.trans hcomponents⟩

theorem sqlFiles_exact_of_overlapping_inputs :
    let sub : FileTree := .dir [("B.SQL", .file .empty), (".h.sql", .file .empty),
      ("skip", .dir [("c.sql", .file .empty)]), ("n.txt", .file .empty)]
    let disk : Disk := ⟨.dir [("sub", sub), ("a.sql", .file .empty)], []⟩
    disk.root.WellNamed ∧
      ∀ p : Path, (∃ q, Found disk ["sk*"] [⟨"sub//B.SQL"⟩, ⟨"."⟩, ⟨"./sub"⟩] q ∧
        q.components = p.components) ↔
        p.components ∈ [[.current, .name "a.sql"], [.current, .name "sub", .name "B.SQL"],
          [.name "sub", .name "B.SQL"]] := by
  intro sub disk
  have hfile : ∀ e ∈ [("c.sql", FileTree.file .empty)], e.2.WellNamed := by
    simp [FileTree.WellNamed.file]
  have hsub : sub.WellNamed := by
    refine .dir (by decide +kernel) (by decide +kernel) ?_
    simp only [List.forall_mem_cons]
    exact ⟨.file _, .file _, .dir (by decide +kernel) (by decide +kernel) hfile, .file _, by simp⟩
  have hdisk : disk.root.WellNamed := by
    refine .dir (by decide +kernel) (by decide +kernel) ?_
    simp only [List.forall_mem_cons]
    exact ⟨hsub, .file _, by simp⟩
  have hfiles : sqlFiles disk ["sk*"] [⟨"sub//B.SQL"⟩, ⟨"."⟩, ⟨"./sub"⟩] =
      [⟨"./a.sql"⟩, ⟨"./sub/B.SQL"⟩, ⟨"sub//B.SQL"⟩] := by
    decide +kernel
  have hcomponents : [(⟨"./a.sql"⟩ : Path), ⟨"./sub/B.SQL"⟩, ⟨"sub//B.SQL"⟩].map Path.components =
      [[.current, .name "a.sql"], [.current, .name "sub", .name "B.SQL"],
        [.name "sub", .name "B.SQL"]] := by
    decide +kernel
  obtain ⟨-, -, hexact⟩ := sqlFiles_exact hdisk ["sk*"] [⟨"sub//B.SQL"⟩, ⟨"."⟩, ⟨"./sub"⟩]
  refine ⟨hdisk, fun p => ?_⟩
  rw [← hexact p, hfiles, ← hcomponents, List.mem_map]

end Discovery
end SqlLayout
