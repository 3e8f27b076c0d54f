import Mathlib.Data.List.Basic
import Mathlib.Data.List.TakeDrop
import Mathlib.Data.List.TakeWhile
import SqlLayout.Path

/-! Paths and the names in them. Paths are in a linear order, in which those with the same components are
equal however they are spelled. A name that is joined to a path becomes its last component, whether or not
the path ends with a separator. -/

namespace SqlLayout
set_option autoImplicit false

namespace Component

/-- The name of a component; the other components have none. -/
def text : Component → String
  | .name s => s
  | _ => ""

theorem compare_eq : compare = compareLex (compareOn rank) (compareOn text) := by
  funext a b
  cases a <;> cases b <;> rfl

instance : Std.TransCmp compare := compare_eq ▸ inferInstance

instance : Std.LawfulEqCmp compare where
  compare_self := Std.ReflCmp.compare_self
  eq_of_compare {a b} h := by
    rw [compare_eq, compareLex, Ordering.then_eq_eq] at h
    obtain ⟨hrank, htext⟩ := h
    have hrank : a.rank = b.rank := Std.LawfulEqOrd.eq_of_compare hrank
    have htext : a.text = b.text := Std.LawfulEqOrd.eq_of_compare htext
    cases a <;> cases b <;> simp_all [rank, text]

end Component

namespace Path

theorem compareComponents_eq : compareComponents = List.compareLex Component.compare := by
  funext as bs
  induction as generalizing bs with
  | nil => cases bs <;> rfl
  | cons a as ih =>
    cases bs with
    | nil => rfl
    | cons b bs =>
      rw [compareComponents, ih, List.compareLex]
      cases a.compare b <;> rfl

theorem compare_eq_iff {p q : Path} : p.compare q = .eq ↔ p.components = q.components := by
  rw [compare, compareComponents_eq]
  exact Std.LawfulEqCmp.compare_eq_iff_eq

theorem compare_lt_trans {p q r : Path} (h : p.compare q = .lt) (h' : q.compare r = .lt) :
    p.compare r = .lt := by
  rw [compare, compareComponents_eq] at *
  exact Std.TransCmp.lt_trans h h'

theorem compare_gt_iff {p q : Path} : p.compare q = .gt ↔ q.compare p = .lt := by
  rw [compare, compare, compareComponents_eq]
  exact Std.OrientedCmp.gt_iff_lt

/-- What a file or directory may be called. -/
structure IsName (name : String) : Prop where
  ne_empty : name ≠ ""
  ne_current : name ≠ "."
  ne_parent : name ≠ ".."
  plain : '/' ∉ name.toList

instance (name : String) : Decidable (IsName name) :=
  decidable_of_iff (name ≠ "" ∧ name ≠ "." ∧ name ≠ ".." ∧ '/' ∉ name.toList)
    ⟨fun h => ⟨h.1, h.2.1, h.2.2.1, h.2.2.2⟩,
      fun h => ⟨h.ne_empty, h.ne_current, h.ne_parent, h.plain⟩⟩

/-- The path of what lies at some names below a directory. -/
def extend (p : Path) (names : List String) : Path := names.foldl join p

section Segments

theorem segments_go_ne_nil (cs : List Char) : segments.go cs ≠ [] := by
  fun_induction segments.go cs <;> simp_all

theorem segments_go_append (xs ys : List Char) :
    segments.go (xs ++ '/' :: ys) = segments.go xs ++ segments.go ys := by
  fun_induction segments.go xs with
  | case1 => rfl
  | case2 cs ih => rw [List.cons_append, segments.go, ih, List.cons_append]
  | case3 c cs hc ih =>
    obtain ⟨first, rest, hsplit⟩ := List.exists_cons_of_ne_nil (segments_go_ne_nil cs)
    rw [List.cons_append, segments.go, ih, hsplit]
    · rfl
    · exact hc

theorem segments_go_plain {cs : List Char} (h : '/' ∉ cs) : segments.go cs = [cs] := by
  induction cs with
  | nil => rfl
  | cons c cs ih =>
    obtain ⟨hc, hcs⟩ := not_or.mp (mt List.mem_cons.mpr h)
    rw [segments.go, ih hcs]
    · rfl
    · exact fun heq => hc heq.symm

/-- Behind the segments that decide on the components of a path, a name becomes the last segment. -/
theorem exists_segments {p : Path} (hp : p.spelling ≠ "") :
    ∃ segs : List String, segs ≠ [] ∧
      (segments p.spelling = segs ∨ segments p.spelling = segs ++ [""]) ∧
      ∀ name, IsName name → segments (p.join name).spelling = segs ++ [name] := by
  obtain ⟨pre, last, hlast⟩ := (List.eq_nil_or_concat p.spelling.toList).resolve_left
    fun hnil => hp (String.toList_eq_nil_iff.mp hnil)
  rw [List.concat_eq_append] at hlast
  have hname : ∀ name, IsName name → (segments.go name.toList).map String.ofList = [name] := by
    intro name h
    rw [segments_go_plain h.plain]
    simp
  by_cases hslash : last = '/'
  · refine ⟨(segments.go pre).map String.ofList, by simpa using segments_go_ne_nil pre, Or.inr ?_, ?_⟩
    · rw [segments, hlast, hslash, segments_go_append, List.map_append]
      rfl
    · intro name h
      have hjoin : p.join name = ⟨p.spelling ++ name⟩ := by simp [join, hlast, hslash]
      rw [hjoin, segments, String.toList_append, hlast, hslash, List.append_assoc, List.singleton_append,
        segments_go_append, List.map_append, hname name h]
  · refine ⟨segments p.spelling, by simpa [segments] using segments_go_ne_nil _, Or.inl rfl, ?_⟩
    intro name h
    have hjoin : p.join name = ⟨p.spelling ++ "/" ++ name⟩ := by
      rw [join, hlast, List.getLast?_concat]
      split
      · simp_all
      · simp_all
      · rfl
    rw [hjoin, segments, String.toList_append, String.toList_append, List.append_assoc]
    show (segments.go (p.spelling.toList ++ '/' :: name.toList)).map String.ofList = _
    rw [segments_go_append, List.map_append, hname name h]
    rfl

theorem spelling_join (p : Path) (name : String) :
    ∃ sep, (p.join name).spelling = p.spelling ++ (sep ++ name) := by
  unfold join
  split
  · rename_i hnil
    refine ⟨"", ?_⟩
    rw [String.toList_eq_nil_iff.mp (List.getLast?_eq_none_iff.mp hnil)]
    simp
  · exact ⟨"", by simp⟩
  · exact ⟨"/", by simp [String.append_assoc]⟩

variable {p : Path} {name : String}

theorem join_ne_empty (hp : p.spelling ≠ "") (name : String) : (p.join name).spelling ≠ "" := by
  obtain ⟨sep, hjoin⟩ := p.spelling_join name
  rw [hjoin]
  simp [hp]

/-- The component that a segment between separators stands for. -/
def named (segment : String) : Option Component :=
  if segment = "" || segment = "." then none
  else if segment = ".." then some .parent
  else some (.name segment)

theorem named_of_isName (h : IsName name) : named name = some (.name name) := by
  simp [named, h.ne_empty, h.ne_current, h.ne_parent]

theorem components_eq (p : Path) : p.components =
    (if p.spelling.toList.head? = some '/' then [.root]
      else if (segments p.spelling).head? = some "." then [.current] else []) ++
      (segments p.spelling).filterMap named := by
  unfold components
  by_cases habsolute : p.spelling.toList.head? = some '/'
  · simp only [habsolute, if_true]
    rfl
  · by_cases hcurrent : (segments p.spelling).head? = some "."
    · simp only [habsolute, hcurrent, if_false, if_true]
      rfl
    · simp only [habsolute, hcurrent, if_false]
      rfl

theorem components_join (hp : p.spelling ≠ "") (hname : IsName name) :
    (p.join name).components = p.components ++ [.name name] := by
  obtain ⟨segs, hne, hsegs, hjoin⟩ := exists_segments hp
  obtain ⟨sep, hspelling⟩ := p.spelling_join name
  have habsolute : (p.join name).spelling.toList.head? = p.spelling.toList.head? := by
    rw [hspelling, String.toList_append]
    exact List.head?_append_of_ne_nil _ (mt String.toList_eq_nil_iff.mp hp)
  have hhead : (segments p.spelling).head? = segs.head? := by
    rcases hsegs with h | h <;> rw [h]
    exact List.head?_append_of_ne_nil _ hne
  have hrest : (segments p.spelling).filterMap named = segs.filterMap named := by
    rcases hsegs with h | h <;> rw [h]
    rw [List.filterMap_append]
    exact List.append_nil _
  rw [components_eq, components_eq, habsolute, hhead, hrest, hjoin name hname,
    List.head?_append_of_ne_nil _ hne, List.filterMap_append, List.append_assoc]
  simp [named_of_isName hname]

theorem not_asksForDirectory_join (hp : p.spelling ≠ "") (hname : IsName name) :
    (p.join name).asksForDirectory = false := by
  obtain ⟨segs, -, -, hjoin⟩ := exists_segments hp
  rw [asksForDirectory, hjoin name hname, List.getLast?_concat]
  split
  · rename_i heq
    exact absurd (Option.some.inj heq) hname.ne_empty
  · rename_i heq
    exact absurd (Option.some.inj heq) hname.ne_current
  · rfl

end Segments

section Extend
variable {p : Path} {names : List String}

theorem extend_concat (p : Path) (names : List String) (name : String) :
    p.extend (names ++ [name]) = (p.extend names).join name := by
  rw [extend, List.foldl_append]
  rfl

theorem extend_ne_empty (hp : p.spelling ≠ "") (names : List String) :
    (p.extend names).spelling ≠ "" := by
  induction names generalizing p with
  | nil => exact hp
  | cons name names ih => exact ih (join_ne_empty hp name)

theorem components_extend (hp : p.spelling ≠ "") (hnames : ∀ n ∈ names, IsName n) :
    (p.extend names).components = p.components ++ names.map Component.name := by
  induction names generalizing p with
  | nil => exact (List.append_nil _).symm
  | cons name names ih =>
    obtain ⟨hname, hnames⟩ := List.forall_mem_cons.mp hnames
    calc (p.extend (name :: names)).components
        = (p.join name).components ++ names.map Component.name := ih (join_ne_empty hp name) hnames
      _ = p.components ++ (name :: names).map Component.name := by
          rw [components_join hp hname, List.append_assoc]
          rfl

theorem not_asksForDirectory_extend (hp : p.spelling ≠ "") (hne : names ≠ [])
    (hnames : ∀ n ∈ names, IsName n) : (p.extend names).asksForDirectory = false := by
  obtain ⟨names, name, rfl⟩ := (List.eq_nil_or_concat' names).resolve_left hne
  rw [extend_concat]
  exact not_asksForDirectory_join (extend_ne_empty hp names) (hnames name (by simp))

theorem fileName?_extend (hp : p.spelling ≠ "") (hne : names ≠ [])
    (hnames : ∀ n ∈ names, IsName n) : (p.extend names).fileName? = names.getLast? := by
  obtain ⟨names, name, rfl⟩ := (List.eq_nil_or_concat' names).resolve_left hne
  rw [fileName?, components_extend hp hnames, List.map_append, ← List.append_assoc, List.map_singleton,
    List.getLast?_concat, List.getLast?_concat]

end Extend

/-- The name ends with a dot and the letters `sql` in any case, behind at least one character. -/
def HasSqlExtension (name : String) : Prop :=
  ∃ stem extension : List Char, stem ≠ [] ∧ name.toList = stem ++ '.' :: extension ∧
    extension.map Text.asciiLower = ['s', 'q', 'l']

theorem forall_ne_dot {cs : List Char} (h : '.' ∉ cs) : ∀ c ∈ cs.reverse, decide (c ≠ '.') = true := by
  intro c hc
  rw [decide_eq_true_iff]
  rintro rfl
  exact h (List.mem_reverse.mp hc)

theorem span_dot {stem extension : List Char} (h : '.' ∉ extension) :
    (stem ++ '.' :: extension).reverse.span (· ≠ '.') = (extension.reverse, '.' :: stem.reverse) := by
  have hall := forall_ne_dot h
  rw [List.span_eq_takeWhile_dropWhile, List.reverse_append, List.reverse_cons, List.append_assoc,
    List.singleton_append, List.takeWhile_append_of_pos hall, List.dropWhile_append_of_pos hall]
  simp

/-- What stands behind the last dot is the extension, when something stands before that dot. -/
theorem extension?_of_dot {name : String} {stem extension : List Char}
    (hname : name.toList = stem ++ '.' :: extension) (h : '.' ∉ extension) :
    extension? name = if stem = [] then none else some (String.ofList extension) := by
  rw [extension?, hname, span_dot h]
  rcases List.eq_nil_or_concat' stem with rfl | ⟨stem, c, rfl⟩
  · rfl
  · simp

theorem extension?_of_plain {name : String} (h : '.' ∉ name.toList) : extension? name = none := by
  have hdrop : name.toList.reverse.dropWhile (· ≠ '.') = [] :=
    List.dropWhile_eq_nil_iff.mpr (forall_ne_dot h)
  rw [extension?, List.span_eq_takeWhile_dropWhile, hdrop]

theorem isSqlName_iff {name : String} : isSqlName name = true ↔ HasSqlExtension name := by
  constructor
  · intro h
    by_cases hdot : '.' ∈ name.toList
    · obtain ⟨backwards, more, hreverse, hplain⟩ :=
        List.eq_append_cons_of_mem (List.mem_reverse.mpr hdot)
      have hname : name.toList = more.reverse ++ '.' :: backwards.reverse := by
        rw [← List.reverse_reverse name.toList, hreverse]
        simp
      have hextension := extension?_of_dot hname (mt List.mem_reverse.mp hplain)
      rw [isSqlName, hextension] at h
      split at h
      · cases h
      · rename_i hne
        refine ⟨_, _, hne, hname, ?_⟩
        rw [Option.any_some, decide_eq_true_iff, Text.asciiLowerText, String.toList_ofList,
          ← String.toList_inj, String.toList_ofList] at h
        exact h
    · rw [isSqlName, extension?_of_plain hdot] at h
      cases h
  · rintro ⟨stem, extension, hne, hname, hlower⟩
    have hplain : '.' ∉ extension := by
      intro hdot
      have hmem := List.mem_map_of_mem (f := Text.asciiLower) hdot
      rw [hlower] at hmem
      revert hmem
      decide
    rw [isSqlName, extension?_of_dot hname hplain, if_neg hne, Option.any_some, decide_eq_true_iff,
      Text.asciiLowerText, String.toList_ofList, hlower]

end Path
end SqlLayout
