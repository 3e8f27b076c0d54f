import SqlLayout.Proofs.Caching
import SqlLayout.Proofs.Rewinding
import SqlLayout.Proofs.Wording

/-! The vocabulary of a dialect, read off the registries that it was built from. A registry counts when its
name is new. For a word the last registry that lists it decides, for a function the last spelling is
printed, and the prefixes of literals are tried from the longest to the shortest, in the order in which
they are listed. -/

namespace SqlLayout
set_option autoImplicit false

/-- What a registry takes an upper-case word for. A word in several of its lists is a reserved value before
it is a function, and a function before it is a type. -/
def Registry.role? (r : Registry) (word : String) : Option WordKind :=
  if r.reservedValues.any (Text.upper · = word) then some .reserved
  else if r.functions.any (Text.upper · = word) then some .function
  else if r.types.any (Text.upper · = word) then some .type
  else none

namespace Dialect

/-- The registries of a list whose names are new: not among those given, and not that of a registry kept
before. -/
def keptBeside (names : List String) : List Registry → List Registry
  | [] => []
  | r :: rs =>
    if Text.asciiLowerText r.name ∈ names then keptBeside names rs
    else r :: keptBeside (names ++ [Text.asciiLowerText r.name]) rs

/-- The registries that a dialect is made of: the built-in one, and those whose names are new. -/
def kept (rs : List Registry) : List Registry :=
  .postgres :: keptBeside [Text.asciiLowerText Registry.postgres.name] rs

/-- A prefix is tried before another: it is longer, or as long and listed first. -/
def Precedes (listed : List String) (p q : String) : Prop :=
  q.length < p.length ∨ p.length = q.length ∧ listed.idxOf p < listed.idxOf q

section Prefixes
variable {listed known : List String} {p q : String}

/-- A prefix that is listed behind all others finds its place behind those that are as long. -/
theorem pairwise_insertPrefix (h : known.Pairwise (Precedes listed))
    (hlast : ∀ q ∈ known, listed.idxOf q < listed.idxOf p) :
    (insertPrefix p known).Pairwise (Precedes listed) := by
  induction known with
  | nil => exact List.pairwise_singleton _ p
  | cons q known ih =>
    obtain ⟨hq, hknown⟩ := List.pairwise_cons.mp h
    rw [insertPrefix]
    by_cases hlength : q.length < p.length
    · rw [if_pos hlength]
      refine List.pairwise_cons.mpr ⟨?_, h⟩
      intro s hs
      left
      rcases List.mem_cons.mp hs with rfl | hs
      · exact hlength
      · rcases hq s hs with hless | ⟨hsame, -⟩
        · exact hless.trans hlength
        · exact hsame ▸ hlength
    · rw [if_neg hlength]
      refine List.pairwise_cons.mpr
        ⟨?_, ih hknown fun s hs => hlast s (List.mem_cons_of_mem q hs)⟩
      intro s hs
      rcases mem_insertPrefix.mp hs with rfl | hs
      · rcases Nat.lt_or_eq_of_le (Nat.not_lt.mp hlength) with hless | hsame
        · exact Or.inl hless
        · exact Or.inr ⟨hsame.symm, hlast q List.mem_cons_self⟩
      · exact hq s hs

theorem Precedes.extend (hp : p ∈ listed) (hq : q ∈ listed) (h : Precedes listed p q)
    (more : List String) : Precedes (listed ++ more) p q := by
  unfold Precedes
  rw [List.idxOf_append_of_mem hp, List.idxOf_append_of_mem hq]
  exact h

/-- The known prefixes are those listed, in the order in which they are tried. -/
structure Ranked (listed known : List String) : Prop where
  mem : ∀ p, p ∈ known ↔ p ≠ "" ∧ p ∈ listed
  sorted : known.Pairwise (Precedes listed)

theorem Ranked.addPrefix (h : Ranked listed known) (raw : String) :
    Ranked (listed ++ [Text.upper raw]) (addPrefix known raw) := by
  have hsorted : known.Pairwise (Precedes (listed ++ [Text.upper raw])) :=
    h.sorted.imp_of_mem fun hp hq hpq => hpq.extend ((h.mem _).mp hp).2 ((h.mem _).mp hq).2 _
  unfold Dialect.addPrefix
  dsimp only
  split
  · rename_i hknown
    refine ⟨fun p => ?_, hsorted⟩
    simp only [Bool.or_eq_true, decide_eq_true_eq, List.contains_iff_mem] at hknown
    rw [h.mem, List.mem_append, List.mem_singleton]
    constructor
    · exact fun hp => ⟨hp.1, Or.inl hp.2⟩
    · rintro ⟨hp, hlisted | rfl⟩
      · exact ⟨hp, hlisted⟩
      · exact (h.mem _).mp (hknown.resolve_left hp)
  · rename_i hnew
    simp only [Bool.or_eq_true, decide_eq_true_eq, List.contains_iff_mem, not_or] at hnew
    have hunlisted : Text.upper raw ∉ listed := fun hmem => hnew.2 ((h.mem _).mpr ⟨hnew.1, hmem⟩)
    constructor
    case mem =>
      intro p
      rw [mem_insertPrefix, h.mem, List.mem_append, List.mem_singleton]
      constructor
      · rintro (rfl | hp)
        · exact ⟨hnew.1, Or.inr rfl⟩
        · exact ⟨hp.1, Or.inl hp.2⟩
      · rintro ⟨hp, hlisted | rfl⟩
        · exact Or.inr ⟨hp, hlisted⟩
        · exact Or.inl rfl
    case sorted =>
      apply pairwise_insertPrefix hsorted
      intro q hq
      have hlisted := ((h.mem q).mp hq).2
      rw [List.idxOf_append_of_mem hlisted, List.idxOf_append_of_notMem hunlisted]
      exact Nat.lt_add_right _ (List.idxOf_lt_length_of_mem hlisted)

theorem Ranked.foldl (h : Ranked listed known) (raws : List String) :
    Ranked (listed ++ raws.map Text.upper) (raws.foldl Dialect.addPrefix known) := by
  induction raws generalizing listed known with
  | nil => simpa using h
  | cons raw raws ih =>
    have hstep := ih (h.addPrefix raw)
    rwa [List.append_assoc] at hstep

end Prefixes

section Words
variable {word : String}

/-- Of the words that are entered one after the other, the last one is found. -/
theorem lookup_entered {β : Type} (ws : List String) (value : String → β) :
    ((ws.map fun w => (Text.upper w, value w)).reverse).lookup word =
      ((ws.filter (Text.upper · = word)).getLast?).map value := by
  induction ws with
  | nil => rfl
  | cons w ws ih =>
    rw [List.map_cons, List.reverse_cons, List.lookup_append, ih]
    by_cases hw : Text.upper w = word
    · rw [List.filter_cons_of_pos (by simpa using hw), List.getLast?_cons, hw]
      cases (ws.filter (Text.upper · = word)).getLast? <;> simp
    · rw [List.filter_cons_of_neg (by simpa using hw)]
      have hne : (word == Text.upper w) = false := beq_eq_false_iff_ne.mpr fun h => hw h.symm
      simp [List.lookup_cons, hne]

theorem lookup_entered_const {β : Type} (ws : List String) (b : β) :
    ((ws.map fun w => (Text.upper w, b)).reverse).lookup word =
      if ws.any (Text.upper · = word) then some b else none := by
  rw [lookup_entered ws fun _ => b]
  split
  · rename_i hany
    obtain ⟨w, hw, hword⟩ := List.any_eq_true.mp hany
    have hne : ws.filter (Text.upper · = word) ≠ [] :=
      List.ne_nil_of_mem (List.mem_filter.mpr ⟨hw, hword⟩)
    rw [List.getLast?_eq_some_getLast hne]
    rfl
  · rename_i hany
    have hnil : ws.filter (Text.upper · = word) = [] := by
      rw [List.filter_eq_nil_iff]
      intro w hw hword
      exact hany (List.any_eq_true.mpr ⟨w, hw, hword⟩)
    rw [hnil]
    rfl

end Words

/-- The tables of a dialect are those of a list of registries. -/
structure Layers (d : Dialect) (ks : List Registry) : Prop where
  names : d.names = ks.map fun r => Text.asciiLowerText r.name
  words : ∀ word, d.wordKind? word = ks.reverse.findSome? (·.role? word)
  spellings : ∀ word, d.functionSpelling? word =
    ((ks.flatMap Registry.functions).filter (Text.upper · = word)).getLast?
  operators : ∀ op, op ∈ d.operators ↔ op ≠ "" ∧ ∃ r ∈ ks, op ∈ r.operators
  prefixes : Ranked ((ks.flatMap Registry.literalPrefixes).map Text.upper) d.literalPrefixes

theorem layers_empty : Layers {} [] where
  names := rfl
  words := fun _ => rfl
  spellings := fun _ => rfl
  operators := by simp
  prefixes := ⟨by simp, .nil⟩

section Layers
variable {d : Dialect} {ks : List Registry} {r : Registry}

theorem register_known (h : Text.asciiLowerText r.name ∈ d.names) : d.register r = d := by
  rw [register]
  exact if_pos (List.contains_iff_mem.mpr h)

/-- A registry with a new name is laid over the others. -/
theorem Layers.register (h : d.Layers ks) (hnew : Text.asciiLowerText r.name ∉ d.names) :
    (d.register r).Layers (ks ++ [r]) := by
  unfold Dialect.register
  rw [if_neg fun hmem => hnew (List.contains_iff_mem.mp hmem)]
  constructor
  case names => simp [h.names]
  case words =>
    intro word
    have hbelow := h.words word
    unfold wordKind? at hbelow ⊢
    rw [List.reverse_append, List.reverse_singleton, List.singleton_append, List.findSome?_cons,
      List.lookup_append, List.lookup_append, List.lookup_append, lookup_entered_const,
      lookup_entered_const, lookup_entered_const, hbelow, Registry.role?]
    split
    · rfl
    · split
      · rfl
      · split <;> rfl
  case spellings =>
    intro word
    have hbelow := h.spellings word
    unfold functionSpelling? at hbelow ⊢
    rw [List.lookup_append, lookup_entered r.functions fun w => w, hbelow, List.flatMap_append,
      List.filter_append, List.getLast?_append]
    simp
  case operators =>
    intro op
    rw [List.mem_append, h.operators]
    simp only [List.mem_filter, List.mem_append, List.mem_singleton, or_and_right, exists_or,
      exists_eq_left, decide_eq_true_eq, and_or_left]
    rw [and_comm (a := op ∈ r.operators)]
  case prefixes =>
    rw [List.flatMap_append, List.map_append, List.flatMap_singleton]
    exact h.prefixes.foldl r.literalPrefixes

theorem Layers.foldl (h : d.Layers ks) (rs : List Registry) :
    (rs.foldl Dialect.register d).Layers (ks ++ keptBeside d.names rs) := by
  induction rs generalizing d ks with
  | nil => simpa [keptBeside] using h
  | cons r rs ih =>
    rw [List.foldl_cons, keptBeside]
    by_cases hr : Text.asciiLowerText r.name ∈ d.names
    · rw [if_pos hr, register_known hr]
      exact ih h
    · have hstep := ih (h.register hr)
      rw [if_neg hr]
      have hnames : (d.register r).names = d.names ++ [Text.asciiLowerText r.name] := by
        rw [(h.register hr).names, List.map_append, h.names]
        rfl
      rwa [hnames, List.append_assoc] at hstep

end Layers

theorem ofRegistries_layers (rs : List Registry) : (ofRegistries rs).Layers (kept rs) := by
  have hbuiltin : builtin.Layers [.postgres] := layers_empty.register (by simp)
  have hfold := hbuiltin.foldl rs
  rwa [hbuiltin.names] at hfold

theorem foldl_max_length (operators : List String) (n : Nat) :
    operators.foldl (fun n op => max n op.length) n = n ∨
      ∃ op ∈ operators, op.length = operators.foldl (fun n op => max n op.length) n := by
  induction operators generalizing n with
  | nil => exact Or.inl rfl
  | cons op operators ih =>
    rw [List.foldl_cons]
    rcases ih (max n op.length) with hsame | ⟨op', hop', hlength⟩
    · rw [hsame]
      rcases Nat.le_total op.length n with hle | hle
      · exact Or.inl (Nat.max_eq_left hle)
      · exact Or.inr ⟨op, List.mem_cons_self, (Nat.max_eq_right hle).symm⟩
    · exact Or.inr ⟨op', List.mem_cons_of_mem op hop', hlength⟩

theorem exists_maxOperatorLength {d : Dialect} (h : d.operators ≠ []) :
    ∃ op ∈ d.operators, op.length = d.maxOperatorLength := by
  rcases foldl_max_length d.operators 0 with hzero | hmem
  · -- then every operator has length zero
    obtain ⟨op, rest, hops⟩ := List.exists_cons_of_ne_nil h
    have hop : op ∈ d.operators := hops ▸ List.mem_cons_self
    have hle := length_le_maxOperatorLength (List.mem_map_of_mem hop)
    rw [String.length_toList] at hle
    refine ⟨op, hop, ?_⟩
    rw [maxOperatorLength] at hle ⊢
    omega
  · exact hmem

namespace Layers
variable {d : Dialect} {ks : List Registry} (h : d.Layers ks)
include h

/-- The last registry that lists a word decides. -/
theorem wordKind?_eq_some_iff {word : String} {kind : WordKind} :
    d.wordKind? word = some kind ↔ ∃ before r after, ks = before ++ r :: after ∧
      r.role? word = some kind ∧ ∀ s ∈ after, s.role? word = none := by
  rw [h.words, List.findSome?_eq_some_iff]
  constructor
  · rintro ⟨after, r, before, hks, hrole, hafter⟩
    refine ⟨before.reverse, r, after.reverse, ?_, hrole, fun s hs => hafter s (List.mem_reverse.mp hs)⟩
    rw [← List.reverse_reverse ks, hks]
    simp
  · rintro ⟨before, r, after, hks, hrole, hafter⟩
    refine ⟨after.reverse, r, before.reverse, ?_, hrole, fun s hs => hafter s (List.mem_reverse.mp hs)⟩
    rw [hks]
    simp

theorem wordKind?_eq_none_iff {word : String} :
    d.wordKind? word = none ↔ ∀ r ∈ ks, r.role? word = none := by
  rw [h.words, List.findSome?_eq_none_iff]
  simp only [List.mem_reverse]

theorem isOperator_iff {text : String} :
    d.isOperator text = true ↔ text ≠ "" ∧ ∃ r ∈ ks, text ∈ r.operators := by
  rw [isOperator, List.contains_iff_mem, h.operators]

theorem isOperatorPrefix_iff {text : String} : d.isOperatorPrefix text = true ↔
    text ≠ "" ∧ ∃ r ∈ ks, ∃ op ∈ r.operators, text.toList <+: op.toList := by
  simp only [isOperatorPrefix, Bool.and_eq_true, decide_eq_true_eq, List.any_eq_true, h.operators,
    List.isPrefixOf_iff_prefix]
  refine and_congr_right fun htext => ?_
  constructor
  · rintro ⟨op, ⟨-, r, hr, hop⟩, hprefix⟩
    exact ⟨r, hr, op, hop, hprefix⟩
  · rintro ⟨r, hr, op, hop, hprefix⟩
    refine ⟨op, ⟨?_, r, hr, hop⟩, hprefix⟩
    rintro rfl
    exact htext (String.toList_eq_nil_iff.mp (List.prefix_nil.mp hprefix))

theorem length_le {r : Registry} (hr : r ∈ ks) {op : String} (hop : op ∈ r.operators) :
    op.length ≤ d.maxOperatorLength := by
  by_cases hempty : op = ""
  · rw [hempty]
    exact Nat.zero_le _
  · have hmem := (h.operators op).mpr ⟨hempty, r, hr, hop⟩
    have hle := length_le_maxOperatorLength (List.mem_map_of_mem hmem)
    rwa [String.length_toList] at hle

theorem exists_length {r : Registry} (hr : r ∈ ks) {op : String} (hop : op ∈ r.operators)
    (hne : op ≠ "") : ∃ r ∈ ks, ∃ op ∈ r.operators, op.length = d.maxOperatorLength := by
  have hmem := (h.operators op).mpr ⟨hne, r, hr, hop⟩
  obtain ⟨longest, hlongest, hlength⟩ := exists_maxOperatorLength (List.ne_nil_of_mem hmem)
  obtain ⟨-, s, hs, hlisted⟩ := (h.operators longest).mp hlongest
  exact ⟨s, hs, longest, hlisted, hlength⟩

theorem mem_literalPrefixes {p : String} : p ∈ d.literalPrefixes ↔
    p ≠ "" ∧ ∃ r ∈ ks, ∃ raw ∈ r.literalPrefixes, Text.upper raw = p := by
  rw [h.prefixes.mem]
  simp only [List.mem_map, List.mem_flatMap]
  refine and_congr_right fun _ => ?_
  constructor
  · rintro ⟨raw, ⟨r, hr, hraw⟩, hp⟩
    exact ⟨r, hr, raw, hraw, hp⟩
  · rintro ⟨r, hr, raw, hraw, hp⟩
    exact ⟨raw, ⟨r, hr, hraw⟩, hp⟩

/-- A registry that takes a word for a function lists its spelling. -/
theorem exists_spelling {word : String} (hword : d.wordKind? word = some .function) :
    ∃ f, d.functionSpelling? word = some f := by
  obtain ⟨before, r, after, hks, hrole, -⟩ := h.wordKind?_eq_some_iff.mp hword
  have hany : r.functions.any (Text.upper · = word) = true := by
    unfold Registry.role? at hrole
    split at hrole
    · cases hrole
    · split at hrole
      · assumption
      · split at hrole <;> cases hrole
  obtain ⟨f, hf, hupper⟩ := List.any_eq_true.mp hany
  have hr : r ∈ ks := by simp [hks]
  have hmem : f ∈ (ks.flatMap Registry.functions).filter (Text.upper · = word) :=
    List.mem_filter.mpr ⟨List.mem_flatMap.mpr ⟨r, hr, hf⟩, hupper⟩
  rw [h.spellings, List.getLast?_eq_some_getLast (List.ne_nil_of_mem hmem)]
  exact ⟨_, rfl⟩

theorem spelling_ofWord {word : String} {beforeParen : Bool}
    (hword : (Token.ofWord d word beforeParen).kind = .function) :
    d.functionSpelling? (Text.upper word) = some (Token.ofWord d word beforeParen).text := by
  unfold Token.ofWord at hword ⊢
  dsimp only at hword ⊢
  split at hword
  · cases hword
  · split at hword
    · rename_i hkind
      obtain ⟨f, hf⟩ := h.exists_spelling hkind
      simp_all
    all_goals cases hword

end Layers

/-- Whatever was asked for before, a cache answers with the dialect of the list. -/
theorem acquire_dialect (capacity : Nat) (calls : List (List Registry)) (rs : List Registry) :
    (((Cache.empty capacity).run calls).acquire rs).1.1 = ofRegistries rs := by
  have hroom : 0 < max capacity 1 := Nat.lt_of_lt_of_le Nat.zero_lt_one (Nat.le_max_right capacity 1)
  have hholds := (Cache.holds_empty capacity).run hroom calls
  unfold Cache.acquire
  split
  · rename_i hempty
    rw [List.isEmpty_iff.mp hempty]
    rfl
  · by_cases hrs : rs ∈ ((Cache.empty capacity).run calls).order
    · obtain ⟨b, -, hdialect, hfound⟩ := hholds.found hrs
      rw [hfound]
      exact hdialect
    · exact (hholds.built hroom hrs).1

/-- A dialect is the vocabulary of its registries laid one over the other, the built-in one at the bottom,
each with a new name. The last one that lists a word decides what the word stands for; its operators and
their beginnings are those of all registries; the prefixes of literals are tried from the longest to the
shortest, each once and in the order in which they are first listed; and whatever is taken for a function
has the spelling that was registered last. -/
theorem ofRegistries_layered (rs : List Registry) :
    let d := ofRegistries rs
    let ks := kept rs
    (∀ capacity calls, (((Cache.empty capacity).run calls).acquire rs).1.1 = d) ∧
    d.names = ks.map (fun r => Text.asciiLowerText r.name) ∧
    (∀ word kind, d.wordKind? word = some kind ↔ ∃ before r after, ks = before ++ r :: after ∧
      r.role? word = some kind ∧ ∀ s ∈ after, s.role? word = none) ∧
    (∀ word, d.wordKind? word = none ↔ ∀ r ∈ ks, r.role? word = none) ∧
    (∀ text, d.isOperator text = true ↔ text ≠ "" ∧ ∃ r ∈ ks, text ∈ r.operators) ∧
    (∀ text, d.isOperatorPrefix text = true ↔
      text ≠ "" ∧ ∃ r ∈ ks, ∃ op ∈ r.operators, text.toList <+: op.toList) ∧
    (∀ r ∈ ks, ∀ op ∈ r.operators, op.length ≤ d.maxOperatorLength) ∧
    (∃ r ∈ ks, ∃ op ∈ r.operators, op.length = d.maxOperatorLength) ∧
    (∀ p, p ∈ d.literalPrefixes ↔ p ≠ "" ∧ ∃ r ∈ ks, ∃ raw ∈ r.literalPrefixes, Text.upper raw = p) ∧
    d.literalPrefixes.Pairwise (Precedes ((ks.flatMap Registry.literalPrefixes).map Text.upper)) ∧
    (∀ word, d.functionSpelling? word =
      ((ks.flatMap Registry.functions).filter (Text.upper · = word)).getLast?) ∧
    (∀ word, d.wordKind? word = some .function → ∃ f, d.functionSpelling? word = some f) ∧
    (∀ word beforeParen, (Token.ofWord d word beforeParen).kind = .function →
      d.functionSpelling? (Text.upper word) = some (Token.ofWord d word beforeParen).text) := by
  intro d ks
  have h : d.Layers ks := ofRegistries_layers rs
  have hpostgres : Registry.postgres ∈ ks := List.mem_cons_self
  refine ⟨fun capacity calls => acquire_dialect capacity calls rs, h.names,
    fun word kind => h.wordKind?_eq_some_iff, fun word => h.wordKind?_eq_none_iff,
    fun text => h.isOperator_iff, fun text => h.isOperatorPrefix_iff,
    fun r hr op hop => h.length_le hr hop, ?_, fun p => h.mem_literalPrefixes, h.prefixes.sorted,
    h.spellings, fun word => h.exists_spelling, fun word paren => h.spelling_ofWord⟩
  have hplus : "+" ∈ Registry.postgres.operators := by decide
  exact h.exists_length hpostgres hplus (by decide)

end Dialect
end SqlLayout
