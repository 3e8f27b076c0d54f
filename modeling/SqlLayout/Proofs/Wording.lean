import SqlLayout.Proofs.Casing
import SqlLayout.Proofs.Scanning
import SqlLayout.Render
import SqlLayout.Tokenize

/-! Words and the vocabulary. A dialect is tame when its operators are and its words are plain. A
word of such a dialect is printed as a plain word, which is looked up with the same result. -/

namespace SqlLayout
set_option autoImplicit false

/-- A plain word of at least two characters. -/
def isVocabulary (word : String) : Bool :=
  Lexeme.isPlainWord word.toList && 2 ≤ word.toList.length

/-- What dialects for which tokens can be read back have in common. -/
structure Dialect.Tame (d : Dialect) : Prop where
  operators : Operator.Tame (d.operators.map String.toList)
  words : ∀ e ∈ d.words, isVocabulary e.1 = true ∧ Text.upper e.1 = e.1
  spellings : ∀ e ∈ d.spellings, isVocabulary e.2 = true ∧ Text.upper e.2 = e.1
  literalPrefixes : ∀ p ∈ d.literalPrefixes,
    p = "U&" ∨ (p.toList.length = 1 ∧ p.toList.all Char.isUpper = true)

theorem isAscii_of_isVocabulary {word : String} (h : isVocabulary word = true) :
    Text.isAscii word.toList = true := by
  simp only [isVocabulary, Lexeme.isPlainWord, Bool.and_eq_true] at h
  exact Text.isAscii_of_words h.1.2

/-- A change of letters that keeps word characters keeps the vocabulary. -/
theorem isVocabulary_of_map {word other : String} {f : Char → Char}
    (hf : ∀ c, Text.isWordChar c = true → Text.isWordChar (f c) = true ∧ (f c).isAlpha = c.isAlpha)
    (hother : other.toList = word.toList.map f) (h : isVocabulary word = true) :
    isVocabulary other = true := by
  simp only [isVocabulary, Lexeme.isPlainWord, Bool.and_eq_true, decide_eq_true_eq] at h ⊢
  obtain ⟨⟨hhead, hall⟩, hlength⟩ := h
  rw [hother]
  refine ⟨⟨?_, ?_⟩, by simpa using hlength⟩
  · cases hword : word.toList with
    | nil => simp [hword] at hlength
    | cons c cs =>
      rw [hword] at hhead hall
      have hc : Text.isWordChar c = true := List.all_eq_true.mp hall c List.mem_cons_self
      simpa [(hf c hc).2] using hhead
  · rw [List.all_eq_true]
    intro d hd
    obtain ⟨e, he, rfl⟩ := List.mem_map.mp hd
    exact (hf e (List.all_eq_true.mp hall e he)).1

theorem isVocabulary_lower {word : String} (h : isVocabulary word = true) :
    isVocabulary (Text.lower word) = true :=
  isVocabulary_of_map (fun _ hc => Text.isWordChar_asciiLower hc)
    (Text.toList_lower (isAscii_of_isVocabulary h)) h

theorem isVocabulary_upper {word : String} (h : isVocabulary word = true) :
    isVocabulary (Text.upper word) = true ∧ Text.upper (Text.upper word) = Text.upper word := by
  have hascii := isAscii_of_isVocabulary h
  have hvocabulary : isVocabulary (Text.upper word) = true :=
    isVocabulary_of_map (fun _ hc => Text.isWordChar_asciiUpper hc) (Text.toList_upper hascii) h
  refine ⟨hvocabulary, ?_⟩
  apply String.toList_injective
  rw [Text.toList_upper (isAscii_of_isVocabulary hvocabulary), Text.toList_upper hascii,
    List.map_map]
  apply List.map_congr_left
  intro c hc
  have hc : c.toNat < 128 := by simpa using List.all_eq_true.mp hascii c hc
  exact (Text.ascii_case hc).2.1

structure Registry.Tame (r : Registry) : Prop where
  words : ∀ w ∈ r.types ++ r.functions ++ r.reservedValues, isVocabulary w = true
  bare : ∀ op ∈ r.operators, ∀ c ∈ op.toList,
    Lexeme.isSeparator c = false ∧ Text.isWordChar c = false
  colon : ∀ op ∈ r.operators, ':' ∈ op.toList → op = "::" ∨ ':' ∉ op.toList.tail ∧ op ≠ ":"
  literalPrefixes : ∀ p ∈ r.literalPrefixes, Text.upper p = "U&" ∨
    ((Text.upper p).toList.length ≤ 1 ∧ (Text.upper p).toList.all Char.isUpper = true)

namespace Dialect

theorem mem_insertPrefix {p q : String} {known : List String} :
    q ∈ insertPrefix p known ↔ q = p ∨ q ∈ known := by
  induction known with
  | nil => simp [insertPrefix]
  | cons s known ih =>
    rw [insertPrefix]
    split
    · exact List.mem_cons
    · rw [List.mem_cons, ih, List.mem_cons, or_left_comm]

theorem mem_addPrefixes {raws known : List String} {q : String}
    (h : q ∈ raws.foldl addPrefix known) :
    q ∈ known ∨ ∃ raw ∈ raws, q = Text.upper raw ∧ q ≠ "" := by
  induction raws generalizing known with
  | nil => exact Or.inl h
  | cons raw raws ih =>
    rcases ih h with h | ⟨raw', hmem, hq⟩
    · unfold addPrefix at h
      dsimp only at h
      split at h
      · exact Or.inl h
      · rename_i hnew
        rcases mem_insertPrefix.mp h with rfl | h
        · exact Or.inr ⟨raw, List.mem_cons_self, rfl, by simp_all⟩
        · exact Or.inl h
    · exact Or.inr ⟨raw', List.mem_cons_of_mem raw hmem, hq⟩

/-- The laws of a tame dialect, except that the cast and the ampersand are operators. -/
structure Mild (d : Dialect) : Prop where
  bare : ∀ op ∈ d.operators, ∀ c ∈ op.toList,
    Lexeme.isSeparator c = false ∧ Text.isWordChar c = false
  colon : ∀ op ∈ d.operators, ':' ∈ op.toList → op = "::" ∨ ':' ∉ op.toList.tail ∧ op ≠ ":"
  words : ∀ e ∈ d.words, isVocabulary e.1 = true ∧ Text.upper e.1 = e.1
  spellings : ∀ e ∈ d.spellings, isVocabulary e.2 = true ∧ Text.upper e.2 = e.1
  literalPrefixes : ∀ p ∈ d.literalPrefixes,
    p = "U&" ∨ (p.toList.length = 1 ∧ p.toList.all Char.isUpper = true)

theorem Mild.register {d : Dialect} (hd : d.Mild) {r : Registry} (hr : r.Tame) :
    (d.register r).Mild := by
  unfold Dialect.register
  dsimp only
  split
  · exact hd
  · constructor
    · intro op hop
      rcases List.mem_append.mp hop with hop | hop
      · exact hd.bare op hop
      · exact hr.bare op (List.mem_filter.mp hop).1
    · intro op hop
      rcases List.mem_append.mp hop with hop | hop
      · exact hd.colon op hop
      · exact hr.colon op (List.mem_filter.mp hop).1
    · intro e he
      simp only [List.mem_append, List.mem_reverse, List.mem_map] at he
      rcases he with ((⟨w, hw, rfl⟩ | ⟨w, hw, rfl⟩) | ⟨w, hw, rfl⟩) | he
      · exact isVocabulary_upper (hr.words w (by simp [hw]))
      · exact isVocabulary_upper (hr.words w (by simp [hw]))
      · exact isVocabulary_upper (hr.words w (by simp [hw]))
      · exact hd.words e he
    · intro e he
      simp only [List.mem_append, List.mem_reverse, List.mem_map] at he
      rcases he with ⟨w, hw, rfl⟩ | he
      · exact ⟨hr.words w (by simp [hw]), rfl⟩
      · exact hd.spellings e he
    · intro p hp
      rcases mem_addPrefixes hp with hp | ⟨raw, hraw, rfl, hne⟩
      · exact hd.literalPrefixes p hp
      · rcases hr.literalPrefixes raw hraw with h | ⟨hle, hall⟩
        · exact Or.inl h
        · refine Or.inr ⟨?_, hall⟩
          have hpos : (Text.upper raw).toList ≠ [] := by
            intro hnil
            exact hne (String.toList_injective (by simpa using hnil))
          have := List.length_pos_iff.mpr hpos
          omega

theorem register_operators {d : Dialect} (r : Registry) {op : String} (h : op ∈ d.operators) :
    op ∈ (d.register r).operators := by
  unfold Dialect.register
  dsimp only
  split
  · exact h
  · exact List.mem_append_left _ h

theorem Mild.tame {d : Dialect} (hd : d.Mild) (hcast : "::" ∈ d.operators)
    (hampersand : "&" ∈ d.operators) : d.Tame where
  operators := by
    have hcolon : ∀ op ∈ d.operators, ':' ∈ op.toList.tail → op.toList = [':', ':'] := by
      intro op hop hmem
      rcases hd.colon op hop (List.mem_of_mem_tail hmem) with rfl | ⟨hnot, _⟩
      · rfl
      · exact absurd hmem hnot
    constructor
    · intro op hop
      obtain ⟨op, hmem, rfl⟩ := List.mem_map.mp hop
      exact hd.bare op hmem
    · intro op hop
      obtain ⟨op, hmem, rfl⟩ := List.mem_map.mp hop
      exact hcolon op hmem
    · intro hlone
      obtain ⟨op, hop, hlist⟩ := List.mem_map.mp hlone
      obtain rfl : op = ":" := String.toList_injective hlist
      rcases hd.colon ":" hop (by decide) with h | ⟨-, h⟩
      · revert h
        decide
      · exact h rfl
    · exact List.mem_map.mpr ⟨"::", hcast, rfl⟩
    · exact List.mem_map.mpr ⟨"&", hampersand, rfl⟩
  words := hd.words
  spellings := hd.spellings
  literalPrefixes := hd.literalPrefixes

theorem bare_of_all {ops : List String}
    (h : (ops.all fun op => op.toList.all fun c =>
      !Lexeme.isSeparator c && !Text.isWordChar c) = true) :
    ∀ op ∈ ops, ∀ c ∈ op.toList, Lexeme.isSeparator c = false ∧ Text.isWordChar c = false := by
  simpa using h

theorem postgres_tame : Registry.postgres.Tame where
  words := by decide +kernel
  bare := bare_of_all (by decide +kernel)
  colon := by decide +kernel
  literalPrefixes := by decide +kernel

theorem postgis_tame : Registry.postgis.Tame where
  words := by decide +kernel
  bare := bare_of_all (by decide +kernel)
  colon := by decide +kernel
  literalPrefixes := by decide +kernel

theorem ofRegistries_tame {rs : List Registry} (hrs : ∀ r ∈ rs, r.Tame) :
    (ofRegistries rs).Tame := by
  have hbuiltin : builtin.Mild := by
    apply Mild.register _ postgres_tame
    constructor <;> simp
  have hfold : ∀ d : Dialect, d.Mild → "::" ∈ d.operators → "&" ∈ d.operators →
      (rs.foldl register d).Tame := by
    induction rs with
    | nil => exact fun d hd hcast hamp => hd.tame hcast hamp
    | cons r rs ih =>
      intro d hd hcast hamp
      exact ih (fun s hs => hrs s (List.mem_cons_of_mem r hs)) _
        (hd.register (hrs r List.mem_cons_self)) (register_operators r hcast)
        (register_operators r hamp)
  exact hfold builtin hbuiltin (by decide +kernel) (by decide +kernel)

end Dialect

namespace Keyword

theorem spelling_of_ofUpper? {word : String} {k : Keyword} (h : ofUpper? word = some k) :
    word = "ILIKE" ∧ k = .LIKE ∨ word = "UNKNOWN" ∧ k = .NULL ∨ k.spelling = word := by
  unfold ofUpper? at h
  split at h
  · rename_i hword
    exact Or.inl ⟨hword, (Option.some.inj h).symm⟩
  · split at h
    · rename_i hword
      exact Or.inr (Or.inl ⟨hword, (Option.some.inj h).symm⟩)
    · exact Or.inr (Or.inr (by simpa using List.find?_some h))

theorem ofUpper?_vocabulary {word : String} {k : Keyword} (h : ofUpper? word = some k) :
    isVocabulary word = true ∧ Text.upper word = word := by
  have hall : ∀ k ∈ all, isVocabulary k.spelling = true ∧ Text.upper k.spelling = k.spelling := by
    decide +kernel
  rcases spelling_of_ofUpper? h with ⟨rfl, -⟩ | ⟨rfl, -⟩ | rfl
  · decide +kernel
  · decide +kernel
  · exact hall k (mem_all k)

end Keyword

namespace Token

/-- The spelling of a keyword, a function or a type. -/
def cased (o : Options) (text : String) : String := if o.lowerCased then Text.lower text else text

theorem cased_vocabulary (o : Options) {text : String} (h : isVocabulary text = true) :
    isVocabulary (cased o text) = true ∧ Text.upper (cased o text) = Text.upper text := by
  unfold cased
  split
  · exact ⟨isVocabulary_lower h, Text.upper_lower (isAscii_of_isVocabulary h)⟩
  · exact ⟨h, rfl⟩

theorem canonicalReserved_vocabulary {text : String} (h : isVocabulary text = true)
    (hupper : Text.upper text = text) :
    isVocabulary ((Vocabulary.canonicalReserved? text).getD text) = true ∧
      Text.upper ((Vocabulary.canonicalReserved? text).getD text) = text := by
  unfold Vocabulary.canonicalReserved?
  split
  · rename_i htext
    subst htext
    decide +kernel
  · split
    · rename_i htext
      subst htext
      decide +kernel
    · split
      · rename_i htext
        subst htext
        revert h
        decide +kernel
      · exact ⟨h, hupper⟩

theorem mem_of_lookup {α β : Type} [BEq α] [LawfulBEq α] {l : List (α × β)} {a : α} {b : β}
    (h : l.lookup a = some b) : (a, b) ∈ l := by
  obtain ⟨l₁, l₂, rfl, -⟩ := List.lookup_eq_some_iff.mp h
  simp

theorem ofWord_eq_cases (d : Dialect) (word : String) (beforeParen : Bool) :
    ofWord d word beforeParen = ⟨.ident, word⟩ ∨
    (∃ k, Keyword.ofUpper? (Text.upper word) = some k ∧
      ofWord d word beforeParen = ⟨.keyword k, Text.upper word⟩) ∨
    (Keyword.ofUpper? (Text.upper word) = none ∧
      d.wordKind? (Text.upper word) = some .function ∧ ofWord d word beforeParen =
        ⟨.function, (d.functionSpelling? (Text.upper word)).getD (Text.upper word)⟩) ∨
    ∃ kind, kind ≠ .function ∧ d.wordKind? (Text.upper word) = some kind ∧
      ofWord d word beforeParen = ⟨kind.tokenKind, Text.upper word⟩ := by
  unfold ofWord
  dsimp only
  cases Keyword.ofUpper? (Text.upper word) with
  | some k => exact Or.inr (Or.inl ⟨k, rfl, rfl⟩)
  | none =>
    dsimp only
    split
    · rename_i hkind
      exact Or.inr (Or.inr (Or.inl ⟨rfl, hkind, rfl⟩))
    · rename_i hkind
      exact Or.inr (Or.inr (Or.inr ⟨.type, by decide, hkind, rfl⟩))
    · rename_i hkind
      exact Or.inr (Or.inr (Or.inr ⟨.reserved, by decide, hkind, rfl⟩))
    · exact Or.inl rfl

theorem ofWord_cases {d : Dialect} (tame : d.Tame) (word : String) (beforeParen : Bool) :
    ofWord d word beforeParen = ⟨.ident, word⟩ ∨
    (∃ k, ofWord d word beforeParen = ⟨.keyword k, Text.upper word⟩ ∧
      isVocabulary (Text.upper word) = true ∧ Text.upper (Text.upper word) = Text.upper word) ∨
    (∃ f, ofWord d word beforeParen = ⟨.function, f⟩ ∧ isVocabulary f = true ∧
      Text.upper f = Text.upper word) ∨
    ∃ kind : WordKind, ofWord d word beforeParen = ⟨kind.tokenKind, Text.upper word⟩ ∧
      isVocabulary (Text.upper word) = true ∧ Text.upper (Text.upper word) = Text.upper word := by
  rcases ofWord_eq_cases d word beforeParen with he | ⟨k, hk, he⟩ | ⟨-, hkind, he⟩ |
    ⟨kind, -, hkind, he⟩
  · exact Or.inl he
  · exact Or.inr (Or.inl ⟨k, he, Keyword.ofUpper?_vocabulary hk⟩)
  · have hword := tame.words _ (mem_of_lookup hkind)
    cases hspelling : d.functionSpelling? (Text.upper word) with
    | none =>
      rw [hspelling, Option.getD_none] at he
      exact Or.inr (Or.inr (Or.inl ⟨Text.upper word, he, hword⟩))
    | some f =>
      rw [hspelling, Option.getD_some] at he
      have hf := tame.spellings _ (mem_of_lookup hspelling)
      exact Or.inr (Or.inr (Or.inl ⟨f, he, hf⟩))
  · have hword := tame.words _ (mem_of_lookup hkind)
    exact Or.inr (Or.inr (Or.inr ⟨kind, he, hword⟩))

/-- A word of the vocabulary is printed as a plain word with the same letters. -/
theorem ofWord_spelling {d : Dialect} (tame : d.Tame) (o : Options) {word : String}
    {beforeParen : Bool} (h : (ofWord d word beforeParen).kind ≠ .ident) :
    isVocabulary ((ofWord d word beforeParen).spelling o) = true ∧
      Text.upper ((ofWord d word beforeParen).spelling o) = Text.upper word := by
  rcases ofWord_cases tame word beforeParen with he | ⟨k, he, hvoc, hup⟩ | ⟨f, he, hvoc, hup⟩ |
    ⟨kind, he, hvoc, hup⟩
  · rw [he] at h
    exact absurd rfl h
  · rw [he]
    have hcased := cased_vocabulary o hvoc
    rwa [hup] at hcased
  · rw [he]
    have hcased := cased_vocabulary o hvoc
    rwa [hup] at hcased
  · rw [he]
    have hcased := cased_vocabulary o hvoc
    rw [hup] at hcased
    cases kind with
    | type => exact hcased
    | function => exact hcased
    | reserved => exact canonicalReserved_vocabulary hvoc hup

theorem ofWord_congr {d : Dialect} {word other : String} {beforeParen : Bool}
    (h : (ofWord d word beforeParen).kind ≠ .ident) (heq : Text.upper other = Text.upper word) :
    ofWord d other beforeParen = ofWord d word beforeParen := by
  unfold ofWord at h ⊢
  rw [heq]
  dsimp only at h ⊢
  split at h
  · rfl
  · split at h <;> first | rfl | exact absurd rfl h

theorem ofWord_ident {d : Dialect} {word : String} {beforeParen : Bool}
    (h : (ofWord d word beforeParen).kind = .ident) :
    ofWord d word beforeParen = ⟨.ident, word⟩ := by
  rcases ofWord_eq_cases d word beforeParen with he | ⟨k, -, he⟩ | ⟨-, -, he⟩ | ⟨kind, -, -, he⟩
  · exact he
  · rw [he] at h
    cases h
  · rw [he] at h
    cases h
  · rw [he] at h
    cases kind <;> cases h

theorem compound_spelling (o : Options) {words : List String}
    (h : words ∈ Vocabulary.compoundTypes) :
    ∃ first more, words = first :: more ∧
      (Token.mk .type (" ".intercalate words)).spelling o =
        String.ofList ((cased o first).toList ++ more.flatMap fun w => ' ' :: (cased o w).toList) ∧
      ∀ w ∈ words, isVocabulary w = true ∧ Text.upper w = w := by
  have hwords : ∀ ws ∈ Vocabulary.compoundTypes, ∀ w ∈ ws, isVocabulary w = true ∧
      Text.upper w = w := by decide +kernel
  have hspelling : ∀ ws ∈ Vocabulary.compoundTypes, ∀ lowered : Bool,
      (if lowered then Text.lower (" ".intercalate ws) else " ".intercalate ws) =
        String.ofList ((ws.head?.map fun w => (if lowered then Text.lower w else w).toList).getD [] ++
          ws.tail.flatMap fun w => ' ' :: (if lowered then Text.lower w else w).toList) := by
    decide +kernel
  cases words with
  | nil => exact absurd h (by decide)
  | cons first more => exact ⟨first, more, rfl, hspelling _ h o.lowerCased, hwords _ h⟩

end Token
end SqlLayout
